/-!
# Word — numbers that fit a machine word

Sizes, offsets and alignments are integers of the machine's word: **signed, 64 bits wide**.  A
result outside that range is no result (`fit?`).
-/

namespace StackCompiler.Word

/-- The least number of a word. -/
def least : Int := -9223372036854775808

/-- The greatest number of a word. -/
def greatest : Int := 9223372036854775807

/-- Whether the number is one of a word. -/
def fits (n : Int) : Bool :=
  least ≤ n && n ≤ greatest

/-- The number, if it is one of a word. -/
def fit? (n : Int) : Option Int :=
  if fits n then some n else none

theorem fits_iff {n : Int} : fits n = true ↔ least ≤ n ∧ n ≤ greatest := by
  simp [fits]

theorem fit?_of_fits {n : Int} (h : fits n = true) : fit? n = some n :=
  if_pos h

theorem fit?_of_not_fits {n : Int} (h : ¬fits n = true) : fit? n = none :=
  if_neg h

theorem fit?_eq_some_iff {n m : Int} : fit? n = some m ↔ (least ≤ n ∧ n ≤ greatest) ∧ n = m := by
  by_cases h : fits n = true
  · rw [fit?_of_fits h, Option.some.injEq, and_iff_right (fits_iff.1 h)]
  · rw [fit?_of_not_fits h]
    exact ⟨fun h' => (nomatch h'), fun h' => absurd (fits_iff.2 h'.1) h⟩

theorem fit?_eq_none_iff {n : Int} : fit? n = none ↔ n < least ∨ greatest < n := by
  by_cases h : fits n = true
  · rw [fit?_of_fits h]
    have := fits_iff.1 h
    exact ⟨fun h' => (nomatch h'), fun h' => by omega⟩
  · rw [fit?_of_not_fits h]
    rw [fits_iff] at h
    exact ⟨fun _ => by omega, fun _ => rfl⟩

/-! ## Rounding up -/

/-- The number rounded up to a multiple of the alignment; `none` if the **sum on the way** leaves
the word.  The division drops the fraction, so below zero it rounds to the multiple nearer zero. -/
def alignUp? (n align : Int) : Option Int :=
  (fit? (n + (align - 1))).map fun sum => sum.tdiv align * align

/-- Whether rounding has an answer at all: its steps must be operations that a word has. -/
def alignable (n align : Int) : Bool :=
  fits (align - 1) &&
    (!fits (n + (align - 1)) || (align != 0 && fits ((n + (align - 1)).tdiv align)))

end StackCompiler.Word
