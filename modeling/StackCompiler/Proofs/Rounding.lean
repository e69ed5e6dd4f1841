import Mathlib.Algebra.Ring.Int.Defs
import Mathlib.Order.Bounds.Basic
import StackCompiler.Word

/-!
# Proofs/Rounding — rounding up within a word

The least multiple of an alignment from a number on is **less than an alignment above it**
(`roundedUp_iff`), and `alignUp?` finds it by a sum that lies as far or further.  So near the greatest
word there are multiples that fit while the sum on the way does not, and these are not found
(`exists_roundsTo`); for an alignment that 2 ^ 63 is a multiple of there are none.
-/

namespace StackCompiler.Word

variable {n align m : Int}

/-- The number is the least multiple of the alignment that is **not below** `n`. -/
def RoundedUp (n align m : Int) : Prop :=
  IsLeast {k | align ∣ k ∧ n ≤ k} m

theorem roundedUp_iff (ha : 1 ≤ align) :
    RoundedUp n align m ↔ align ∣ m ∧ n ≤ m ∧ m < n + align := by
  constructor
  · rintro ⟨⟨hdvd, hle⟩, hleast⟩
    refine ⟨hdvd, hle, ?_⟩
    by_contra hfar
    have hbefore : m ≤ m - align := hleast ⟨Int.dvd_sub hdvd (Int.dvd_refl align), by omega⟩
    omega
  · rintro ⟨hdvd, hle, hlt⟩
    refine ⟨⟨hdvd, hle⟩, fun k hk => ?_⟩
    obtain ⟨hdvd', hle'⟩ := hk
    by_contra hbelow
    -- two multiples are at least an alignment apart
    have happart : align ≤ m - k := Int.le_of_dvd (by omega) (Int.dvd_sub hdvd hdvd')
    omega

/-- The last multiple **up to the sum** of the number and one less than the alignment is the one to
find. -/
theorem roundedUp_of_sum (ha : 1 ≤ align) :
    RoundedUp n align ((n + (align - 1)) / align * align) := by
  have hsum := Int.ediv_mul_add_emod (n + (align - 1)) align
  have hnonneg := Int.emod_nonneg (n + (align - 1)) (by omega : align ≠ 0)
  have hlt := Int.emod_lt_of_pos (n + (align - 1)) (by omega : 0 < align)
  exact (roundedUp_iff ha).mpr ⟨Int.dvd_mul_left _ _, by omega, by omega⟩

/-- Rounding succeeds **as long as the sum on the way fits**, and then it finds the multiple. -/
theorem alignUp?_eq_some_iff (hn : 0 ≤ n) (ha : 1 ≤ align) :
    alignUp? n align = some m ↔ RoundedUp n align m ∧ n + (align - 1) ≤ greatest := by
  have hdiv : (n + (align - 1)).tdiv align = (n + (align - 1)) / align :=
    Int.tdiv_eq_ediv_of_nonneg (by omega)
  rw [alignUp?, Option.map_eq_some_iff]
  constructor
  · rintro ⟨sum, hfit, rfl⟩
    obtain ⟨⟨-, hle⟩, rfl⟩ := fit?_eq_some_iff.mp hfit
    rw [hdiv]
    exact ⟨roundedUp_of_sum ha, hle⟩
  · rintro ⟨hm, hle⟩
    have hleast : least ≤ n + (align - 1) := by
      unfold least
      omega
    refine ⟨_, fit?_eq_some_iff.mpr ⟨⟨hleast, hle⟩, rfl⟩, ?_⟩
    rw [hdiv]
    exact (roundedUp_of_sum ha).unique hm

theorem alignUp?_eq_none_iff (hn : 0 ≤ n) (ha : 1 ≤ align) :
    alignUp? n align = none ↔ greatest < n + (align - 1) := by
  rw [alignUp?, Option.map_eq_none_iff, fit?_eq_none_iff]
  unfold least
  omega

/-- An alignment that 2 ^ 63 is a multiple of leaves room for the sum **if there is room for the
multiple**. -/
theorem RoundedUp.sum_le (hm : RoundedUp n align m) (hdvd : align ∣ 2 ^ 63) (hle : m ≤ greatest) :
    n + (align - 1) ≤ greatest := by
  obtain ⟨⟨hdvd', hle'⟩, -⟩ := hm
  unfold greatest at *
  have happart : align ≤ 2 ^ 63 - m := Int.le_of_dvd (by omega) (Int.dvd_sub hdvd hdvd')
  omega

/-- Every step of rounding is one that a word has: **a quotient of a sum that fits fits as well**. -/
theorem alignable_of_pos (hn : 0 ≤ n) (ha : 1 ≤ align) (hle : align ≤ greatest) :
    alignable n align = true := by
  have hbefore : fits (align - 1) = true := fits_iff.mpr (by unfold least greatest at *; omega)
  have hne : (align != 0) = true := bne_iff_ne.mpr (by omega)
  rw [alignable, hbefore, hne, Bool.true_and, Bool.true_and, Bool.or_eq_true, Bool.not_eq_true']
  cases hfits : fits (n + (align - 1)) with
  | false => exact .inl rfl
  | true =>
    have hsum : 0 ≤ n + (align - 1) := by omega
    have hle := (fits_iff.mp hfits).2
    have hquotient := Int.ediv_le_self align hsum
    have hnonneg := Int.ediv_nonneg hsum (by omega : 0 ≤ align)
    rw [Int.tdiv_eq_ediv_of_nonneg hsum]
    exact .inr (fits_iff.mpr ⟨by unfold least; omega, by omega⟩)

/-- What rounding up comes to, where `m` is the multiple to find. -/
structure RoundsTo (n align m : Int) : Prop where
  rounded : RoundedUp n align m
  /-- Every step is an operation that a word has. -/
  answered : alignable n align = true
  found : alignUp? n align = some m ↔ n + (align - 1) ≤ greatest
  refused : alignUp? n align = none ↔ greatest < n + (align - 1)
  /-- The multiple if it fits and nothing if it does not, **unless it fits and the sum does not**. -/
  exact_iff : alignUp? n align = fit? m ↔ ¬(m ≤ greatest ∧ greatest < n + (align - 1))
  exact_of_dvd : align ∣ 2 ^ 63 → alignUp? n align = fit? m

/-- **Rounding up finds the least multiple that is not below the number if the sum on the way fits a
word**, and else finds none.  For an alignment that 2 ^ 63 is a multiple of, that is to say if the
multiple fits. -/
theorem exists_roundsTo (hn : 0 ≤ n) (ha : 1 ≤ align) (hle : align ≤ greatest) :
    ∃ m, RoundsTo n align m := by
  have hm := roundedUp_of_sum (n := n) ha
  generalize (n + (align - 1)) / align * align = m at hm
  have hfound := (alignUp?_eq_some_iff hn ha).trans (and_iff_right hm)
  have hrefused := alignUp?_eq_none_iff hn ha
  have hleast : Word.least ≤ m := by
    have hnonneg := hn.trans hm.1.2
    unfold Word.least
    omega
  have hexact : alignUp? n align = fit? m ↔ ¬(m ≤ greatest ∧ greatest < n + (align - 1)) := by
    by_cases hfits : m ≤ greatest
    · rw [fit?_eq_some_iff.mpr ⟨⟨hleast, hfits⟩, rfl⟩, hfound]
      omega
    · rw [fit?_eq_none_iff.mpr (.inr (by omega)), hrefused]
      have hlt := ((roundedUp_iff ha).mp hm).2.2
      omega
  refine ⟨m, hm, alignable_of_pos hn ha hle, hfound, hrefused, hexact, fun hdvd => ?_⟩
  refine hexact.mpr fun ⟨hfits, hlarge⟩ => ?_
  exact absurd (hm.sum_le hdvd hfits) (by omega)

/-- The greatest word but one is a multiple of three, and **is not found from itself on**: two more is
no word. -/
theorem exists_roundsTo_below_greatest :
    ((0 : Int) ≤ 9223372036854775806 ∧ (1 : Int) ≤ 3 ∧ 3 ≤ greatest) ∧
      ∃ m, RoundsTo 9223372036854775806 3 m ∧ m = 9223372036854775806 ∧ m ≤ greatest ∧
        alignUp? 9223372036854775806 3 = none := by
  have hexists : ∃ m, RoundsTo 9223372036854775806 3 m :=
    exists_roundsTo (by decide) (by decide) (by decide)
  obtain ⟨m, hm⟩ := hexists
  obtain rfl : m = 9223372036854775806 :=
    hm.rounded.unique ((roundedUp_iff (by decide)).mpr (by decide))
  exact ⟨by decide, _, hm, rfl, by decide, hm.refused.mpr (by decide)⟩

end StackCompiler.Word
