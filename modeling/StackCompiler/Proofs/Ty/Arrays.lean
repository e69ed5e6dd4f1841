import Mathlib.Data.List.Forall2
import StackCompiler.Proofs.Ty.Proper

/-!
# Proofs/Ty/Arrays — where the elements of an array are

An array of arrays holds its rows one after the other, so an element stands behind the array's start by
**the sum of its positions, each times the size of what stands there** (`rowMajor`).  With each position
below the length that it is for, elements are inside the array, and two of them have no byte in common.
-/

namespace StackCompiler.Ty

/-- The array of elements of that type that has these lengths, **the outermost first**. -/
def arrays (element : Ty) : List Int → Ty
  | [] => element
  | len :: lens => .array (element.arrays lens) len

/-- By how many bytes the element at these positions stands behind the start of the array. -/
def rowMajor (element : Ty) : List Int → List Int → Int
  | _ :: lens, i :: is => i * (element.arrays lens).size + element.rowMajor lens is
  | _, _ => 0

/-- Each position is one of the length that it is for. -/
abbrev Within (lens is : List Int) : Prop :=
  List.Forall₂ (fun len i => 0 ≤ i ∧ i < len) lens is

section Lengths

variable {element : Ty} {lens is is' : List Int} {len i : Int}

theorem arrays_concat : element.arrays (lens ++ [len]) = (array element len).arrays lens := by
  induction lens with
  | nil => rfl
  | cons _ lens ih => rw [List.cons_append, arrays, arrays, ih]

theorem rowMajor_concat (h : lens.length = is.length) :
    element.rowMajor (lens ++ [len]) (is ++ [i]) =
      (array element len).rowMajor lens is + i * element.size := by
  induction lens generalizing is with
  | nil =>
    obtain rfl := List.length_eq_zero_iff.mp h.symm
    exact Int.add_comm _ _
  | cons _ lens ih =>
    cases is with
    | nil => cases h
    | cons j is =>
      have h : lens.length = is.length := Nat.succ_inj.mp h
      rw [List.cons_append, List.cons_append, rowMajor, ih h, arrays_concat, rowMajor, Int.add_assoc]

theorem Proper.of_arrays (h : (element.arrays lens).Proper) : element.Proper := by
  induction lens with
  | nil => exact h
  | cons len lens ih => exact ih h.1

/-- **An array is as large as its elements together.** -/
theorem size_array (h : (array element len).Proper) : (array element len).size = element.size * len := by
  obtain ⟨n, hn⟩ := Option.isSome_iff_exists.mp h.2.2.2
  obtain ⟨m, hm, hfit⟩ := Option.bind_eq_some_iff.mp hn
  rw [size, hn, Option.getD_some, size, hm, Option.getD_some]
  exact (Word.fit?_eq_some_iff.mp hfit).2.symm

/-- **An element is inside the array.** -/
theorem rowMajor_bounds (h : (element.arrays lens).Proper) (his : Within lens is) :
    0 ≤ element.rowMajor lens is ∧
      element.rowMajor lens is + element.size ≤ (element.arrays lens).size := by
  induction his with
  | nil => exact ⟨le_rfl, (Int.zero_add _).le⟩
  | @cons len i lens is hi _ ih =>
    obtain ⟨hlow, hhigh⟩ := ih h.1
    have hrow := size_nonneg h.1
    rw [arrays, size_array h, rowMajor]
    constructor
    · nlinarith
    · nlinarith

/-- At other positions there is **another element**, which ends before the one starts or starts behind
its end. -/
theorem rowMajor_apart (h : (element.arrays lens).Proper) (his : Within lens is)
    (his' : Within lens is') (hne : is ≠ is') :
    element.rowMajor lens is + element.size ≤ element.rowMajor lens is' ∨
      element.rowMajor lens is' + element.size ≤ element.rowMajor lens is := by
  induction his generalizing is' with
  | nil =>
    cases his'
    exact absurd rfl hne
  | @cons len i lens is hi his ih =>
    cases his' with
    | @cons _ i' _ is' hi' his' =>
    obtain ⟨hlow, hhigh⟩ := rowMajor_bounds h.1 his
    obtain ⟨hlow', hhigh'⟩ := rowMajor_bounds h.1 his'
    have hrow := size_nonneg h.1
    rw [rowMajor, rowMajor]
    -- different rows are apart as a whole
    rcases lt_trichotomy i i' with hlt | rfl | hlt
    · exact .inl (by nlinarith)
    · rcases ih h.1 his' fun heq => hne (heq ▸ rfl) with hfirst | hfirst
      · exact .inl (by omega)
      · exact .inr (by omega)
    · exact .inr (by nlinarith)

end Lengths

/-- A row of three strings takes 48 bytes. -/
example : string.rowMajor [2, 3] [1, 2] = 80 := by decide

end StackCompiler.Ty
