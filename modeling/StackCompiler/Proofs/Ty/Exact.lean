import Mathlib.Algebra.BigOperators.Group.List.Basic
import StackCompiler.Proofs.Ty.Proper

/-!
# Proofs/Ty/Exact — sizes without a limit

An array of arrays is as large as the lengths of all of them together, times what it holds in the end:
**a number that need not fit a word** (`exactSize`).  In a proper type it fits one at every level, so
that the size which is computed is the size there is, under pointers as well (`Proper.measured`).
-/

namespace StackCompiler.Ty

/-- The bytes of a value that is no array. -/
def width : Ty → Int
  | bool | int8 => 1
  | int32 | int | ptr _ => 8
  | string => 16
  | unknown | array _ _ => 0

/-- What an array of arrays holds **in the end**. -/
def element : Ty → Ty
  | array base _ => base.element
  | t => t

/-- The lengths of an array of arrays, the outermost first. -/
def lengths : Ty → List Int
  | array base len => len :: base.lengths
  | _ => []

/-- The bytes of a value in memory, **however many** they are. -/
def exactSize (t : Ty) : Int :=
  t.element.width * t.lengths.prod

/-- The type itself, and what it points at or holds, and so on. -/
def components : Ty → List Ty
  | ptr base => .ptr base :: base.components
  | array base len => .array base len :: base.components
  | t => [t]

/-- The size that is computed is **the size there is**: at least a byte, and a number that fits a
word. -/
structure HasExactSize (t : Ty) : Prop where
  checkedSize_eq : t.checkedSize = some t.exactSize
  size_eq : t.size = t.exactSize
  pos : 1 ≤ t.exactSize
  le : t.exactSize ≤ Word.greatest

/-- All that the type is built from has its exact size, if it is a type at all. -/
def Measured (t : Ty) : Prop :=
  ∀ c ∈ t.components, c ≠ unknown → c.HasExactSize

variable {t c base : Ty} {len : Int}

theorem exactSize_array : (array base len).exactSize = base.exactSize * len := by
  rw [exactSize, element, lengths, List.prod_cons, mul_comm len, ← mul_assoc]
  rfl

/-- **No step on the way to the size of a proper type leaves the word.** -/
theorem Proper.checkedSize_eq (ht : t.Proper) (hr : t.isResolved = true) :
    t.checkedSize = some t.exactSize := by
  induction t with
  | unknown => cases hr
  | array base len ih =>
    obtain ⟨hbase, hresolved, -, hsize⟩ := ht
    obtain ⟨n, hn⟩ := Option.isSome_iff_exists.mp hsize
    obtain ⟨m, hm, hfit⟩ := Option.bind_eq_some_iff.mp hn
    obtain rfl := Option.some.inj (hm.symm.trans (ih hbase hresolved))
    obtain ⟨-, rfl⟩ := Word.fit?_eq_some_iff.mp hfit
    rw [hn, exactSize_array]
  | _ => rfl

theorem Proper.hasExactSize (ht : t.Proper) (hr : t.isResolved = true) : t.HasExactSize := by
  have hsize := ht.checkedSize_eq hr
  obtain ⟨hpos, hle⟩ := checkedSize_pos ht hr hsize
  exact ⟨hsize, by rw [size, hsize, Option.getD_some], hpos, hle⟩

/-- What a proper type is built from **is proper**. -/
theorem Proper.of_mem_components (ht : t.Proper) (hc : c ∈ t.components) : c.Proper := by
  induction t with
  | ptr base ih =>
    rcases List.mem_cons.mp hc with rfl | hc
    · exact ht
    · exact ih ht hc
  | array base len ih =>
    rcases List.mem_cons.mp hc with rfl | hc
    · exact ht
    · exact ih ht.1 hc
  | _ =>
    obtain rfl := List.mem_singleton.mp hc
    exact ht

/-- **A proper type has its exact size**, and so has all that it is built from. -/
theorem Proper.measured (ht : t.Proper) : t.Measured := fun _ hc hne =>
  (ht.of_mem_components hc).hasExactSize (isResolved_iff.mpr hne)

/-- Two rows of three strings take 96 bytes. -/
example : (array (array string 3) 2).exactSize = 96 := by decide

end StackCompiler.Ty
