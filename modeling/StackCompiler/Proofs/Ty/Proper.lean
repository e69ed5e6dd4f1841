import Mathlib.Tactic.Linarith
import StackCompiler.Ty.Basic

/-!
# Proofs/Ty/Proper — types whose sizes are sizes

A source can only declare arrays of a positive length whose size fits a word.  Such types are
**proper**, under pointers and in arrays as well, and all that typing makes of proper types is
proper again; a value of one takes at least a byte.
-/

namespace StackCompiler.Ty

/-- Every array in the type has a positive length, elements with a type, and a size. -/
def Proper : Ty → Prop
  | ptr base => base.Proper
  | array base len => base.Proper ∧ base.isResolved = true ∧ 0 < len ∧
      (array base len).checkedSize.isSome = true
  | _ => True

theorem proper_unknown : unknown.Proper :=
  trivial

theorem checkedSize_pos {t : Ty} (ht : t.Proper) (hr : t.isResolved = true) {n : Int}
    (hn : t.checkedSize = some n) : 1 ≤ n ∧ n ≤ Word.greatest := by
  induction t generalizing n with
  | unknown => cases hr
  | array base len ih =>
    obtain ⟨hb, hbr, hlen, -⟩ := ht
    obtain ⟨m, hm, hfit⟩ := Option.bind_eq_some_iff.mp hn
    obtain ⟨⟨-, hle⟩, rfl⟩ := Word.fit?_eq_some_iff.mp hfit
    have hm1 := (ih hb hbr hm).1
    exact ⟨by nlinarith, hle⟩
  | _ =>
    cases hn
    exact ⟨by decide, by decide⟩

/-- **A value of a proper type takes at least a byte**, and a number of bytes that fits a word. -/
theorem size_bounds {t : Ty} (ht : t.Proper) (hr : t.isResolved = true) :
    1 ≤ t.size ∧ t.size ≤ Word.greatest := by
  have hs : t.checkedSize.isSome = true := by
    cases t with
    | array base len => exact ht.2.2.2
    | _ => rfl
  obtain ⟨n, hn⟩ := Option.isSome_iff_exists.mp hs
  rw [size, hn]
  exact checkedSize_pos ht hr hn

theorem size_nonneg {t : Ty} (ht : t.Proper) : 0 ≤ t.size := by
  cases hr : t.isResolved with
  | true => exact Int.le_of_lt (size_bounds ht hr).1
  | false =>
    cases t with
    | unknown => exact le_rfl
    | _ => cases hr

/-- Only what has no type takes no words. -/
theorem isResolved_of_words_eq {t u : Ty} (h : t.words = u.words) (hu : u.isResolved = true) :
    t.isResolved = true := by
  refine isResolved_iff.mpr fun ht => isResolved_iff.mp hu (words_eq_zero_iff.mp ?_)
  rw [← h, ht]
  rfl

/-- What is neither a string nor without a type takes **one word**. -/
theorem words_eq_one {t : Ty} (hr : t.isResolved = true) (hs : t.isString = false) :
    t.words = 1 := by
  cases t with
  | unknown => cases hr
  | string => simp [isString, kind] at hs
  | _ => rfl

end StackCompiler.Ty
