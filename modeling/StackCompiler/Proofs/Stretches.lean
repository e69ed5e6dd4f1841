import Mathlib.Logic.Equiv.Basic

/-!
# Proofs/Stretches — two stretches change places

In a list two stretches that stand one behind the other may be put in the other order.  Numbers are given
out one after the other: where two things that take a stretch of numbers each come in the other order,
the numbers of the one are **shifted** by the length of the other, and back.
-/

namespace StackCompiler

/-! ## Lists -/

/-- A list, cut **before, between and behind two stretches** of it. -/
structure Parts (α : Type) where
  front : List α
  first : List α
  between : List α
  second : List α
  back : List α

namespace Parts

variable {α : Type} (parts : Parts α)

/-- The parts in their order. -/
def all : List α :=
  parts.front ++ (parts.first ++ (parts.between ++ (parts.second ++ parts.back)))

/-- The parts with **the second stretch before the first**. -/
def exchanged : Parts α :=
  { parts with first := parts.second, second := parts.first }

end Parts

/-! ## Numbers -/

/-- The numbers from `start` on make room for `count` more. -/
def shifted (start count i : Nat) : Nat :=
  if i < start then i else i + count

/-- Behind `start` the first stretch of numbers and the second one change places. -/
def exchanged (start first second i : Nat) : Nat :=
  if i < start then i
  else if i < start + first then i + second
  else if i < start + first + second then i - first
  else i

section Stretches

variable {start first second count i j : Nat}

theorem shifted_of_lt (h : i < start) : shifted start count i = i :=
  if_pos h

theorem shifted_of_le (h : start ≤ i) : shifted start count i = i + count :=
  if_neg (Nat.not_lt.mpr h)

/-- To change places again is to **be back**. -/
theorem exchanged_exchanged (start first second i : Nat) :
    exchanged start second first (exchanged start first second i) = i := by
  unfold exchanged
  split_ifs <;> omega

/-- Two stretches that change places, as a permutation. -/
def exchangePerm (start first second : Nat) : Equiv.Perm Nat where
  toFun := exchanged start first second
  invFun := exchanged start second first
  left_inv := exchanged_exchanged start first second
  right_inv := exchanged_exchanged start second first

/-- Up to the end of the first stretch the numbers are shifted by the length of the second. -/
theorem exchanged_eq_shifted (h : i < start + first) :
    exchanged start first second i = shifted start second i := by
  unfold exchanged shifted
  split_ifs <;> omega

/-- The second stretch is **where it would be** without the first one. -/
theorem exchanged_shifted (h : i < start + second) :
    exchanged start first second (shifted start first i) = i := by
  unfold exchanged shifted
  split_ifs <;> omega

end Stretches

end StackCompiler
