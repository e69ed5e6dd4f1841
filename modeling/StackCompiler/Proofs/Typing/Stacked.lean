import Mathlib.Data.List.Perm.Basic
import StackCompiler.Proofs.Ty.Proper
import StackCompiler.Typing.Package

/-!
# Proofs/Typing/Stacked — slots one right above the other

A variable's slot is the bytes between its offset less its size, and its offset.  Variables are
`Stacked` from one byte to another if **every slot begins where the one before it ends**; then their
slots do not overlap, and every byte between the two ends is in one of them.
-/

namespace StackCompiler.Typing

/-- The slots of the variables do not overlap. -/
def Apart (v v' : Variable) : Prop :=
  v.offset + v'.ty.size ≤ v'.offset ∨ v'.offset + v.ty.size ≤ v.offset

/-- The slots of these variables take all bytes from `start` to `stop`, **in this order**: each
offset is the one before it and the size of the variable's type. -/
inductive Stacked (vars : List Variable) : Int → List VarId → Int → Prop
  | nil {start} : Stacked vars start [] start
  | cons {start stop id ids v} : vars[id]? = some v → v.ty.isResolved = true →
      v.offset = start + v.ty.size → Stacked vars v.offset ids stop →
      Stacked vars start (id :: ids) stop

/-- The bytes that the variables take **together**. -/
def extent (vars : List Variable) : List VarId → Int
  | [] => 0
  | id :: ids => (tyOf vars id).size + extent vars ids

theorem tyOf_eq {vars : List Variable} {id : VarId} {v : Variable} (hv : vars[id]? = some v) :
    tyOf vars id = v.ty := by
  rw [tyOf, hv]
  rfl

theorem extent_perm (vars : List Variable) {ids ids' : List VarId} (h : ids.Perm ids') :
    extent vars ids = extent vars ids' := by
  induction h with
  | nil => rfl
  | cons _ _ ih => rw [extent, extent, ih]
  | swap => simp only [extent]; omega
  | trans _ _ ih ih' => rw [ih, ih']

namespace Stacked

variable {vars : List Variable} {start stop : Int} {id id' : VarId} {ids : List VarId}
  {v v' : Variable}

/-- One more variable **on top**. -/
theorem concat (h : Stacked vars start ids stop) (hv : vars[id]? = some v)
    (hr : v.ty.isResolved = true) (ho : v.offset = stop + v.ty.size) :
    Stacked vars start (ids ++ [id]) v.offset := by
  induction h with
  | nil => exact .cons hv hr ho .nil
  | cons hw hrw how _ ih => exact .cons hw hrw how (ih ho)

/-- A stack ends **as far up** as its variables are large. -/
theorem eq_extent (h : Stacked vars start ids stop) : stop = start + extent vars ids := by
  induction h with
  | nil => exact (Int.add_zero _).symm
  | cons hv _ ho _ ih => rw [extent, tyOf_eq hv, ih, ho, Int.add_assoc]

/-- **Every byte** between the two ends is in a slot. -/
theorem exists_mem_slot (h : Stacked vars start ids stop) {b : Int} (hstart : start ≤ b)
    (hstop : b < stop) :
    ∃ id ∈ ids, ∃ v, vars[id]? = some v ∧ v.offset - v.ty.size ≤ b ∧ b < v.offset := by
  induction h with
  | nil => exact absurd hstart hstop.not_ge
  | @cons _ _ id _ v hv _ ho _ ih =>
    rcases lt_or_ge b v.offset with hb | hb
    · exact ⟨id, List.mem_cons_self, v, hv, by omega, hb⟩
    · obtain ⟨id', hid', h⟩ := ih hb hstop
      exact ⟨id', List.mem_cons_of_mem _ hid', h⟩

section Proper

variable (hproper : ∀ (id : VarId) (v : Variable), vars[id]? = some v → v.ty.Proper)
include hproper

theorem le (h : Stacked vars start ids stop) : start ≤ stop := by
  induction h with
  | nil => exact le_rfl
  | cons hv hr ho _ ih =>
    have := (Ty.size_bounds (hproper _ _ hv) hr).1
    omega

/-- A slot lies **between the two ends**, and takes at least a byte. -/
theorem bounds (h : Stacked vars start ids stop) (hid : id ∈ ids) (hv : vars[id]? = some v) :
    v.ty.isResolved = true ∧ 1 ≤ v.ty.size ∧ start + v.ty.size ≤ v.offset ∧ v.offset ≤ stop := by
  induction h with
  | nil => cases hid
  | cons hw hr ho hrest ih =>
    have hsize := (Ty.size_bounds (hproper _ _ hw) hr).1
    rcases List.mem_cons.mp hid with rfl | hid
    · cases hw.symm.trans hv
      exact ⟨hr, hsize, ho.ge, hrest.le hproper⟩
    · obtain ⟨h₁, h₂, h₃, h₄⟩ := ih hid
      exact ⟨h₁, h₂, by omega, h₄⟩

theorem nodup (h : Stacked vars start ids stop) : ids.Nodup := by
  induction h with
  | nil => exact List.nodup_nil
  | @cons _ _ id ids v hv _ _ hrest ih =>
    refine List.nodup_cons.mpr ⟨fun hid => ?_, ih⟩
    -- a variable above itself would have a slot above its own
    have := hrest.bounds hproper hid hv
    omega

/-- Slots of different variables **do not overlap**. -/
theorem apart (h : Stacked vars start ids stop) (hid : id ∈ ids) (hid' : id' ∈ ids)
    (hne : id ≠ id') (hv : vars[id]? = some v) (hv' : vars[id']? = some v') : Apart v v' := by
  induction h with
  | nil => cases hid
  | cons hw _ _ hrest ih =>
    rcases List.mem_cons.mp hid with rfl | hmem <;> rcases List.mem_cons.mp hid' with rfl | hmem'
    · exact absurd rfl hne
    · cases hw.symm.trans hv
      exact .inl (hrest.bounds hproper hmem' hv').2.2.1
    · cases hw.symm.trans hv'
      exact .inr (hrest.bounds hproper hmem hv).2.2.1
    · exact ih hmem hmem'

/-- Of two stacks with one start, the one **comes first in the other** if the other has all its
variables. -/
theorem prefix_of_subset {ids' : List VarId} {stop' : Int} (h : Stacked vars start ids stop)
    (h' : Stacked vars start ids' stop') (hsub : ids ⊆ ids') : ids <+: ids' := by
  induction h generalizing ids' with
  | nil => exact List.nil_prefix
  | @cons _ _ id ids v hv hr ho hrest ih =>
    cases h' with
    | nil => cases hsub List.mem_cons_self
    | @cons _ _ id' ids' v' hv' _ ho' hrest' =>
      have hsize := (Ty.size_bounds (hproper _ _ hv') ‹_›).1
      rcases List.mem_cons.mp (hsub List.mem_cons_self) with rfl | hmem
      · cases hv.symm.trans hv'
        refine (List.prefix_cons_inj id).mpr (ih hrest' fun i hi => ?_)
        rcases List.mem_cons.mp (hsub (List.mem_cons_of_mem _ hi)) with rfl | hi'
        · exact absurd (hrest.bounds hproper hi hv) (by omega)
        · exact hi'
      · -- the first slot would lie above another one
        have := (hrest'.bounds hproper hmem hv).2.2.1
        omega

end Proper

end Stacked

end StackCompiler.Typing
