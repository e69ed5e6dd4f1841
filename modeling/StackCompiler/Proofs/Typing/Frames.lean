import StackCompiler.Compilation
import StackCompiler.Proofs.Typing.Package

/-!
# Proofs/Typing/Frames — where the locals of a function lie

The slots of a function's locals **tile** the lower part of its frame: every byte up to the bytes
that the locals take together is in one slot, and in one only.  The frame is that many bytes,
rounded up.  All this is true of the integers themselves: a program in which a sum does not fit a
word is refused.
-/

namespace StackCompiler

open Typing

/-! ## Functions that are laid out -/

/-- The locals of the function have types, and **tile** its frame. -/
structure Function.LaidOut (vars : List Variable) (f : Function) : Prop where
  locals : ∀ id ∈ f.locals, ∃ v, vars[id]? = some v ∧ v.ty.isResolved = true ∧ 0 < v.offset
  /-- In some order that the parameters are the first in, the offsets are the sums of the sizes up
  to there. -/
  stacked : ∃ order, order.Perm f.locals ∧ f.params <+: order ∧
    Stacked vars 0 order (extent vars f.locals)
  inside : ∀ id ∈ f.locals, ∀ v, vars[id]? = some v →
    0 ≤ v.offset - v.ty.size ∧ v.offset ≤ extent vars f.locals
  apart : ∀ id ∈ f.locals, ∀ id' ∈ f.locals, id ≠ id' →
    ∀ v v', vars[id]? = some v → vars[id']? = some v' → Apart v v'
  tiled : ∀ b, 0 ≤ b → b < extent vars f.locals →
    ∃ id ∈ f.locals, ∃ v, vars[id]? = some v ∧ v.offset - v.ty.size ≤ b ∧ b < v.offset
  /-- The frame is the least multiple of 16 that all slots fit into. -/
  frame : 16 ∣ f.frame ∧ extent vars f.locals ≤ f.frame ∧
    ∀ n, 16 ∣ n → extent vars f.locals ≤ n → f.frame ≤ n
  fits : f.frame ≤ Word.greatest

theorem Function.Typed.laidOut {vars : List Variable} {strings : Nat}
    {signatures : List Signature} {f : Function} (h : f.Typed vars strings signatures)
    (hproper : ∀ (id : VarId) (v : Variable), vars[id]? = some v → v.ty.Proper) :
    f.LaidOut vars := by
  obtain ⟨order, hperm, hparams, hstacked⟩ := h.stacked
  have hbounds {id : VarId} (hid : id ∈ f.locals) {v : Variable} (hv : vars[id]? = some v) :=
    hstacked.bounds hproper (hperm.symm.subset hid) hv
  have hle : extent vars f.locals ≤ f.frame := by
    rcases eq_or_lt_of_le (hstacked.le hproper) with h₀ | hpos
    · exact h₀ ▸ h.frame.2.1
    -- the last byte below the end of the stack is in a slot, which is inside the frame
    · obtain ⟨id, hid, v, hv, -, hb⟩ :=
        hstacked.exists_mem_slot (b := extent vars f.locals - 1) (by omega) (by omega)
      obtain ⟨w, hw, -, -, -, -, hoffset⟩ := h.locals id (hperm.subset hid)
      cases hv.symm.trans hw
      omega
  refine ⟨fun id hid => ?_, ⟨order, hperm, hparams, hstacked⟩, fun id hid v hv => ?_, h.apart,
    fun b hb hb' => ?_, ⟨h.frame.1, hle, fun n hdvd hn => ?_⟩, h.frame.2.2⟩
  · obtain ⟨v, hv, -, hr, hp, hsize, -⟩ := h.locals id hid
    have := (Ty.size_bounds hp hr).1
    exact ⟨v, hv, hr, by omega⟩
  · obtain ⟨-, -, h₁, h₂⟩ := hbounds hid hv
    exact ⟨by omega, h₂⟩
  · obtain ⟨id, hid, hslot⟩ := hstacked.exists_mem_slot hb hb'
    exact ⟨id, hperm.subset hid, hslot⟩
  · have hlt := h.frame_lt
    have hdvd' := h.frame.1
    omega

/-! ## Frames that are too large -/

section Extent

variable {vars vars' : List Variable} {ids ids' : List VarId}

theorem extent_mono (h : ∀ id ∈ ids, (tyOf vars id).size ≤ (tyOf vars' id).size) :
    extent vars ids ≤ extent vars' ids := by
  induction ids with
  | nil => exact le_rfl
  | cons id ids ih =>
    have := h id List.mem_cons_self
    have := ih fun id hid => h id (List.mem_cons_of_mem _ hid)
    simp only [extent]
    omega

/-- More variables take **no fewer bytes**. -/
theorem extent_le_of_sublist (hpos : ∀ id ∈ ids', 0 ≤ (tyOf vars id).size)
    (h : ids.Sublist ids') : extent vars ids ≤ extent vars ids' := by
  induction h with
  | slnil => exact le_rfl
  | cons id _ ih =>
    have := hpos id List.mem_cons_self
    have := ih fun id hid => hpos id (List.mem_cons_of_mem _ hid)
    simp only [extent]
    omega
  | cons_cons id _ ih =>
    have := ih fun id hid => hpos id (List.mem_cons_of_mem _ hid)
    simp only [extent]
    omega

/-- A type that is filled in takes **no fewer bytes** than the one that was there. -/
theorem Typing.Fills.size_le {own : VarId → Prop} (hf : Fills own vars vars')
    (hproper : ∀ (id : VarId) (v : Variable), vars'[id]? = some v → v.ty.Proper) {id : VarId} :
    (tyOf vars id).size ≤ (tyOf vars' id).size := by
  cases hv : vars[id]? with
  | none =>
    have hv' : vars'[id]? = none := by
      rw [List.getElem?_eq_none_iff] at hv ⊢
      exact hf.length ▸ hv
    rw [tyOf, tyOf, hv, hv']
  | some v =>
    obtain ⟨v', hv', hfill⟩ := hf.at_number hv
    rw [tyOf_eq hv, tyOf_eq hv']
    cases hr : v.ty.isResolved with
    | true => rw [hfill.ty hr]
    | false =>
      have hunknown : v.ty = .unknown := by
        by_contra h
        rw [Ty.isResolved_iff.mpr h] at hr
        cases hr
      rw [hunknown]
      exact Ty.size_nonneg (hproper id v' hv')

end Extent

theorem exists_of_forall₂ {α β : Type} {R : α → β → Prop} {as : List α} {bs : List β}
    (h : List.Forall₂ R as bs) {a : α} (ha : a ∈ as) : ∃ b ∈ bs, R a b := by
  induction h with
  | nil => cases ha
  | cons hab _ ih =>
    rcases List.mem_cons.mp ha with rfl | ha
    · exact ⟨_, List.mem_cons_self, hab⟩
    · obtain ⟨b, hb, h⟩ := ih ha
      exact ⟨b, List.mem_cons_of_mem _ hb, h⟩

/-- Where a program is resolved, the types that were written in a function **fit a frame**. -/
theorem Program.Resolved.extent_le {p p' : Program} (h : p.Resolved p') {f : Function}
    (hf : f ∈ p.funcs) {ids : List VarId} (hnodup : ids.Nodup) (hids : ids ⊆ f.locals) :
    ∃ f' ∈ p'.funcs, extent p.vars ids ≤ f'.frame := by
  obtain ⟨f', hf', hhead⟩ := exists_of_forall₂ h.heads hf
  obtain ⟨order, hperm, hsub⟩ := List.subperm_of_subset hnodup hids
  refine ⟨f', hf', ?_⟩
  calc extent p.vars ids = extent p.vars order := (extent_perm _ hperm).symm
    _ ≤ extent p'.vars order := extent_mono fun _ _ => h.fills.size_le h.typed.proper
    _ ≤ extent p'.vars f'.locals := by
      rw [hhead.locals]
      refine extent_le_of_sublist (fun id _ => ?_) hsub
      cases hv : p'.vars[id]? with
      | none => rw [tyOf, hv]; exact le_rfl
      | some v => rw [tyOf_eq hv]; exact Ty.size_nonneg (h.typed.proper id v hv)
    _ ≤ f'.frame := ((h.typed.funcs f' hf').laidOut h.typed.proper).frame.2.1

/-! ## Programs -/

/-- A string and a byte as parameters, a local without a written type, and an array. -/
def textOfFrame : String :=
  "package p func f(s string, b byte) { x := s; var a [3]int; a[0] = 1 } func main() { }"

/-- Two arrays, of which only the first fits a word beside the other. -/
def textOfLargeFrame : String :=
  "package p func main() { var a [1152921504606846975]int; var b [9]int }"

end StackCompiler
