import StackCompiler.Proofs.Grammar.Globals
import StackCompiler.Proofs.Typing.Binding
import StackCompiler.Proofs.Typing.Frames
import StackCompiler.Proofs.Typing.Numbered

/-!
# Proofs/Typing/Fixed — package-level variables have types before functions are typed

The implicit function comes first, and gives a value to every package-level variable that lacks a
type.  So once it has been typed they **all have types**: what a later function does with them
changes nothing for the functions after it.
-/

namespace StackCompiler

open Typing

theorem ReadInTurn.exists_split {vars : List Variable} {strings last : Nat} {fs fs' : List Function} :
    ∀ {first : Nat}, ReadInTurn vars strings first (fs ++ fs') last →
      ∃ middle, ReadInTurn vars strings first fs middle ∧ ReadInTurn vars strings middle fs' last := by
  induction fs with
  | nil => exact fun {first} h => ⟨first, .nil le_rfl, h⟩
  | cons f fs ih =>
    intro first h
    cases h with
    | cons hle hle' hf hfs =>
    obtain ⟨middle, hfs, hfs'⟩ := ih hfs
    exact ⟨middle, .cons hle hle' hf hfs, hfs'⟩

namespace Typing

variable {vars names : List Variable} {strings : Nat} {s : Surroundings} {own : VarId → Prop}
  {signatures : List Signature}

theorem bindable_of_readRule {e : Expr} (h : e.ReadRule vars strings own) :
    Bindable names s (s.Refers names) e := by
  cases e with
  | num => trivial
  | str => exact h.1 ▸ rfl
  | var id ty loc => exact ⟨h.1 ▸ rfl, fun _ hid => hid⟩
  | addr => exact h.1 ▸ rfl
  | deref | binary | index | call => exact h ▸ rfl

/-- A variable that was given a value **has a type**, once the statement has been typed. -/
theorem resolved_of_initializes {id : VarId} {st st' : Stmt} (hinit : st.Initializes id)
    (hst : st.Rebound (s.Refers names) st') (htyped : TypedStmt own vars strings signatures st')
    {v : Variable} (hv : names[id]? = some v) (hdeclared : v.isPlaceholder = false) :
    ∃ u, vars[id]? = some u ∧ u.ty.isResolved = true := by
  obtain ⟨value, loc, loc', rfl⟩ := hinit
  cases hst with
  | assign htargets hvalues =>
  obtain ⟨target', _, htarget, hnil, rfl⟩ := List.forall₂_cons_left_iff.mp htargets
  obtain ⟨value', _, -, hnil', rfl⟩ := List.forall₂_cons_left_iff.mp hvalues
  cases hnil
  cases hnil'
  cases htarget with
  | @var _ id' _ ty' _ hid =>
  -- what is declared is bound to itself
  obtain rfl : id' = id := by
    obtain ⟨w, hw, ⟨hp, -⟩ | ⟨-, heq⟩⟩ := hid
    · cases hv.symm.trans hw
      rw [hdeclared] at hp
      cases hp
    · exact heq
  cases htyped with
  | assign hfits ht _ =>
  obtain ⟨hfit, -⟩ := List.forall₂_cons.mp hfits
  have hwords : ty'.words = value'.ty.words := hfit.words
  have hr : ty'.isResolved = true := by
    refine Ty.isResolved_iff.mpr fun hunknown => ?_
    rw [hunknown] at hwords
    exact Ty.isResolved_iff.mp hfit.resolved (Ty.words_eq_zero_iff.mp hwords.symm)
  obtain ⟨⟨u, hu, -⟩, hty⟩ := (ht _ List.mem_cons_self).here
  exact ⟨u, hu, (hty u hu).2 hr ▸ hr⟩

end Typing

section Programs

variable {p : Program}

/-- **The implicit function fixes the types of all package-level variables.** -/
theorem Program.Read.fixed (hread : p.Read) (hinit : p.Initialized) {entry : Function}
    {before after fs : List Function} (hfuncs : p.funcs = entry :: before ++ after) {slots : Slots}
    (hrun : ((entry :: before).mapM (typedFunction p.globals p.signatures)).run ⟨p.vars, 0⟩ =
      .ok (fs, slots)) :
    (∀ id ∈ p.globals, Fixed slots.vars id) ∧ Fills (fun _ => True) p.vars slots.vars := by
  have hall : ∀ f ∈ entry :: before, f ∈ p.funcs := fun f hf =>
    hfuncs ▸ List.mem_append_left after hf
  obtain ⟨middle, hfirst, -⟩ := (hfuncs ▸ hread.funcs).exists_split
  have houtcome : Ensures ((entry :: before).mapM (typedFunction p.globals p.signatures))
      ⟨p.vars, 0⟩ _ :=
    (typedFunctions_outcome p.signatures hfirst hread.globals
      (fun id v hv => hread.proper v (List.mem_of_getElem? hv))
      fun id v _ hv => hread.slotless v (List.mem_of_getElem? hv)).1
  obtain ⟨hfills, -, -, htyped⟩ := houtcome fs slots hrun
  refine ⟨fun id hid => ?_, hfills⟩
  obtain ⟨v, hv, hglobal, hdeclared⟩ := hread.globals id hid
  obtain ⟨u, hu, hfill⟩ := hfills.at_number hv
  suffices hr : u.ty.isResolved = true from ⟨u, hu, hfill.isLocal.trans hglobal, hr⟩
  obtain ⟨_, _, hentry, hinit⟩ := hinit
  obtain ⟨rfl, -⟩ := List.cons.inj (hfuncs.symm.trans hentry)
  rcases hinit id hid with ⟨w, hw, hr⟩ | ⟨st, hst, hst'⟩
  · cases hv.symm.trans hw
    exact hfill.ty hr ▸ hr
  have hbodies := keepsNames_mapM (R := fun f f' : Function => List.Forall₂
      (Stmt.Rebound (Surroundings.Refers ⟨f.locals, p.globals, p.signatures⟩ p.vars)) f.body f'.body)
    (entry :: before) (fun f hf => keepsNames_typedFunction (hread.declares (hall f hf))
      fun st hst => by
        obtain ⟨_, _, hfread⟩ := hread.funcs.exists_read (hall f hf)
        exact (hfread.body st hst).mono (fun _ => bindable_of_readRule) fun _ _ => trivial)
    ⟨p.vars, 0⟩ (fun _ => rfl) fs slots hrun
  obtain ⟨entry', hentry', hbody⟩ := exists_of_forall₂ hbodies.2 List.mem_cons_self
  obtain ⟨st', hst₁, hrebound⟩ := exists_of_forall₂ hbody hst
  obtain ⟨u', hu', hr⟩ := resolved_of_initializes hst' hrebound ((htyped entry' hentry').body st' hst₁)
    hv hdeclared
  cases hu.symm.trans hu'
  exact hr

end Programs

end StackCompiler
