import Mathlib.Data.List.Forall2
import StackCompiler.Proofs.Typing.Refusals
import StackCompiler.Typing.Statements

/-!
# Proofs/Typing/Statements — what typing makes of a body

Each pair of an assignment **fits**: its target is a place, and takes as many words as its value
has.  All that typing does on the way is to fill in the arena, so what was typed before stays typed;
and a body that is not typed is refused (`Lays`).
-/

namespace StackCompiler

open Typing

/-! ## The rule of a typed statement -/

/-- The value can be stored in the target. -/
structure Fitting (target value : Expr) : Prop where
  isLvalue : target.isLvalue = true
  noArray : target.ty.isArray = false
  resolved : value.ty.isResolved = true
  words : target.ty.words = value.ty.words

theorem Fitting.resolved_of_mem {targets values : List Expr}
    (h : List.Forall₂ Fitting targets values) {value : Expr} (hv : value ∈ values) :
    value.ty.isResolved = true := by
  induction h with
  | nil => cases hv
  | cons hfit _ ih =>
    rcases List.mem_cons.mp hv with rfl | hv
    · exact hfit.resolved
    · exact ih hv

/-- What holds of a statement that has been typed. -/
def Stmt.TypedRule : Stmt → Prop
  | .assign targets values _ => List.Forall₂ Fitting targets values
  | _ => True

namespace Typing

variable {own own' : VarId → Prop} {strings : Nat} {s : Surroundings} {slots slots' : Slots}
  {vars vars' : List Variable} {signatures : List Signature}

/-- The statement is a typed tree. -/
abbrev TypedStmt (own : VarId → Prop) (vars : List Variable) (strings : Nat)
    (signatures : List Signature) (st : Stmt) : Prop :=
  st.Everywhere (Expr.TypedRule vars strings signatures own) Stmt.TypedRule

/-- The expression is a tree that has been read. -/
abbrev Untyped (own : VarId → Prop) (vars : List Variable) (strings : Nat) (e : Expr) : Prop :=
  e.Everywhere (Expr.ReadRule vars strings own)

theorem Fills.typed (hf : Fills own' vars vars') {e : Expr}
    (h : Typed own vars strings signatures e) : Typed own vars' strings signatures e :=
  h.mono (Expr.TypedRule.fills hf)

theorem Fills.untyped (hf : Fills own' vars vars') {e : Expr} (h : Untyped own vars strings e) :
    Untyped own vars' strings e :=
  h.mono (Expr.ReadRule.fills hf)

theorem Fills.typedStmt (hf : Fills own' vars vars') {st : Stmt}
    (h : TypedStmt own vars strings signatures st) : TypedStmt own vars' strings signatures st :=
  h.mono (Expr.TypedRule.fills hf) fun _ h => h

/-! ## Expressions in a body -/

/-- The step fits the walk over a body with these surroundings: `Q` holds of its result, and if it
has none **the source is refused**. -/
def Lays (own : VarId → Prop) (s : Surroundings) (slots : Slots) {α : Type} (x : Layout α)
    (Q : α → Slots → Prop) : Prop :=
  slots.Sound own → s.Sound own slots.vars →
    Ensures x slots (Laid own slots Q) ∧ Fails x slots (Refusal own slots.vars)

section Steps

variable {α β : Type} {Q Q' : α → Slots → Prop} {R : β → Slots → Prop}

theorem Lays.mono {x : Layout α} (h : Lays own s slots x Q) (hQ : ∀ a slots', Q a slots' →
    Q' a slots') : Lays own s slots x Q' :=
  fun hslots hs => ⟨(h hslots hs).1.mono fun _ _ => Course.Kept.mono hQ, (h hslots hs).2⟩

/-- One step after the other, **in the same surroundings**. -/
theorem Lays.bind {x : Layout α} {f : α → Layout β} (hx : Lays own s slots x Q)
    (hf : ∀ a slots', Fills own slots.vars slots'.vars → Q a slots' →
      Lays own s slots' (f a) R) : Lays own s slots (x >>= f) R := by
  intro hslots hs
  obtain ⟨hensures, hfails⟩ := hx hslots hs
  refine ⟨Course.andThen (c := course own) hensures fun a slots' hslots' hfills hq =>
    (hf a slots' hfills hq hslots' (hs.fills hfills)).1, (fails_bind _ _ _ _).mpr ⟨hfails, ?_⟩⟩
  exact hensures.mono fun a slots' ⟨hslots', hfills, hq⟩ =>
    (hf a slots' hfills hq hslots' (hs.fills hfills)).2.mono fun _ => Refusal.mono hfills

theorem lays_pure {a : α} (ha : Q a slots) : Lays own s slots (pure a) Q :=
  fun hslots _ => ⟨Course.kept_pure (c := course own) hslots ha, fails_pure _ _ _⟩

theorem lays_lift {x : Except Failure α} {P : α → Prop} (hx : s.Sound own slots.vars → Yields x P)
    (herrs : s.Sound own slots.vars → Errs x (Refusal own slots.vars))
    (hQ : ∀ a, P a → Q a slots) : Lays own s slots (liftM x) Q :=
  fun hslots hs => ⟨(ensures_lift x slots _).mpr <|
    (hx hs).mono fun a ha => ⟨hslots, .refl _, hQ a ha⟩, (fails_lift _ _ _).mpr (herrs hs)⟩

theorem lays_refuse {cause : Cause} {loc : Nat}
    (h : ∀ vars : List Variable,
      Errs (refuse cause loc : Except Failure α) (Refusal own vars)) :
    Lays own s slots (liftM (refuse cause loc : Except Failure α)) Q :=
  fun _ _ => ⟨ensures_refuse _ _, (fails_lift _ _ _).mpr (h slots.vars)⟩

/-- What has been refused **stays refused**. -/
theorem lays_refuse_bind {cause : Cause} {loc : Nat} (f : α → Layout β)
    (h : ∀ vars : List Variable,
      Errs (refuse cause loc : Except Failure α) (Refusal own vars)) :
    Lays own s slots (liftM (refuse cause loc : Except Failure α) >>= f) R :=
  (lays_refuse h (Q := fun _ _ => False)).bind fun _ _ _ => False.elim

/-- A step that starts by looking at the slots. -/
theorem lays_get {f : Slots → Layout α} (h : Lays own s slots (f slots) Q) :
    Lays own s slots (get >>= f) Q :=
  fun hslots hs => ⟨(ensures_bind _ _ _ _).mpr ((ensures_get _ _).mpr (h hslots hs).1),
    (fails_bind _ _ _ _).mpr ⟨fails_get _ _, (ensures_get _ _).mpr (h hslots hs).2⟩⟩

theorem lays_mapM {f : α → Layout β} (hR : ∀ {b slots slots'}, Fills own slots.vars slots'.vars →
      R b slots → R b slots') : ∀ (as : List α) {slots : Slots},
    (∀ a ∈ as, ∀ slots', Fills own slots.vars slots'.vars → Lays own s slots' (f a) R) →
    Lays own s slots (as.mapM f) fun bs slots' => ∀ b ∈ bs, R b slots'
  | [], _, _ => by
    rw [List.mapM_nil]
    exact lays_pure nofun
  | a :: as, _, hf => by
    rw [List.mapM_cons]
    refine (hf a List.mem_cons_self _ (.refl _)).bind fun b slots₁ hfills₁ hb => ?_
    refine (lays_mapM hR as fun a' ha slots' hfills =>
      hf a' (List.mem_cons_of_mem a ha) slots' (hfills₁.trans hfills)).bind
      fun bs slots₂ hfills₂ hbs => lays_pure ?_
    exact List.forall_mem_cons.mpr ⟨hR hfills₂ hb, hbs⟩

/-- What may be missing is typed **if it is there**. -/
theorem lays_optional {f : α → Layout β} (a : Option α)
    (hf : ∀ b ∈ a, Lays own s slots (f b) R) :
    Lays own s slots (a.mapM f) fun b? slots' => ∀ b ∈ b?, R b slots' := by
  cases a with
  | none => exact lays_pure nofun
  | some a =>
    refine (hf a rfl).bind fun b slots' _ hb => lays_pure fun c hc => ?_
    cases hc
    exact hb

theorem lays_typedHere {e : Expr} (he : Untyped own slots.vars strings e) :
    Lays own s slots (typedHere s e) fun e' slots' =>
      TypedFrom own slots'.vars strings s.signatures e e' :=
  lays_get (lays_lift (fun hs => yields_typed hs he) (fun hs => errs_typed hs he) fun _ h => h)

end Steps

theorem lays_typedOptional {value : Option Expr}
    (h : ∀ e ∈ value, Untyped own slots.vars strings e) :
    Lays own s slots (value.mapM (typedHere s)) fun value' slots' =>
      ∀ e ∈ value', Typed own slots'.vars strings s.signatures e :=
  lays_optional value fun e he => (lays_typedHere (h e he)).mono fun _ _ h => h.1

theorem lays_typedEach {es : List Expr} (h : ∀ e ∈ es, Untyped own slots.vars strings e) :
    Lays own s slots (es.mapM (typedHere s)) fun es' slots' =>
      ∀ e ∈ es', Typed own slots'.vars strings s.signatures e :=
  lays_mapM (R := fun e slots => Typed own slots.vars strings s.signatures e)
    (fun hfills he => hfills.typed he) es fun e he _ hfills =>
      (lays_typedHere (hfills.untyped (h e he))).mono fun _ _ h => h.1

/-! ## Assignments -/

/-- What becomes of a target when it gets its value's type. -/
theorem lays_inferred {target : Expr} {ty : Ty} (ht : Untyped own slots.vars strings target)
    (hty : ty.Proper) (hr : ty.isResolved = true) :
    Lays own s slots (inferred s target ty) fun target' slots' =>
      Untyped own slots'.vars strings target' ∧
        (target.isLvalue = true → target'.isLvalue = true) := by
  cases target with
  | var id t loc =>
    cases ht with
    | var h =>
    refine lays_get ((lays_lift (Q := fun bound slots => IsDeclared slots.vars own bound)
      (fun hs => yields_bound hs h.2 loc) (fun _ => errs_bound h.2 loc) fun _ h => h).bind
      fun bound slots₁ hfills₁ hbound => ?_)
    refine Lays.bind (Q := fun _ _ => True) (fun hslots _ => ⟨(keeps_giveType hslots hty hr).mono
      fun _ _ => Course.Kept.mono fun _ _ _ => trivial, fails_giveType bound ty _⟩)
      fun _ slots₂ hfills₂ _ => lays_pure ?_
    exact ⟨.var ⟨h.1, hbound.inArena.fills hfills₂⟩, fun h => h⟩
  | _ => exact lays_pure ⟨ht, fun h => h⟩

theorem yields_checkStore (target value : Expr) :
    Yields (checkStore target value) fun _ =>
      target.ty.isArray = false ∧ target.ty.words = value.ty.words := by
  unfold checkStore
  split
  · exact yields_error _ _
  · next harray =>
    split
    · exact yields_error _ _
    · next hwords => exact (yields_pure _ _).mpr ⟨by simpa using harray, not_not.mp hwords⟩

/-- A declared local of the body's own gets its slot, **if it fits**. -/
theorem lays_place {id : VarId} {v : Variable} (hv : slots.vars[id]? = some v)
    (hid : v.isLocal = true → own id ∧ v.isPlaceholder = false) :
    Lays own s slots (place id) fun _ slots' =>
      ∀ v, slots'.vars[id]? = some v → v.isLocal = true → v.offset ≠ 0 :=
  fun hslots _ => ⟨keeps_place hslots fun w hw hl => by cases hv.symm.trans hw; exact hid hl,
    fails_place hslots hv hid⟩

/-- The pair is typed and its value **fits** its target. -/
def PairTyped (own : VarId → Prop) (strings : Nat) (signatures : List Signature)
    (pair : Expr × Expr) (slots : Slots) : Prop :=
  Typed own slots.vars strings signatures pair.1 ∧ Typed own slots.vars strings signatures pair.2 ∧
    Fitting pair.1 pair.2

theorem errs_checkStore (target value : Expr) :
    Errs (checkStore target value) (Refusal own vars) := by
  unfold checkStore
  split
  · exact errs_refuse target.loc rfl
  split
  · exact errs_refuse value.loc rfl
  · exact errs_pure _ _

theorem lays_typedPair {target value : Expr} (ht : Untyped own slots.vars strings target)
    (hv : Untyped own slots.vars strings value) (hplace : target.isLvalue = true) :
    Lays own s slots (typedPair s (target, value)) (PairTyped own strings s.signatures) := by
  unfold typedPair
  refine (lays_typedHere hv).bind fun value' slots₁ hfills₁ hvalue => ?_
  dsimp only
  split
  · exact lays_refuse_bind _ fun _ => errs_refuse value'.loc rfl
  next hresolved =>
  replace hresolved : value'.ty.isResolved = true := by simpa using hresolved
  intro hslots₁ hs₁
  refine ((lays_inferred (hfills₁.untyped ht) (hvalue.1.proper hslots₁.proper) hresolved).bind
    fun target' slots₂ hfills₂ htarget' => ?_) hslots₁ hs₁
  refine (lays_typedHere htarget'.1).bind fun target'' slots₃ hfills₃ htarget => ?_
  refine (lays_lift (Q := fun _ _ => target''.ty.isArray = false ∧
    target''.ty.words = value'.ty.words) (fun _ => yields_checkStore target'' value')
    (fun _ => errs_checkStore target'' value') fun _ h => h).bind fun _ slots₄ hfills₄ hcheck => ?_
  have htyped : PairTyped own strings s.signatures (target'', value') slots₄ :=
    ⟨hfills₄.typed htarget.1, (hfills₂.trans (hfills₃.trans hfills₄)).typed hvalue.1,
      htarget.2 (htarget'.2 hplace), hcheck.1, hresolved, hcheck.2⟩
  have hend {slots : Slots} (hfills : Fills own slots₄.vars slots.vars) :
      Lays own s slots (pure (target'', value')) (PairTyped own strings s.signatures) :=
    lays_pure ⟨hfills.typed htyped.1, hfills.typed htyped.2.1, htyped.2.2⟩
  split
  · next id hroot =>
    obtain ⟨v, hv, hown, hdeclared⟩ := htyped.1.root_declared hroot
    exact (lays_place hv fun hl => ⟨hown hl, hdeclared⟩).bind fun _ slots₅ hfills₅ _ => hend hfills₅
  · exact hend (.refl _)

theorem lays_typedAssignment {targets values : List Expr} {loc : Nat}
    (ht : ∀ e ∈ targets, Untyped own slots.vars strings e)
    (hv : ∀ e ∈ values, Untyped own slots.vars strings e)
    (hplace : ∀ target ∈ targets, target.isLvalue = true) :
    Lays own s slots (typedAssignment s targets values loc) fun st slots' =>
      TypedStmt own slots'.vars strings s.signatures st := by
  unfold typedAssignment
  dsimp only
  split
  · exact lays_refuse_bind _ fun _ => errs_refuse loc rfl
  refine (lays_mapM (R := PairTyped own strings s.signatures)
    (fun hfills h => ⟨hfills.typed h.1, hfills.typed h.2.1, h.2.2⟩) (targets.zip values)
    fun ⟨target, value⟩ hmem slots' hfills => ?_).bind fun pairs slots' _ hpairs => lays_pure ?_
  · obtain ⟨hmt, hmv⟩ := List.of_mem_zip hmem
    exact lays_typedPair (hfills.untyped (ht target hmt)) (hfills.untyped (hv value hmv))
      (hplace target hmt)
  · refine .assign ?_ (fun e he => ?_) (fun e he => ?_)
    · exact List.forall₂_map_left_iff.mpr (List.forall₂_map_right_iff.mpr
        (List.forall₂_same.mpr fun pair hpair => (hpairs pair hpair).2.2))
    · obtain ⟨pair, hpair, rfl⟩ := List.mem_map.mp he
      exact (hpairs pair hpair).1
    · obtain ⟨pair, hpair, rfl⟩ := List.mem_map.mp he
      exact (hpairs pair hpair).2.1

/-! ## Bodies -/

/-- The statement is a tree that has been read. -/
abbrev UntypedStmt (own : VarId → Prop) (vars : List Variable) (strings : Nat) (st : Stmt) : Prop :=
  st.Everywhere (Expr.ReadRule vars strings own) Stmt.ReadRule

theorem Fills.untypedStmt (hf : Fills own' vars vars') {st : Stmt}
    (h : UntypedStmt own vars strings st) : UntypedStmt own vars' strings st :=
  h.mono (Expr.ReadRule.fills hf) fun _ h => h

/-- Statements are typed **one after the other**. -/
theorem lays_typedStmts : ∀ (stmts : List Stmt) {slots : Slots},
    (∀ st ∈ stmts, ∀ slots', Fills own slots.vars slots'.vars →
      Lays own s slots' (typedStmt s st) fun st' slots'' =>
        TypedStmt own slots''.vars strings s.signatures st') →
    Lays own s slots (typedStmts s stmts) fun stmts' slots' =>
      ∀ st ∈ stmts', TypedStmt own slots'.vars strings s.signatures st
  | [], _, _ => lays_pure nofun
  | st :: stmts, slots, h => by
    rw [typedStmts]
    refine (h st List.mem_cons_self slots (.refl _)).bind fun st' slots₁ hfills₁ hst => ?_
    refine (lays_typedStmts stmts fun st hst slots' hfills =>
      h st (List.mem_cons_of_mem _ hst) slots' (hfills₁.trans hfills)).bind
      fun stmts' slots₂ hfills₂ hstmts => lays_pure ?_
    exact List.forall_mem_cons.mpr ⟨hfills₂.typedStmt hst, hstmts⟩

/-- **Typing makes a typed tree of a statement that has been read.** -/
theorem lays_typedStmt (st : Stmt) : ∀ {slots : Slots}, UntypedStmt own slots.vars strings st →
    Lays own s slots (typedStmt s st) fun st' slots' =>
      TypedStmt own slots'.vars strings s.signatures st' := by
  induction st with
  | expr value =>
    intro slots h
    cases h with
    | expr _ he =>
    rw [typedStmt]
    exact (lays_typedHere he).bind fun value' _ _ hvalue => lays_pure (.expr trivial hvalue.1)
  | ret value loc =>
    intro slots h
    cases h with
    | ret _ he =>
    rw [typedStmt]
    exact (lays_typedOptional he).bind fun value' _ _ hvalue => lays_pure (.ret trivial hvalue)
  | block body ih =>
    intro slots h
    cases h with
    | block _ hb =>
    rw [typedStmt]
    refine (lays_typedStmts body fun st hst slots' hfills =>
      ih st hst (hfills.untypedStmt (hb st hst))).bind fun body' _ _ hbody => ?_
    exact lays_pure (.block trivial hbody)
  | branch init cond body otherwise ihi ihb iho =>
    intro slots h
    cases h with
    | branch _ hi hc hb ho =>
    rw [typedStmt]
    refine (ihi hi).bind fun init' slots₁ hf₁ hinit => ?_
    refine (lays_typedHere (hf₁.untyped hc)).bind fun cond' slots₂ hf₂ hcond => ?_
    have hf₂' := hf₁.trans hf₂
    refine (lays_typedStmts body fun st hst slots' hfills =>
      ihb st hst ((hf₂'.trans hfills).untypedStmt (hb st hst))).bind
      fun body' slots₃ hf₃ hbody => ?_
    refine (iho ((hf₂'.trans hf₃).untypedStmt ho)).bind fun otherwise' slots₄ hf₄ hotherwise => ?_
    have hf₃' := hf₃.trans hf₄
    exact lays_pure (.branch trivial ((hf₂.trans hf₃').typedStmt hinit) (hf₃'.typed hcond.1)
      (fun st hst => hf₄.typedStmt (hbody st hst)) hotherwise)
  | loop init cond post body loc ihi ihp ihb =>
    intro slots h
    cases h with
    | loop _ hi hc hp hb =>
    rw [typedStmt]
    refine (ihi hi).bind fun init' slots₁ hf₁ hinit => ?_
    refine (lays_typedOptional fun e he => hf₁.untyped (hc e he)).bind
      fun cond' slots₂ hf₂ hcond => ?_
    have hf₂' := hf₁.trans hf₂
    refine (lays_typedStmts body fun st hst slots' hfills =>
      ihb st hst ((hf₂'.trans hfills).untypedStmt (hb st hst))).bind
      fun body' slots₃ hf₃ hbody => ?_
    refine (ihp ((hf₂'.trans hf₃).untypedStmt hp)).bind fun post' slots₄ hf₄ hpost => ?_
    have hf₃' := hf₃.trans hf₄
    exact lays_pure (.loop trivial ((hf₂.trans hf₃').typedStmt hinit)
      (fun e he => hf₃'.typed (hcond e he)) hpost fun st hst => hf₄.typedStmt (hbody st hst))
  | assign targets values loc =>
    intro slots h
    cases h with
    | assign hplace ht hv =>
    rw [typedStmt]
    exact lays_typedAssignment ht hv hplace
  | print printer args loc =>
    intro slots h
    cases h with
    | print _ ha =>
    rw [typedStmt]
    exact (lays_typedEach ha).bind fun args' _ _ hargs => lays_pure (.print trivial hargs)
  | empty => intro slots _; exact lays_pure (.empty trivial)

end Typing

end StackCompiler
