import StackCompiler.Proofs.Typing.Scope

/-!
# Proofs/Typing/Again — resolving a program once more

What has a type keeps it, and what has a slot keeps it, so a second run finds little to do: it gives
a type to a variable that was read **before it had one**, where the variable stands for itself — as a
statement, a returned value, a condition or an argument of a printing statement (`Program.filled`).
A third run finds nothing.
-/

namespace StackCompiler

open Typing

/-! ## Trees that are filled in -/

/-- The expression; if it is a variable without a type, it gets that of the variable. -/
def Expr.filled (vars : List Variable) : Expr → Expr
  | .var id .unknown loc => .var id (tyOf vars id) loc
  | e => e

mutual

/-- The statement, with types for the variables that are **the whole of an expression** in it which
is not part of an assignment. -/
def Stmt.filled (vars : List Variable) : Stmt → Stmt
  | .expr value => .expr (value.filled vars)
  | .ret value loc => .ret (value.map (Expr.filled vars)) loc
  | .block body => .block (Stmt.filledAll vars body)
  | .branch init cond body otherwise =>
    .branch (init.filled vars) (cond.filled vars) (Stmt.filledAll vars body)
      (otherwise.filled vars)
  | .loop init cond post body loc =>
    .loop (init.filled vars) (cond.map (Expr.filled vars)) (post.filled vars)
      (Stmt.filledAll vars body) loc
  | .assign targets values loc => .assign targets values loc
  | .print printer args loc => .print printer (args.map (Expr.filled vars)) loc
  | .empty => .empty

/-- The statements, filled in. -/
def Stmt.filledAll (vars : List Variable) : List Stmt → List Stmt
  | [] => []
  | st :: stmts => st.filled vars :: Stmt.filledAll vars stmts

end

def Function.filled (vars : List Variable) (f : Function) : Function :=
  { f with body := Stmt.filledAll vars f.body }

/-- The program; nothing of it changes but types in the bodies of its functions. -/
def Program.filled (p : Program) : Program :=
  { p with funcs := p.funcs.map (Function.filled p.vars) }

/-- The expressions of a statement, apart from those in the statements it holds and those of an
assignment. -/
def Stmt.roots : Stmt → List Expr
  | .expr value => [value]
  | .ret value _ => value.toList
  | .branch _ cond _ _ => [cond]
  | .loop _ cond _ _ _ => cond.toList
  | .print _ args _ => args
  | _ => []

/-- Whether the expression is a variable without a type. -/
def Expr.isUntypedVar : Expr → Bool
  | .var _ .unknown _ => true
  | _ => false

/-- No expression of the statement is just a variable without a type. -/
def Stmt.RootsTyped (st : Stmt) : Prop :=
  ∀ e ∈ st.roots, e.isUntypedVar = false

section Filled

variable {vars : List Variable}

theorem Expr.filled_eq_self {e : Expr} (h : e.isUntypedVar = false) : e.filled vars = e := by
  unfold filled
  split
  · cases h
  · rfl

theorem Expr.filled_of_resolved {e : Expr} (h : e.ty.isResolved = true) : e.filled vars = e := by
  unfold filled
  split
  · cases h
  · rfl

/-- Filling in **once** is enough. -/
theorem Expr.filled_filled (e : Expr) : (e.filled vars).filled vars = e.filled vars := by
  cases e with
  | var id ty loc =>
    by_cases hty : ty = .unknown
    · subst hty
      cases htyOf : tyOf vars id with
      | unknown => simp only [filled, htyOf]
      | _ => simp only [filled, htyOf]
    · exact congrArg (filled vars) (filled_of_resolved (Ty.isResolved_iff.mpr hty))
  | _ => rfl

theorem Stmt.filledAll_eq_map (stmts : List Stmt) :
    Stmt.filledAll vars stmts = stmts.map (Stmt.filled vars) := by
  induction stmts with
  | nil => rfl
  | cons st stmts ih => rw [filledAll, List.map_cons, ih]

theorem Stmt.filledAll_eq_self {stmts : List Stmt} (h : ∀ st ∈ stmts, st.filled vars = st) :
    Stmt.filledAll vars stmts = stmts :=
  (filledAll_eq_map stmts).trans ((List.map_congr_left (g := id) h).trans (List.map_id stmts))

/-- Filling in a statement **once** is enough. -/
theorem Stmt.filled_filled (st : Stmt) : (st.filled vars).filled vars = st.filled vars := by
  have hall {body : List Stmt} (ih : ∀ st ∈ body, (st.filled vars).filled vars = st.filled vars) :
      filledAll vars (filledAll vars body) = filledAll vars body :=
    filledAll_eq_self fun st' hst' => by
      rw [filledAll_eq_map] at hst'
      obtain ⟨st, hst, rfl⟩ := List.mem_map.mp hst'
      exact ih st hst
  have hoptional (value : Option Expr) :
      (value.map (Expr.filled vars)).map (Expr.filled vars) = value.map (Expr.filled vars) := by
    cases value with
    | none => rfl
    | some e => exact congrArg some e.filled_filled
  induction st with
  | expr value => simp only [filled, Expr.filled_filled]
  | ret value loc => simp only [filled, hoptional]
  | block body ih => simp only [filled, hall ih]
  | branch init cond body otherwise ihi ihb iho =>
    simp only [filled, ihi, Expr.filled_filled, hall ihb, iho]
  | loop init cond post body loc ihi ihp ihb =>
    simp only [filled, ihi, hoptional, ihp, hall ihb]
  | assign => rfl
  | print printer args loc =>
    simp only [filled, List.map_map]
    exact congrArg (Stmt.print printer · loc) (List.map_congr_left fun e _ => e.filled_filled)
  | empty => rfl

/-- Where no variable stands for itself without a type, there is **nothing to fill in**. -/
theorem Stmt.filled_eq_self {st : Stmt} (h : st.Everywhere (fun _ => True) Stmt.RootsTyped) :
    st.filled vars = st := by
  have hoptional {value : Option Expr} (h : ∀ e ∈ value.toList, e.isUntypedVar = false) :
      value.map (Expr.filled vars) = value := by
    cases value with
    | none => rfl
    | some e => exact congrArg some (Expr.filled_eq_self (h e List.mem_cons_self))
  induction h with
  | expr h => rw [filled, Expr.filled_eq_self (h _ List.mem_cons_self)]
  | ret h => rw [filled, hoptional h]
  | block _ _ ih => rw [filled, filledAll_eq_self ih]
  | branch h _ _ _ _ ihi ihb iho =>
    rw [filled, ihi, Expr.filled_eq_self (h _ List.mem_cons_self), filledAll_eq_self ihb, iho]
  | loop h _ _ _ _ ihi ihp ihb => rw [filled, ihi, hoptional h, ihp, filledAll_eq_self ihb]
  | assign => rfl
  | @print printer args loc h _ =>
    have hargs : args.map (Expr.filled vars) = args :=
      (List.map_congr_left (g := id) fun e he => Expr.filled_eq_self (h e he)).trans
        (List.map_id args)
    rw [filled, hargs]
  | empty => rfl

theorem Function.filled_filled (f : Function) : (f.filled vars).filled vars = f.filled vars :=
  congrArg (fun body => { f with body := body }) <| Stmt.filledAll_eq_self fun st hst => by
    rw [filled, Stmt.filledAll_eq_map] at hst
    obtain ⟨st, -, rfl⟩ := List.mem_map.mp hst
    exact st.filled_filled

theorem Program.filled_filled (p : Program) : p.filled.filled = p.filled := by
  simp only [filled, List.map_map]
  exact congrArg (fun funcs => { p with funcs := funcs }) <|
    List.map_congr_left fun f _ => Function.filled_filled f

theorem Program.filled_eq_self {p : Program}
    (h : ∀ f ∈ p.funcs, ∀ st ∈ f.body, st.Everywhere (fun _ => True) Stmt.RootsTyped) :
    p.filled = p :=
  congrArg (fun funcs => { p with funcs := funcs }) <|
    (List.map_congr_left (g := id) fun f hf => congrArg (fun body => { f with body := body }) <|
      Stmt.filledAll_eq_self fun st hst => Stmt.filled_eq_self (h f hf st hst)).trans
      (List.map_id p.funcs)

end Filled

namespace Typing

/-! ## Steps that change no slots -/

/-- From these slots the step succeeds with that result, and **leaves the slots as they are**. -/
def Stays {α : Type} (slots : Slots) (x : Layout α) (a : α) : Prop :=
  x.run slots = .ok (a, slots)

section Steps

variable {α β : Type} {slots : Slots}

theorem stays_pure (a : α) : Stays slots (pure a) a :=
  rfl

theorem Stays.bind {x : Layout α} {f : α → Layout β} {a : α} {b : β} (hx : Stays slots x a)
    (hf : Stays slots (f a) b) : Stays slots (x >>= f) b := by
  unfold Stays
  rw [StateT.run_bind, show x.run slots = .ok (a, slots) from hx]
  exact hf

theorem stays_lift {x : Except Failure α} {a : α} (h : x = .ok a) :
    Stays slots (liftM x) a := by
  subst h
  rfl

theorem stays_get {f : Slots → Layout α} {a : α} (h : Stays slots (f slots) a) :
    Stays slots (get >>= f) a :=
  h

theorem stays_mapM {f : α → Layout β} {g : α → β} :
    ∀ as : List α, (∀ a ∈ as, Stays slots (f a) (g a)) → Stays slots (as.mapM f) (as.map g)
  | [], _ => by
    rw [List.mapM_nil]
    exact stays_pure _
  | a :: as, h => by
    rw [List.mapM_cons, List.map_cons]
    exact (h a List.mem_cons_self).bind <|
      (stays_mapM as fun b hb => h b (List.mem_cons_of_mem _ hb)).bind (stays_pure _)

theorem stays_forM {f : α → Layout Unit} :
    ∀ as : List α, (∀ a ∈ as, Stays slots (f a) ()) → Stays slots (as.forM f) ()
  | [], _ => stays_pure _
  | a :: as, h => (h a List.mem_cons_self).bind <|
      stays_forM as fun b hb => h b (List.mem_cons_of_mem _ hb)

theorem stays_optional {f : α → Layout β} {g : α → β} (a : Option α)
    (h : ∀ b ∈ a, Stays slots (f b) (g b)) : Stays slots (a.mapM f) (a.map g) := by
  cases a with
  | none => exact stays_pure _
  | some a => exact Stays.bind (f := fun b => pure (some b)) (h a rfl) (stays_pure (some (g a)))

/-- What has a type **is given none**. -/
theorem stays_giveType {id : VarId} {v : Variable} (hv : slots.vars[id]? = some v)
    (hr : v.ty.isResolved = true) (ty : Ty) : Stays slots (giveType id ty) () := by
  have hsame : slots.vars.modify id (fun v => if v.ty.isResolved then v else { v with ty := ty }) =
      slots.vars := by
    refine List.ext_getElem? fun i => ?_
    rw [List.getElem?_modify]
    by_cases hid : id = i
    · subst hid
      simp [hv, hr]
    · simp [hid]
  exact congrArg (fun vars => Except.ok ((), { slots with vars := vars })) hsame

/-- What has a slot, or is no local, **is given none**. -/
theorem stays_place {id : VarId} {v : Variable} (hv : slots.vars[id]? = some v)
    (h : v.isLocal = true → v.offset ≠ 0) : Stays slots (place id) () := by
  unfold place
  refine stays_get ((stays_lift (a := v) (by rw [variableOf, hv]; rfl)).bind ?_)
  dsimp only
  rw [if_pos]
  · exact stays_pure _
  · cases hl : v.isLocal with
    | false => rfl
    | true => simpa using h hl

end Steps

/-! ## Typing what has been typed -/

section Trees

variable {own : VarId → Prop} {vars : List Variable} {strings : Nat} {signatures : List Signature}
  {s : Surroundings}

theorem variableOf_of_getElem? {id : VarId} {v : Variable} (hv : vars[id]? = some v) :
    variableOf vars id = .ok v := by
  rw [variableOf, hv]
  rfl

/-- A declared variable **is bound to itself**. -/
theorem Surroundings.bind_of_declared {id : VarId} {v : Variable} (hv : vars[id]? = some v)
    (hp : v.isPlaceholder = false) (loc : Nat) : s.bind vars id loc = .ok id := by
  refine bind_eq_ok_iff.mpr ⟨v, variableOf_of_getElem? hv, ?_⟩
  rw [if_neg (by rw [hp]; exact Bool.false_ne_true)]
  rfl

theorem typed_of_resolved {e : Expr} (h : e.ty.isResolved = true) : typed s vars e = .ok e := by
  unfold typed
  exact if_pos h

/-- **Typing a typed expression fills it in**: without a type are only a variable, and what a pointer
to such a variable points at. -/
theorem typed_eq_filled (hproper : ∀ (id : VarId) (v : Variable), vars[id]? = some v → v.ty.Proper)
    {e : Expr} (he : Typed own vars strings signatures e) :
    typed s vars e = .ok (e.filled vars) := by
  by_cases hr : e.ty.isResolved = true
  · rw [Expr.filled_of_resolved hr, typed_of_resolved hr]
  have hunknown : e.ty = .unknown := not_not.mp fun hne => hr (Ty.isResolved_iff.mpr hne)
  cases he with
  | num h => exact absurd h.1 hr
  | str h => cases hunknown.symm.trans h.1
  | @var id ty loc h =>
    cases hunknown
    obtain ⟨⟨v, hv, -⟩, hrule⟩ := h
    rw [typed, if_neg hr, Expr.filled, tyOf_eq hv]
    refine bind_eq_ok_iff.mpr ⟨id, Surroundings.bind_of_declared hv (hrule v hv).1 loc, ?_⟩
    exact bind_eq_ok_iff.mpr ⟨v, variableOf_of_getElem? hv, rfl⟩
  | addr h => cases hunknown.symm.trans h.1
  | @deref operand ty loc h _ =>
    cases hunknown
    have hptr : operand.ty = .ptr .unknown := by
      have h : Ty.unknown = pointeeTy operand.ty := h
      cases hty : operand.ty with
      | ptr base => rw [hty] at h; exact congrArg Ty.ptr h.symm
      | _ => rw [hty] at h; cases h
    rw [typed, if_neg hr]
    refine bind_eq_ok_iff.mpr ⟨operand, typed_of_resolved (by rw [hptr]; rfl), ?_⟩
    rw [hptr]
    rfl
  | binary h =>
    obtain ⟨-, hlhs, -, -, hty⟩ := h
    have hty := hunknown.symm.trans hty
    split at hty
    · cases hty
    · rw [← hty] at hlhs
      cases hlhs
  | @index base position ty loc h hbase =>
    have h : ty = elementTy base.ty := h
    have hbase := hbase.proper hproper
    cases hty : base.ty with
    | array element len =>
      -- the elements of a proper array have a type
      rw [hty] at h hbase
      exact absurd (h ▸ hbase.2.1) hr
    | _ => rw [hty] at h; cases hunknown.symm.trans h
  | call h => cases hunknown.symm.trans h.1

end Trees

/-! ## Typing what has been laid out -/

/-- The variable has a type, and a slot if it is a local. -/
def IsSettled (vars : List Variable) (id : VarId) : Prop :=
  ∃ v, vars[id]? = some v ∧ v.ty.isResolved = true ∧ (v.isLocal = true → v.offset ≠ 0)

/-- The expression is a typed tree, and names variables that are settled. -/
abbrev TypedAgain (own : VarId → Prop) (vars : List Variable) (strings : Nat)
    (signatures : List Signature) (e : Expr) : Prop :=
  e.Everywhere fun e => e.TypedRule vars strings signatures own ∧ e.Names (IsSettled vars)

section Statements

variable {own : VarId → Prop} {slots : Slots} {strings : Nat} {signatures : List Signature}
  {s : Surroundings}

theorem IsSettled.stays_place {id : VarId} (h : IsSettled slots.vars id) :
    Stays slots (place id) () := by
  obtain ⟨v, hv, -, hslot⟩ := h
  exact Typing.stays_place hv hslot

theorem stays_typedStmts {stmts : List Stmt}
    (h : ∀ st ∈ stmts, Stays slots (typedStmt s st) (st.filled slots.vars)) :
    Stays slots (typedStmts s stmts) (Stmt.filledAll slots.vars stmts) := by
  induction stmts with
  | nil => exact stays_pure _
  | cons st stmts ih =>
    rw [typedStmts, Stmt.filledAll]
    refine (h st List.mem_cons_self).bind ?_
    exact (ih fun st hst => h st (List.mem_cons_of_mem _ hst)).bind (stays_pure _)

variable (hproper : ∀ (id : VarId) (v : Variable), slots.vars[id]? = some v → v.ty.Proper)
include hproper

theorem stays_typedHere {e : Expr} (he : TypedAgain own slots.vars strings signatures e) :
    Stays slots (typedHere s e) (e.filled slots.vars) :=
  stays_get (stays_lift (typed_eq_filled hproper (he.mono fun _ => And.left)))

/-- A target **keeps its type and its slot**. -/
theorem stays_target {target : Expr} (ht : TypedAgain own slots.vars strings signatures target)
    (hr : target.ty.isResolved = true) (ty : Ty) :
    Stays slots (inferred s target ty >>= typedHere s) target := by
  have htyped : Stays slots (typedHere s target) target := by
    have := stays_typedHere (s := s) hproper ht
    rwa [Expr.filled_of_resolved hr] at this
  cases target with
  | var id t loc =>
    obtain ⟨⟨-, hrule⟩, v, hv, hvr, -⟩ := ht.here
    refine Stays.bind (stays_get ((stays_lift
      (Surroundings.bind_of_declared hv (hrule v hv).1 loc)).bind ?_)) htyped
    exact (stays_giveType hv hvr ty).bind (stays_pure _)
  | _ => exact htyped

theorem stays_typedPair {target value : Expr}
    (ht : TypedAgain own slots.vars strings signatures target)
    (hv : TypedAgain own slots.vars strings signatures value) (hfit : Fitting target value) :
    Stays slots (typedPair s (target, value)) (target, value) := by
  have htarget := Ty.isResolved_of_words_eq hfit.words hfit.resolved
  have hvalue : Stays slots (typedHere s value) value := by
    have := stays_typedHere (s := s) hproper hv
    rwa [Expr.filled_of_resolved hfit.resolved] at this
  have hcheck : checkStore target value = .ok () := by
    rw [checkStore, if_neg (by rw [hfit.noArray]; exact Bool.false_ne_true),
      if_neg (not_not.mpr hfit.words)]
    rfl
  unfold typedPair
  refine hvalue.bind ?_
  dsimp only
  rw [if_neg (by rw [hfit.resolved]; exact Bool.false_ne_true), ← bind_assoc]
  refine (stays_target hproper ht htarget value.ty).bind ?_
  refine (stays_lift hcheck).bind ?_
  split
  · next id hroot =>
    exact ((ht.mono fun _ => And.right).root_names hroot).stays_place.bind (stays_pure _)
  · exact stays_pure _

theorem stays_typedAssignment {targets values : List Expr} {loc : Nat}
    (ht : ∀ e ∈ targets, TypedAgain own slots.vars strings signatures e)
    (hv : ∀ e ∈ values, TypedAgain own slots.vars strings signatures e)
    (hfit : List.Forall₂ Fitting targets values) :
    Stays slots (typedAssignment s targets values loc) (.assign targets values loc) := by
  have hlength := hfit.length_eq
  have hpairs : Stays slots ((targets.zip values).mapM (typedPair s)) (targets.zip values) := by
    have hpair : ∀ pair ∈ targets.zip values, Stays slots (typedPair s pair) (id pair) := by
      rintro ⟨target, value⟩ hmem
      obtain ⟨hmt, hmv⟩ := List.of_mem_zip hmem
      exact stays_typedPair hproper (ht target hmt) (hv value hmv)
        ((List.forall₂_iff_zip.mp hfit).2 hmem)
    have := stays_mapM _ hpair
    rwa [List.map_id] at this
  unfold typedAssignment
  dsimp only
  rw [if_neg (not_not.mpr hlength)]
  refine hpairs.bind ?_
  rw [show (targets.zip values).map (·.1) = targets from List.map_fst_zip hlength.le,
    show (targets.zip values).map (·.2) = values from List.map_snd_zip hlength.ge]
  exact stays_pure _

/-- **Typing a typed statement fills it in**, and leaves all slots as they are. -/
theorem stays_typedStmt {st : Stmt}
    (h : st.Everywhere (fun e => e.TypedRule slots.vars strings signatures own ∧
      e.Names (IsSettled slots.vars)) Stmt.TypedRule) :
    Stays slots (typedStmt s st) (st.filled slots.vars) := by
  have hoptional {value : Option Expr}
      (h : ∀ e ∈ value, TypedAgain own slots.vars strings signatures e) :
      Stays slots (value.mapM (typedHere s)) (value.map (Expr.filled slots.vars)) :=
    stays_optional value fun e he => stays_typedHere hproper (h e he)
  induction h with
  | expr _ he =>
    rw [typedStmt, Stmt.filled]
    exact (stays_typedHere hproper he).bind (stays_pure _)
  | ret _ he =>
    rw [typedStmt, Stmt.filled]
    exact (hoptional he).bind (stays_pure _)
  | block _ _ ih =>
    rw [typedStmt, Stmt.filled]
    exact (stays_typedStmts ih).bind (stays_pure _)
  | branch _ _ hc _ _ ihi ihb iho =>
    rw [typedStmt, Stmt.filled]
    refine ihi.bind ((stays_typedHere hproper hc).bind ?_)
    exact (stays_typedStmts ihb).bind (iho.bind (stays_pure _))
  | loop _ _ hc _ _ ihi ihp ihb =>
    rw [typedStmt, Stmt.filled]
    refine ihi.bind ((hoptional hc).bind ?_)
    exact (stays_typedStmts ihb).bind (ihp.bind (stays_pure _))
  | assign hfit ht hv =>
    rw [typedStmt, Stmt.filled]
    exact stays_typedAssignment hproper ht hv hfit
  | print _ ha =>
    rw [typedStmt, Stmt.filled]
    exact (stays_mapM _ fun e he => stays_typedHere hproper (ha e he)).bind (stays_pure _)
  | empty => exact stays_pure _

end Statements

/-! ## Functions -/

theorem foldl_max_eq {ns : List Int} {m : Int} (hle : ∀ n ∈ ns, n ≤ m) {a : Int} (ha : a ≤ m)
    (hm : a = m ∨ m ∈ ns) : ns.foldl max a = m := by
  induction ns generalizing a with
  | nil => exact hm.resolve_right List.not_mem_nil
  | cons n ns ih =>
    have hn := hle n List.mem_cons_self
    refine ih (fun n hn => hle n (List.mem_cons_of_mem _ hn)) (max_le ha hn) ?_
    rcases hm with rfl | hm
    · exact .inl (max_eq_left hn)
    · rcases List.mem_cons.mp hm with rfl | hm
      · exact .inl (max_eq_right ha)
      · exact .inr hm

section Functions

variable {vars : List Variable} {strings : Nat} {signatures : List Signature} {f : Function}
  {globals : List VarId}

/-- What the body of a typed function names **is settled**. -/
theorem isSettled_of_seen (hf : f.Typed vars strings signatures)
    (hglobals : ∀ id ∈ globals, ∃ v, vars[id]? = some v ∧ v.isLocal = false ∧
      v.ty.isResolved = true ∧ v.offset = 0) {id : VarId} (hid : id ∈ f.locals ∨ id ∈ globals) :
    IsSettled vars id := by
  rcases hid with hid | hid
  · obtain ⟨v, hv, -, hr, hp, hsize, -⟩ := hf.locals id hid
    have := (Ty.size_bounds hp hr).1
    exact ⟨v, hv, hr, fun _ => by omega⟩
  · obtain ⟨v, hv, hglobal, hr, -⟩ := hglobals id hid
    exact ⟨v, hv, hr, fun hl => by rw [hglobal] at hl; cases hl⟩

variable (hproper : ∀ (id : VarId) (v : Variable), vars[id]? = some v → v.ty.Proper)
include hproper

/-- The slots of the locals reach as far as the locals **take bytes together**. -/
theorem reach_eq_extent (hf : f.Typed vars strings signatures) :
    reach vars f.locals = extent vars f.locals := by
  have hlaid := hf.laidOut hproper
  obtain ⟨order, -, -, hstacked⟩ := hf.stacked
  have hpos := hstacked.le hproper
  refine foldl_max_eq (fun n hn => ?_) hpos ?_
  · obtain ⟨id, hid, rfl⟩ := List.mem_map.mp hn
    obtain ⟨v, hv, -⟩ := hlaid.locals id hid
    rw [hv]
    exact (hlaid.inside id hid v hv).2
  · rcases hpos.eq_or_lt with h₀ | hpos
    · exact .inl h₀
    -- the last byte is in a slot, which ends there
    · obtain ⟨id, hid, v, hv, -, hlt⟩ := hlaid.tiled (extent vars f.locals - 1) (by omega) (by omega)
      have hle := (hlaid.inside id hid v hv).2
      refine .inr (List.mem_map.mpr ⟨id, hid, ?_⟩)
      rw [hv, Option.elim]
      omega

/-- Rounding up gives the frame **that was there**. -/
theorem alignUp?_reach (hf : f.Typed vars strings signatures) :
    Word.alignUp? (reach vars f.locals) frameAlignment = some f.frame := by
  rw [reach_eq_extent hproper hf]
  obtain ⟨-, hle, -⟩ := (hf.laidOut hproper).frame
  obtain ⟨hdvd, h₀, hgreatest⟩ := hf.frame
  have hlt := hf.frame_lt
  obtain ⟨order, -, -, hstacked⟩ := hf.stacked
  have hpos := hstacked.le hproper
  have hframe : Word.RoundedUp (extent vars f.locals) frameAlignment f.frame :=
    (Word.roundedUp_iff (by decide)).mpr ⟨hdvd, hle, hlt⟩
  exact (Word.alignUp?_eq_some_iff hpos (by decide)).mpr
    ⟨hframe, hframe.sum_le (by decide) hgreatest⟩

/-- **Typing a typed function fills in its body.** -/
theorem typedFunction_again (hf : f.Typed vars strings signatures) (hscoped : f.Scoped globals)
    (hglobals : ∀ id ∈ globals, ∃ v, vars[id]? = some v ∧ v.isLocal = false ∧
      v.ty.isResolved = true ∧ v.offset = 0) (taken : Int) :
    (typedFunction globals signatures f).run ⟨vars, taken⟩ =
      .ok (f.filled vars, ⟨vars, reach vars f.locals⟩) := by
  have hplaces (ids : List VarId) (hids : ids ⊆ f.locals) :
      Stays ⟨vars, reach vars f.locals⟩ (ids.forM place) () :=
    stays_forM ids fun id hid =>
      IsSettled.stays_place (isSettled_of_seen hf hglobals (.inl (hids hid)))
  have hstmts : ∀ st ∈ f.body, Stays ⟨vars, reach vars f.locals⟩
      (typedStmt ⟨f.locals, globals, signatures⟩ st) (st.filled vars) := by
    intro st hst
    refine stays_typedStmt hproper (((hf.body st hst).and (hscoped st hst)).mono
      (fun e h => ⟨h.1, ?_⟩) fun _ => And.left)
    cases e with
    | var => exact isSettled_of_seen hf hglobals h.2
    | _ => trivial
  have hbody : Stays ⟨vars, reach vars f.locals⟩
      (typedStmts ⟨f.locals, globals, signatures⟩ f.body) (Stmt.filledAll vars f.body) :=
    stays_typedStmts hstmts
  have hlaidOut : Stays ⟨vars, reach vars f.locals⟩
      (laidOut ⟨f.locals, globals, signatures⟩ f) (Stmt.filledAll vars f.body) :=
    (hplaces f.params hf.params.subset).bind <| hbody.bind <|
      (hplaces f.locals (List.Subset.refl _)).bind (stays_pure _)
  rw [typedFunction_eq, StateT.run_bind]
  refine bind_eq_ok_iff.mpr ⟨((), ⟨vars, reach vars f.locals⟩), rfl, ?_⟩
  change Stays ⟨vars, reach vars f.locals⟩ _ (f.filled vars)
  refine hlaidOut.bind (stays_get ?_)
  rw [alignUp?_reach hproper hf]
  exact stays_pure _

end Functions

end Typing

/-! ## Programs -/

section Everywhere

variable {vars : List Variable} {P : Expr → Prop} {Q : Stmt → Prop}

/-- A rule that does not mind what type a variable has got holds of **what is filled in**. -/
theorem Expr.Everywhere.filled
    (hP : ∀ id loc, P (.var id .unknown loc) → P (.var id (tyOf vars id) loc)) {e : Expr}
    (h : e.Everywhere P) : (e.filled vars).Everywhere P := by
  unfold Expr.filled
  split
  · exact .var (hP _ _ h.here)
  · exact h

theorem Stmt.Everywhere.filled
    (hP : ∀ id loc, P (.var id .unknown loc) → P (.var id (tyOf vars id) loc))
    (hQ : ∀ st, Q st → Q (st.filled vars)) {st : Stmt} (h : st.Everywhere P Q) :
    (st.filled vars).Everywhere P Q := by
  have hoptional {value : Option Expr} (h : ∀ e ∈ value, e.Everywhere P) :
      ∀ e ∈ value.map (Expr.filled vars), e.Everywhere P := fun e' he' => by
    obtain ⟨e, he, rfl⟩ := Option.map_eq_some_iff.mp he'
    exact (h e he).filled hP
  have hall {body : List Stmt} (ih : ∀ st ∈ body, (st.filled vars).Everywhere P Q) :
      ∀ st ∈ Stmt.filledAll vars body, st.Everywhere P Q := fun st' hst' => by
    rw [Stmt.filledAll_eq_map] at hst'
    obtain ⟨st, hst, rfl⟩ := List.mem_map.mp hst'
    exact ih st hst
  induction h with
  | expr h he =>
    have h := hQ _ h
    rw [Stmt.filled] at h ⊢
    exact .expr h (he.filled hP)
  | ret h he =>
    have h := hQ _ h
    rw [Stmt.filled] at h ⊢
    exact .ret h (hoptional he)
  | block h _ ih =>
    have h := hQ _ h
    rw [Stmt.filled] at h ⊢
    exact .block h (hall ih)
  | branch h _ hc _ _ ihi ihb iho =>
    have h := hQ _ h
    rw [Stmt.filled] at h ⊢
    exact .branch h ihi (hc.filled hP) (hall ihb) iho
  | loop h _ hc _ _ ihi ihp ihb =>
    have h := hQ _ h
    rw [Stmt.filled] at h ⊢
    exact .loop h ihi (hoptional hc) ihp (hall ihb)
  | assign h ht hv => exact .assign h ht hv
  | print h ha =>
    have h := hQ _ h
    rw [Stmt.filled] at h ⊢
    refine .print h fun e' he' => ?_
    obtain ⟨e, he, rfl⟩ := List.mem_map.mp he'
    exact (ha e he).filled hP
  | empty h => exact .empty h

theorem Stmt.TypedRule.filled (st : Stmt) (h : st.TypedRule) : (st.filled vars).TypedRule := by
  cases st with
  | assign => exact h
  | _ => trivial

end Everywhere

section Programs

variable {p q : Program}

/-- A function that is filled in **is typed** if it was. -/
theorem Function.Typed.filled {vars : List Variable} {strings : Nat} {signatures : List Signature}
    {f : Function} (hf : f.Typed vars strings signatures) :
    (f.filled vars).Typed vars strings signatures where
  body st' hst' := by
    rw [Function.filled, Stmt.filledAll_eq_map] at hst'
    obtain ⟨st, hst, rfl⟩ := List.mem_map.mp hst'
    refine (hf.body st hst).filled (fun id loc h => ⟨h.1, fun v hv => ?_⟩) Stmt.TypedRule.filled
    exact ⟨(h.2 v hv).1, fun _ => tyOf_eq hv⟩
  params := hf.params
  ascending := hf.ascending
  values := hf.values
  locals := hf.locals
  apart := hf.apart
  stacked := hf.stacked
  frame := hf.frame
  frame_lt := hf.frame_lt
  implicit := hf.implicit

theorem Function.Scoped.filled {globals : List VarId} {vars : List Variable} {f : Function}
    (hf : f.Scoped globals) : (f.filled vars).Scoped globals := fun st' hst' => by
  rw [Function.filled, Stmt.filledAll_eq_map] at hst'
  obtain ⟨st, hst, rfl⟩ := List.mem_map.mp hst'
  exact (hf st hst).filled (fun _ _ h => h) fun _ _ => trivial

theorem Program.signatures_filled (p : Program) : p.filled.signatures = p.signatures := by
  simp only [signatures, declared, filled, List.filter_map, List.map_map]
  rfl

theorem Program.Typed.filled (hq : q.Typed) : q.filled.Typed where
  globals := hq.globals
  proper := hq.proper
  signatures := q.signatures_filled ▸ hq.signatures
  funcs f' hf' := by
    obtain ⟨f, hf, rfl⟩ := List.mem_map.mp hf'
    rw [q.signatures_filled]
    exact (hq.funcs f hf).filled

theorem forM_eq_ok {α : Type} {f : α → Except Failure Unit} :
    ∀ as : List α, (∀ a ∈ as, f a = .ok ()) → as.forM f = .ok ()
  | [], _ => rfl
  | a :: as, h => by
    change f a >>= (fun _ => as.forM f) = .ok ()
    exact bind_eq_ok_iff.mpr ⟨(), h a List.mem_cons_self,
      forM_eq_ok as fun b hb => h b (List.mem_cons_of_mem _ hb)⟩

/-- Typing typed functions **one after the other** fills in their bodies. -/
theorem mapM_typedFunction_again (hq : q.Typed) : ∀ (fs : List Function) (taken : Int),
    (∀ f ∈ fs, f ∈ q.funcs ∧ f.Scoped q.globals) →
    ∃ taken', (fs.mapM (typedFunction q.globals q.signatures)).run ⟨q.vars, taken⟩ =
      .ok (fs.map (Function.filled q.vars), ⟨q.vars, taken'⟩)
  | [], taken, _ => ⟨taken, by rw [List.mapM_nil]; rfl⟩
  | f :: fs, taken, h => by
    obtain ⟨hf, hscoped⟩ := h f List.mem_cons_self
    obtain ⟨taken', hfs⟩ := mapM_typedFunction_again hq fs (reach q.vars f.locals)
      fun g hg => h g (List.mem_cons_of_mem _ hg)
    refine ⟨taken', ?_⟩
    rw [List.mapM_cons, StateT.run_bind]
    refine bind_eq_ok_iff.mpr
      ⟨_, typedFunction_again hq.proper (hq.funcs f hf) hscoped hq.globals taken, ?_⟩
    rw [StateT.run_bind]
    exact bind_eq_ok_iff.mpr ⟨_, hfs, rfl⟩

/-- **Resolving a typed program fills it in.** -/
theorem Program.Typed.resolve_eq_filled (hq : q.Typed)
    (hscoped : ∀ f ∈ q.funcs, f.Scoped q.globals) : q.resolve = .ok q.filled := by
  have hparameters : q.declared.forM (checkParameters q.vars) = .ok () :=
    forM_eq_ok _ fun f hf => if_neg <| not_lt.mpr <|
      hq.signatures (signatureOf q.vars f) (List.mem_map_of_mem hf)
  have hglobals : q.globals.forM (checkGlobal q.vars) = .ok () := forM_eq_ok _ fun id hid => by
    obtain ⟨v, hv, -, hr, -⟩ := hq.globals id hid
    refine bind_eq_ok_iff.mpr ⟨v, variableOf_of_getElem? hv, ?_⟩
    rw [if_neg (by rw [hr]; exact Bool.false_ne_true)]
    rfl
  obtain ⟨taken, hfuncs⟩ := mapM_typedFunction_again hq q.funcs 0 fun f hf => ⟨hf, hscoped f hf⟩
  refine bind_eq_ok_iff.mpr ⟨(), hparameters, bind_eq_ok_iff.mpr ⟨_, hfuncs, ?_⟩⟩
  exact bind_eq_ok_iff.mpr ⟨(), hglobals, rfl⟩

/-- **Resolving again.**  A program that was read and resolved is resolved by every further run: the
first of them gives a type to each variable without one that is the whole of an expression and no
part of an assignment, and changes nothing else; those after it change nothing.  Where there is no
such variable, the first one changes nothing either. -/
theorem resolve_again {source : List Char} {tokens : List Token}
    (h : Program.ofTokens source tokens = .ok p) (h' : p.resolve = .ok q) :
    (∀ n : Nat, (· >>= Program.resolve)^[n + 1] (.ok q) = .ok q.filled) ∧
      ((∀ f ∈ q.funcs, ∀ st ∈ f.body, st.Everywhere (fun _ => True) Stmt.RootsTyped) →
        q.filled = q) := by
  have hread := Program.read_of_ofTokens h
  have hq := hread.typed q h'
  have hscoped := hread.scoped q h'
  have hfirst := hq.resolve_eq_filled hscoped
  have hlater : q.filled.resolve = .ok q.filled := by
    rw [hq.filled.resolve_eq_filled fun f' hf' => ?_, q.filled_filled]
    obtain ⟨f, hf, rfl⟩ := List.mem_map.mp hf'
    exact (hscoped f hf).filled
  refine ⟨fun n => ?_, Program.filled_eq_self⟩
  rw [Function.iterate_succ_apply]
  change (· >>= Program.resolve)^[n] q.resolve = .ok q.filled
  rw [hfirst]
  exact Function.iterate_fixed hlater n

/-- A name that is read before it has a type, as a statement and as an argument, and a pointer to
it. -/
def textOfEarlyReading : String :=
  "package p func main() \x7b x; print(x); *&x; x := 1; if x < 2 \x7b x = g \x7d \x7d var g int"

/-- The name as a statement and as an argument **gets its type** in the second run. -/
theorem resolve_again_of_early_reading :
    ∃ tokens p q, tokensOf textOfEarlyReading.toList = .ok tokens ∧
      Program.ofTokens textOfEarlyReading.toList tokens = .ok p ∧ p.resolve = .ok q ∧
      (q.funcs.map fun f => (f.body.flatMap Stmt.roots).map (·.ty)) =
        [[.int], [.unknown, .unknown, .unknown, .bool]] ∧
      (q.filled.funcs.map fun f => (f.body.flatMap Stmt.roots).map (·.ty)) =
        [[.int], [.int, .int, .unknown, .bool]] ∧
      ∀ n : Nat, (· >>= Program.resolve)^[n + 1] (.ok q) = .ok q.filled := by
  obtain ⟨q, hq, htypes⟩ := exists_ok_of_text (s := textOfEarlyReading) rfl
    (f := Program.ofSource)
    (P := fun _ q =>
      (q.funcs.map fun f => (f.body.flatMap Stmt.roots).map (·.ty)) ==
        [[.int], [.unknown, .unknown, .unknown, .bool]] &&
      (q.filled.funcs.map fun f => (f.body.flatMap Stmt.roots).map (·.ty)) ==
        [[.int], [.int, .int, .unknown, .bool]]) (by decide +kernel)
  obtain ⟨hbefore, hafter⟩ := Bool.and_eq_true_iff.mp htypes
  obtain ⟨tokens, p, htokens, hread, hresolve⟩ := Program.ofSource_ok hq
  exact ⟨tokens, p, q, htokens, hread, hresolve, beq_iff_eq.mp hbefore, beq_iff_eq.mp hafter,
    (resolve_again hread hresolve).1⟩

end Programs

end StackCompiler
