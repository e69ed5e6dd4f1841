import Mathlib.Data.List.Forall2
import Mathlib.Data.Option.Basic
import StackCompiler.Proofs.Typing.Package

/-!
# Proofs/Typing/Binding — what a name in a body refers to

Typing keeps the shape of a tree and changes two things in it: types, and the numbers of the
variables (`Expr.Rebound`).  A variable becomes the one that its **name** stands for in the function:
the local of that name, wherever it is declared, and else the package-level variable.
-/

namespace StackCompiler

open Typing

/-! ## Trees with other variables -/

/-- The later tree is the earlier one with other types, and with variables that `R` relates to those
that were there; a number has the type that it had, or that of an `int` **if it had none**. -/
inductive Expr.Rebound (R : VarId → VarId → Prop) : Expr → Expr → Prop
  | num {value ty loc} :
    Rebound R (.num value ty loc) (.num value (if ty.isResolved then ty else .int) loc)
  | str {string ty ty' loc} : Rebound R (.str string ty loc) (.str string ty' loc)
  | var {id id' ty ty' loc} : R id id' → Rebound R (.var id ty loc) (.var id' ty' loc)
  | addr {operand operand' ty ty' loc} : Rebound R operand operand' →
    Rebound R (.addr operand ty loc) (.addr operand' ty' loc)
  | deref {operand operand' ty ty' loc} : Rebound R operand operand' →
    Rebound R (.deref operand ty loc) (.deref operand' ty' loc)
  | binary {op lhs lhs' rhs rhs' ty ty' loc} : Rebound R lhs lhs' → Rebound R rhs rhs' →
    Rebound R (.binary op lhs rhs ty loc) (.binary op lhs' rhs' ty' loc)
  | index {base base' position position' ty ty' loc} : Rebound R base base' →
    Rebound R position position' →
    Rebound R (.index base position ty loc) (.index base' position' ty' loc)
  | call {name args args' ty ty' loc} : List.Forall₂ (Rebound R) args args' →
    Rebound R (.call name args ty loc) (.call name args' ty' loc)

/-- The later statement is the earlier one with other types and variables. -/
inductive Stmt.Rebound (R : VarId → VarId → Prop) : Stmt → Stmt → Prop
  | expr {value value'} : value.Rebound R value' → Rebound R (.expr value) (.expr value')
  | ret {value value' loc} : Option.Rel (Expr.Rebound R) value value' →
    Rebound R (.ret value loc) (.ret value' loc)
  | block {body body'} : List.Forall₂ (Rebound R) body body' →
    Rebound R (.block body) (.block body')
  | branch {init init' cond cond' body body' otherwise otherwise'} : Rebound R init init' →
    cond.Rebound R cond' → List.Forall₂ (Rebound R) body body' →
    Rebound R otherwise otherwise' →
    Rebound R (.branch init cond body otherwise) (.branch init' cond' body' otherwise')
  | loop {init init' cond cond' post post' body body' loc} : Rebound R init init' →
    Option.Rel (Expr.Rebound R) cond cond' → Rebound R post post' →
    List.Forall₂ (Rebound R) body body' →
    Rebound R (.loop init cond post body loc) (.loop init' cond' post' body' loc)
  | assign {targets targets' values values' loc} :
    List.Forall₂ (Expr.Rebound R) targets targets' →
    List.Forall₂ (Expr.Rebound R) values values' →
    Rebound R (.assign targets values loc) (.assign targets' values' loc)
  | print {printer args args' loc} : List.Forall₂ (Expr.Rebound R) args args' →
    Rebound R (.print printer args loc) (.print printer args' loc)
  | empty : Rebound R .empty .empty

namespace Typing

variable {names vars : List Variable} {s : Surroundings} {R : VarId → VarId → Prop} {α β : Type}

/-! ## Steps that keep names -/

/-- Both arenas have the same names, and the same placeholders. -/
def SameNames (names vars : List Variable) : Prop :=
  ∀ id : VarId, vars[id]?.map (fun v => (v.name, v.isPlaceholder)) =
    names[id]?.map fun v => (v.name, v.isPlaceholder)

/-- From an arena with these names the step ends in one with the same names, and `Q` holds of its
result. -/
def KeepsNames (names : List Variable) (x : Layout α) (Q : α → Prop) : Prop :=
  ∀ slots : Slots, SameNames names slots.vars →
    Ensures x slots fun a slots' => SameNames names slots'.vars ∧ Q a

section Steps

variable {Q : α → Prop} {P : β → Prop}

theorem keepsNames_pure {a : α} (ha : Q a) : KeepsNames names (pure a) Q :=
  fun _ hs => (ensures_pure _ _ _).mpr ⟨hs, ha⟩

theorem KeepsNames.bind {x : Layout α} {f : α → Layout β} (hx : KeepsNames names x Q)
    (hf : ∀ a, Q a → KeepsNames names (f a) P) : KeepsNames names (x >>= f) P :=
  fun slots hs => (ensures_bind _ _ _ _).mpr <|
    (hx slots hs).mono fun a slots' ⟨hs', hq⟩ => hf a hq slots' hs'

theorem keepsNames_lift {x : Except Failure α} (h : Yields x Q) :
    KeepsNames names (liftM x : Layout α) Q :=
  fun _ hs => (ensures_lift _ _ _).mpr <| h.mono fun _ hq => ⟨hs, hq⟩

theorem keepsNames_get {f : Slots → Layout α}
    (h : ∀ slots : Slots, SameNames names slots.vars → KeepsNames names (f slots) Q) :
    KeepsNames names (get >>= f) Q :=
  fun slots hs => (ensures_bind _ _ _ _).mpr <| (ensures_get _ _).mpr (h slots hs slots hs)

theorem keepsNames_mapM {R : α → β → Prop} {f : α → Layout β} :
    ∀ as : List α, (∀ a ∈ as, KeepsNames names (f a) (R a)) →
      KeepsNames names (as.mapM f) (List.Forall₂ R as)
  | [], _ => by
    rw [List.mapM_nil]
    exact keepsNames_pure .nil
  | a :: as, h => by
    rw [List.mapM_cons]
    refine (h a List.mem_cons_self).bind fun b hb => ?_
    refine (keepsNames_mapM as fun a' ha' => h a' (List.mem_cons_of_mem _ ha')).bind fun bs hbs => ?_
    exact keepsNames_pure (.cons hb hbs)

theorem keepsNames_optional {R : α → β → Prop} {f : α → Layout β} (a : Option α)
    (h : ∀ b ∈ a, KeepsNames names (f b) (R b)) :
    KeepsNames names (a.mapM f) (Option.Rel R a) := by
  cases a with
  | none => exact keepsNames_pure .none
  | some a => exact (h a rfl).bind fun b hb => keepsNames_pure (.some hb)

theorem keepsNames_forM {f : α → Layout Unit} :
    ∀ as : List α, (∀ a, KeepsNames names (f a) fun _ => True) →
      KeepsNames names (as.forM f) fun _ => True
  | [], _ => keepsNames_pure trivial
  | a :: as, h => (h a).bind fun _ _ => keepsNames_forM as h

theorem sameNames_modify {id : VarId} {f : Variable → Variable}
    (hf : ∀ v, (f v).name = v.name ∧ (f v).isPlaceholder = v.isPlaceholder)
    (h : SameNames names vars) : SameNames names (vars.modify id f) := by
  intro id'
  rw [← h id', List.getElem?_modify]
  cases vars[id']? with
  | none => rfl
  | some v =>
    by_cases hid : id = id'
    · simp [hid, (hf v).1, (hf v).2]
    · simp [hid]

theorem keepsNames_giveType (id : VarId) (ty : Ty) :
    KeepsNames names (giveType id ty) fun _ => True :=
  fun _ hs => (ensures_modify _ _ _).mpr
    ⟨sameNames_modify (fun v => by split <;> exact ⟨rfl, rfl⟩) hs, trivial⟩

theorem keepsNames_place (id : VarId) : KeepsNames names (place id) fun _ => True := by
  refine keepsNames_get fun slots hs => ?_
  refine (keepsNames_lift fun _ _ => trivial).bind fun v _ => ?_
  dsimp only
  split
  · exact keepsNames_pure trivial
  split
  · exact (keepsNames_lift (Q := fun _ => False) (yields_error _ _)).bind fun _ => False.elim
  split
  · exact keepsNames_lift (yields_error _ _)
  · exact fun _ _ => (ensures_set _ _ _).mpr ⟨sameNames_modify (fun v => ⟨rfl, rfl⟩) hs, trivial⟩

end Steps

/-! ## Expressions -/

/-- What a variable is bound to: itself if it is declared, else **what its name stands for**. -/
def Surroundings.Refers (s : Surroundings) (names : List Variable) (id id' : VarId) : Prop :=
  ∃ v, names[id]? = some v ∧
    (v.isPlaceholder = true ∧ s.find? names v.name = some id' ∨ v.isPlaceholder = false ∧ id' = id)

theorem SameNames.find? (h : SameNames names vars) (name : String) :
    s.find? vars name = s.find? names name := by
  have hnamed : isNamed vars name = isNamed names name := by
    funext id
    have := h id
    rw [isNamed, isNamed]
    cases hv : vars[id]? with
    | none =>
      rw [hv] at this
      rw [Option.map_eq_none_iff.mp this.symm]
    | some v =>
      rw [hv] at this
      obtain ⟨w, hw, hname⟩ := Option.map_eq_some_iff.mp this.symm
      rw [hw, Option.any_some, Option.any_some, (Prod.mk.inj hname).1]
  rw [Surroundings.find?, Surroundings.find?, hnamed]

theorem yields_refers (h : SameNames names vars) (id : VarId) (loc : Nat) :
    Yields (s.bind vars id loc) (s.Refers names id) := by
  unfold Surroundings.bind
  rw [yields_bind]
  refine (yields_variableOf vars id).mono fun v hv => ?_
  have hname := h id
  rw [hv] at hname
  obtain ⟨w, hw, hname⟩ := Option.map_eq_some_iff.mp hname.symm
  obtain ⟨hname, hplaceholder⟩ := Prod.mk.inj hname
  split
  · next hp =>
    split
    · next bound hfound =>
      rw [h.find?, ← hname] at hfound
      exact (yields_pure _ _).mpr ⟨w, hw, .inl ⟨hplaceholder.trans hp, hfound⟩⟩
    · exact yields_error _ _
  · next hp =>
    exact (yields_pure _ _).mpr ⟨w, hw, .inr ⟨hplaceholder.trans (by simpa using hp), rfl⟩⟩

/-- What has been read has no types yet, numbers apart, and `R` relates its variables to **all that
they can be bound to**. -/
def Bindable (names : List Variable) (s : Surroundings)
    (R : VarId → VarId → Prop) : Expr → Prop
  | .num .. => True
  | .var id ty _ => ty.isResolved = false ∧ ∀ id', s.Refers names id id' → R id id'
  | e => e.ty.isResolved = false

theorem yields_typed_var (h : SameNames names vars) {id : VarId} {ty : Ty} (loc : Nat)
    (hty : ty.isResolved = false) :
    Yields (typed s vars (.var id ty loc)) fun e' =>
      ∃ id' ty', e' = .var id' ty' loc ∧ s.Refers names id id' := by
  rw [typed, if_neg (by rw [Expr.ty, hty]; exact Bool.false_ne_true), yields_bind]
  refine (yields_refers h id loc).mono fun id' hid => ?_
  rw [yields_bind]
  exact fun v _ => (yields_pure _ _).mpr ⟨id', v.ty, rfl, hid⟩

theorem yields_typedAll_rebound : ∀ es : List Expr,
    (∀ e ∈ es, Yields (typed s vars e) (Expr.Rebound R e)) →
    Yields (typedAll s vars es) (List.Forall₂ (Expr.Rebound R) es)
  | [], _ => (yields_pure _ _).mpr .nil
  | e :: es, h => by
    rw [typedAll, yields_bind]
    refine (h e List.mem_cons_self).mono fun e' he' => ?_
    rw [yields_bind]
    refine (yields_typedAll_rebound es fun e he =>
      h e (List.mem_cons_of_mem _ he)).mono fun es' hes' => ?_
    exact (yields_pure _ _).mpr (.cons he' hes')

/-- **Typing an expression binds its variables**, and changes nothing else but types. -/
theorem yields_rebound (h : SameNames names vars) {e : Expr}
    (he : e.Everywhere (Bindable names s R)) : Yields (typed s vars e) (e.Rebound R) := by
  have hopen {e : Expr} (hty : e.ty.isResolved = false) : ¬e.ty.isResolved = true := by
    rw [hty]
    exact Bool.false_ne_true
  induction he with
  | @num value ty loc _ =>
    have hnum : (Expr.num value ty loc).Rebound R (.num value (if ty.isResolved then ty else .int) loc) :=
      .num
    rw [typed]
    split
    · next hr =>
      rw [if_pos (show ty.isResolved = true from hr)] at hnum
      exact (yields_pure _ _).mpr hnum
    · next hr =>
      rw [if_neg (show ¬ty.isResolved = true from hr)] at hnum
      exact (yields_pure _ _).mpr hnum
  | str hty =>
    rw [typed, if_neg (hopen hty)]
    exact (yields_pure _ _).mpr .str
  | @var id ty loc hvar =>
    refine (yields_typed_var h loc hvar.1).mono ?_
    rintro _ ⟨id', ty', rfl, hid⟩
    exact .var (hvar.2 id' hid)
  | addr hty _ ih =>
    rw [typed, if_neg (hopen hty), yields_bind]
    exact ih.mono fun _ hoperand => (yields_pure _ _).mpr (.addr hoperand)
  | deref hty _ ih =>
    rw [typed, if_neg (hopen hty), yields_bind]
    exact ih.mono fun _ hoperand => (yields_pure _ _).mpr (.deref hoperand)
  | binary hty _ _ ihl ihr =>
    rw [typed, if_neg (hopen hty), yields_bind]
    refine ihr.mono fun rhs' hrhs => ?_
    rw [yields_bind]
    refine ihl.mono fun lhs' hlhs => ?_
    rw [yields_bind]
    exact fun _ _ => (yields_pure _ _).mpr (.binary hlhs hrhs)
  | index hty _ _ ihb ihp =>
    rw [typed, if_neg (hopen hty), yields_bind]
    refine ihb.mono fun base' hbase => ?_
    rw [yields_bind]
    exact ihp.mono fun position' hposition => (yields_pure _ _).mpr (.index hbase hposition)
  | @call name args ty loc hty _ ih =>
    rw [typed, if_neg (hopen hty), yields_bind]
    refine (yields_typedAll_rebound args ih).mono fun args' hargs => ?_
    rw [yields_bind]
    exact fun _ _ => (yields_pure _ _).mpr (.call hargs)

theorem keepsNames_typedHere {e : Expr} (he : e.Everywhere (Bindable names s R)) :
    KeepsNames names (typedHere s e) (e.Rebound R) :=
  keepsNames_get fun _ hs => keepsNames_lift (yields_rebound hs he)

/-! ## Statements -/

/-- The names that can be referred to are **no placeholders**. -/
def Surroundings.Declares (s : Surroundings) (names : List Variable) : Prop :=
  ∀ id ∈ s.locals ++ s.globals, ∀ v, names[id]? = some v → v.isPlaceholder = false

/-- A variable that has been bound **is bound to itself**. -/
theorem Surroundings.Refers.eq_of_bound (hs : s.Declares names) {id id' id'' : VarId}
    (h : s.Refers names id id') (h' : s.Refers names id' id'') : id'' = id' := by
  obtain ⟨v', hv', ⟨hp, -⟩ | ⟨-, heq⟩⟩ := h'
  · obtain ⟨v, hv, ⟨-, hfound⟩ | ⟨hp', rfl⟩⟩ := h
    · rw [hs id' (List.mem_of_find?_eq_some hfound) v' hv'] at hp
      cases hp
    · cases hv.symm.trans hv'
      rw [hp'] at hp
      cases hp
  · exact heq

/-- What becomes of the target of an assignment, **in its two steps**. -/
theorem keepsNames_target (hs : s.Declares names) {target : Expr} {ty : Ty}
    (ht : target.Everywhere (Bindable names s R)) :
    KeepsNames names (inferred s target ty >>= typedHere s) (target.Rebound R) := by
  have hother (hinferred : inferred s target ty = pure target) :
      KeepsNames names (inferred s target ty >>= typedHere s) (target.Rebound R) := by
    rw [hinferred]
    refine (keepsNames_pure (Q := fun e => e = target) rfl).bind ?_
    rintro _ rfl
    exact keepsNames_typedHere ht
  cases target with
  | var id t loc =>
    obtain ⟨hty, hR⟩ := ht.here
    have hinferred : KeepsNames names (inferred s (.var id t loc) ty) fun e =>
        ∃ bound, e = .var bound t loc ∧ s.Refers names id bound := by
      refine keepsNames_get fun slots hnames => ?_
      refine (keepsNames_lift (yields_refers hnames id loc)).bind fun bound hbound => ?_
      exact (keepsNames_giveType bound ty).bind fun _ _ => keepsNames_pure ⟨bound, rfl, hbound⟩
    refine hinferred.bind ?_
    rintro _ ⟨bound, rfl, hbound⟩
    refine keepsNames_get fun slots hnames => keepsNames_lift ?_
    refine (yields_typed_var hnames loc hty).mono ?_
    rintro _ ⟨id', ty', rfl, hid⟩
    exact .var (hbound.eq_of_bound hs hid ▸ hR bound hbound)
  | _ => exact hother rfl

theorem keepsNames_typedPair (hs : s.Declares names) {target value : Expr}
    (ht : target.Everywhere (Bindable names s R)) (hv : value.Everywhere (Bindable names s R)) :
    KeepsNames names (typedPair s (target, value)) fun pair =>
      target.Rebound R pair.1 ∧ value.Rebound R pair.2 := by
  unfold typedPair
  refine (keepsNames_typedHere hv).bind fun value' hvalue => ?_
  dsimp only
  split
  · exact (keepsNames_lift (Q := fun _ => False) (yields_error _ _)).bind fun _ => False.elim
  rw [← bind_assoc]
  refine (keepsNames_target hs ht).bind fun target' htarget => ?_
  refine (keepsNames_lift fun _ _ => trivial).bind fun _ _ => ?_
  split
  · exact (keepsNames_place _).bind fun _ _ => keepsNames_pure ⟨htarget, hvalue⟩
  · exact keepsNames_pure ⟨htarget, hvalue⟩

theorem keepsNames_typedAssignment (hs : s.Declares names) {targets values : List Expr} {loc : Nat}
    (ht : ∀ e ∈ targets, e.Everywhere (Bindable names s R))
    (hv : ∀ e ∈ values, e.Everywhere (Bindable names s R)) :
    KeepsNames names (typedAssignment s targets values loc)
      (Stmt.Rebound R (.assign targets values loc)) := by
  unfold typedAssignment
  dsimp only
  split
  · exact (keepsNames_lift (Q := fun _ => False) (yields_error _ _)).bind fun _ => False.elim
  next hlength =>
  replace hlength := not_not.mp hlength
  refine (keepsNames_mapM (R := fun pair pair' : Expr × Expr =>
    pair.1.Rebound R pair'.1 ∧ pair.2.Rebound R pair'.2) (targets.zip values)
    fun ⟨target, value⟩ hmem => ?_).bind fun pairs hpairs => keepsNames_pure ?_
  · obtain ⟨hmt, hmv⟩ := List.of_mem_zip hmem
    exact keepsNames_typedPair hs (ht target hmt) (hv value hmv)
  · have htargets : List.Forall₂ (Expr.Rebound R) ((targets.zip values).map (·.1))
        (pairs.map (·.1)) :=
      List.forall₂_map_left_iff.mpr (List.forall₂_map_right_iff.mpr (hpairs.imp fun _ _ h => h.1))
    have hvalues : List.Forall₂ (Expr.Rebound R) ((targets.zip values).map (·.2))
        (pairs.map (·.2)) :=
      List.forall₂_map_left_iff.mpr (List.forall₂_map_right_iff.mpr (hpairs.imp fun _ _ h => h.2))
    rw [show (targets.zip values).map (·.1) = targets from List.map_fst_zip hlength.le] at htargets
    rw [show (targets.zip values).map (·.2) = values from List.map_snd_zip hlength.ge] at hvalues
    exact .assign htargets hvalues

theorem keepsNames_typedStmts : ∀ stmts : List Stmt,
    (∀ st ∈ stmts, KeepsNames names (typedStmt s st) (Stmt.Rebound R st)) →
    KeepsNames names (typedStmts s stmts) (List.Forall₂ (Stmt.Rebound R) stmts)
  | [], _ => keepsNames_pure .nil
  | st :: stmts, h => by
    rw [typedStmts]
    refine (h st List.mem_cons_self).bind fun st' hst => ?_
    refine (keepsNames_typedStmts stmts fun st hst => h st (List.mem_cons_of_mem _ hst)).bind
      fun stmts' hstmts => ?_
    exact keepsNames_pure (.cons hst hstmts)

/-- **Typing a statement binds its variables**, and changes nothing else but types. -/
theorem keepsNames_typedStmt (hs : s.Declares names) {st : Stmt}
    (h : st.Everywhere (Bindable names s R) fun _ => True) :
    KeepsNames names (typedStmt s st) (Stmt.Rebound R st) := by
  have heach {es : List Expr} (hes : ∀ e ∈ es, e.Everywhere (Bindable names s R)) :
      KeepsNames names (es.mapM (typedHere s)) (List.Forall₂ (Expr.Rebound R) es) :=
    keepsNames_mapM es fun e he => keepsNames_typedHere (hes e he)
  have hoptional {value : Option Expr} (hvalue : ∀ e ∈ value, e.Everywhere (Bindable names s R)) :
      KeepsNames names (value.mapM (typedHere s)) (Option.Rel (Expr.Rebound R) value) :=
    keepsNames_optional value fun e he => keepsNames_typedHere (hvalue e he)
  induction h with
  | expr _ he =>
    rw [typedStmt]
    exact (keepsNames_typedHere he).bind fun _ hvalue => keepsNames_pure (.expr hvalue)
  | ret _ he =>
    rw [typedStmt]
    exact (hoptional he).bind fun _ hvalue => keepsNames_pure (.ret hvalue)
  | block _ _ ih =>
    rw [typedStmt]
    exact (keepsNames_typedStmts _ ih).bind fun _ hbody => keepsNames_pure (.block hbody)
  | branch _ _ hc _ _ ihi ihb iho =>
    rw [typedStmt]
    refine ihi.bind fun _ hinit => (keepsNames_typedHere hc).bind fun _ hcond => ?_
    refine (keepsNames_typedStmts _ ihb).bind fun _ hbody => iho.bind fun _ hotherwise => ?_
    exact keepsNames_pure (.branch hinit hcond hbody hotherwise)
  | loop _ _ hc _ _ ihi ihp ihb =>
    rw [typedStmt]
    refine ihi.bind fun _ hinit => (hoptional hc).bind fun _ hcond => ?_
    refine (keepsNames_typedStmts _ ihb).bind fun _ hbody => ihp.bind fun _ hpost => ?_
    exact keepsNames_pure (.loop hinit hcond hpost hbody)
  | assign _ ht hv =>
    rw [typedStmt]
    exact keepsNames_typedAssignment hs ht hv
  | print _ ha =>
    rw [typedStmt]
    exact (heach ha).bind fun _ hargs => keepsNames_pure (.print hargs)
  | empty => exact keepsNames_pure .empty

/-! ## Functions -/

/-- **Typing a function binds the variables in its body.** -/
theorem keepsNames_typedFunction {globals : List VarId} {signatures : List Signature}
    {f : Function} (hs : Surroundings.Declares ⟨f.locals, globals, signatures⟩ names)
    (hf : ∀ st ∈ f.body,
      st.Everywhere (Bindable names ⟨f.locals, globals, signatures⟩ R) fun _ => True) :
    KeepsNames names (typedFunction globals signatures f) fun f' =>
      List.Forall₂ (Stmt.Rebound R) f.body f'.body := by
  rw [typedFunction_eq]
  have hlaid : KeepsNames names (laidOut ⟨f.locals, globals, signatures⟩ f)
      (List.Forall₂ (Stmt.Rebound R) f.body) := by
    refine (keepsNames_forM _ keepsNames_place).bind fun _ _ => ?_
    refine (keepsNames_typedStmts _ fun st hst => keepsNames_typedStmt hs (hf st hst)).bind
      fun body hbody => ?_
    exact (keepsNames_forM _ keepsNames_place).bind fun _ _ => keepsNames_pure hbody
  refine KeepsNames.bind (Q := fun _ => True)
    (fun _ hnames => (ensures_modify _ _ _).mpr ⟨hnames, trivial⟩) fun _ _ => ?_
  refine hlaid.bind fun body hbody => keepsNames_get fun slots _ => ?_
  split
  · exact keepsNames_lift (yields_error _ _)
  · exact keepsNames_pure hbody

end Typing

/-! ## Programs -/

/-- In the function, what was read as the number `id` is now the number `id'`: a declared variable
of the **same name**, which is a local of the function, or a package-level variable where the
function has no local of that name. -/
def Program.Refers (p p' : Program) (f : Function) (id id' : VarId) : Prop :=
  ∃ v v', p.vars[id]? = some v ∧ p'.vars[id']? = some v' ∧ v'.name = v.name ∧
    v'.isPlaceholder = false ∧
    (id' ∈ f.locals ∨
      id' ∈ p'.globals ∧ ∀ l ∈ f.locals, ∀ w, p'.vars[l]? = some w → w.name ≠ v.name)

section Programs

variable {p p' : Program} {f : Function}

theorem yields_rebound_resolve {R : Function → VarId → VarId → Prop}
    (hs : ∀ f ∈ p.funcs, Surroundings.Declares ⟨f.locals, p.globals, p.signatures⟩ p.vars)
    (hR : ∀ f ∈ p.funcs, ∀ st ∈ f.body, st.Everywhere
      (Bindable p.vars ⟨f.locals, p.globals, p.signatures⟩ (R f)) fun _ => True) :
    Yields p.resolve fun p' =>
      List.Forall₂ (fun f f' => List.Forall₂ (Stmt.Rebound (R f)) f.body f'.body) p.funcs p'.funcs := by
  unfold Program.resolve
  rw [yields_bind]
  refine fun _ _ => (yields_bind _ _ _).mpr ?_
  have hfuncs : KeepsNames p.vars (p.funcs.mapM (typedFunction p.globals p.signatures))
      (List.Forall₂ (fun f f' => List.Forall₂ (Stmt.Rebound (R f)) f.body f'.body) p.funcs) :=
    keepsNames_mapM p.funcs fun f hf => keepsNames_typedFunction (hs f hf) (hR f hf)
  refine (hfuncs ⟨p.vars, 0⟩ fun _ => rfl).run.mono fun ⟨funcs, slots⟩ ⟨_, hbodies⟩ => ?_
  rw [yields_bind]
  exact fun _ _ => (yields_pure _ _).mpr hbodies

theorem Program.Read.declares (hread : p.Read) (hf : f ∈ p.funcs) :
    Surroundings.Declares ⟨f.locals, p.globals, p.signatures⟩ p.vars := by
  intro id hid v hv
  obtain ⟨first, last, hfread⟩ := hread.funcs.exists_read hf
  rcases List.mem_append.mp hid with hid | hid
  · obtain ⟨-, w, hw, -, hp⟩ := hfread.locals id hid
    cases hv.symm.trans hw
    exact hp
  · obtain ⟨w, hw, -, hp⟩ := hread.globals id hid
    cases hv.symm.trans hw
    exact hp

/-- What a variable of a body is bound to is **what its name stands for** in the function. -/
theorem Program.Read.refers (hread : p.Read) (hp : p.Resolved p') {first last : Nat}
    (hf : f.Read p.vars p.strings.length first last) {id : VarId}
    (hid : InArena p.vars (fun id => first ≤ id ∧ id < last) id) {ty : Ty} {loc : Nat}
    (hunhidden : (Expr.var id ty loc).Unhidden p.vars f.locals) {id' : VarId}
    (h : Surroundings.Refers ⟨f.locals, p.globals, p.signatures⟩ p.vars id id') :
    p.Refers p' f id id' := by
  obtain ⟨v, hv, h⟩ := h
  -- names do not change, so it does not matter in which arena they are looked up
  have hlater {id' : VarId} {w : Variable} (hw : p.vars[id']? = some w) :
      ∃ w', p'.vars[id']? = some w' ∧ w'.name = w.name ∧ w'.isPlaceholder = w.isPlaceholder := by
    obtain ⟨w', hw', hfill⟩ := hp.fills.at_number hw
    exact ⟨w', hw', hfill.name, hfill.isPlaceholder⟩
  have hearlier {name : String}
      (h : ∀ l ∈ f.locals, ∀ w, p.vars[l]? = some w → w.name ≠ name) :
      ∀ l ∈ f.locals, ∀ w, p'.vars[l]? = some w → w.name ≠ name := fun l hl w' hw' => by
    obtain ⟨w, hw, hfill⟩ := hp.fills.at_number_of_later hw'
    rw [hfill.name]
    exact h l hl w hw
  have hnamed {id' : VarId} (h : isNamed p.vars v.name id' = true) :
      ∃ w, p.vars[id']? = some w ∧ w.name = v.name := by
    obtain ⟨w, hw, hname⟩ := Option.any_eq_true _ _ |>.mp h
    exact ⟨w, hw, beq_iff_eq.mp hname⟩
  rcases h with ⟨-, hfound⟩ | ⟨hplaceholder, rfl⟩
  · rw [Surroundings.find?, List.find?_append, Option.or_eq_some_iff] at hfound
    rcases hfound with hlocal | ⟨hnone, hglobal⟩
    · have hmem := List.mem_of_find?_eq_some hlocal
      obtain ⟨w, hw, hname⟩ := hnamed (List.find?_some hlocal)
      obtain ⟨-, u, hu, -, hdeclared⟩ := hf.locals id' hmem
      cases hw.symm.trans hu
      obtain ⟨w', hw', hname', hplaceholder⟩ := hlater hw
      exact ⟨v, w', hv, hw', hname'.trans hname, hplaceholder.trans hdeclared, .inl hmem⟩
    · have hmem := List.mem_of_find?_eq_some hglobal
      obtain ⟨w, hw, hname⟩ := hnamed (List.find?_some hglobal)
      obtain ⟨u, hu, -, hdeclared⟩ := hread.globals id' hmem
      cases hw.symm.trans hu
      obtain ⟨w', hw', hname', hplaceholder⟩ := hlater hw
      refine ⟨v, w', hv, hw', hname'.trans hname, hplaceholder.trans hdeclared,
        .inr ⟨hp.globals ▸ hmem, hearlier fun l hl u hu hname => ?_⟩⟩
      have := List.find?_eq_none.mp hnone l hl
      simp [isNamed, hu, hname] at this
  · obtain ⟨w, hw, hplaceholder'⟩ := hlater hv
    refine ⟨v, w, hv, hw, hplaceholder'.1, hplaceholder'.2.trans hplaceholder, ?_⟩
    obtain ⟨u, hu, hown⟩ := hid
    cases hv.symm.trans hu
    cases hl : v.isLocal with
    | true => exact .inl (hf.listed _ v (hown hl).1 (hown hl).2 hv hplaceholder hl)
    | false =>
      obtain ⟨u, hu, hname⟩ := hunhidden
      cases hv.symm.trans hu
      exact .inr ⟨hp.globals ▸ hread.listed _ v hv hplaceholder hl,
        hearlier (hname hplaceholder hl)⟩

theorem Program.Read.bindable (hread : p.Read) (hp : p.Resolved p') (hf : f ∈ p.funcs) {st : Stmt}
    (hst : st ∈ f.body) :
    st.Everywhere (Bindable p.vars ⟨f.locals, p.globals, p.signatures⟩ (p.Refers p' f))
      fun _ => True := by
  obtain ⟨first, last, hfread⟩ := hread.funcs.exists_read hf
  refine ((hfread.body st hst).and (hfread.unhidden st hst)).mono (fun e he => ?_) fun _ _ => trivial
  obtain ⟨hrule, hunhidden⟩ := he
  cases e with
  | num => trivial
  | str => exact hrule.1 ▸ rfl
  | var id ty loc =>
    exact ⟨hrule.1 ▸ rfl, fun id' h => hread.refers hp hfread hrule.2 hunhidden h⟩
  | addr => exact hrule.1 ▸ rfl
  | deref | binary | index | call => exact hrule ▸ rfl

/-- **A name stands for one variable** in a function. -/
theorem Program.Refers.unique (hread : p.Read) (hp : p.Resolved p') (hf : f ∈ p.funcs)
    {id₁ id₂ id₁' id₂' : VarId} {v₁ v₂ : Variable} (hv₁ : p.vars[id₁]? = some v₁)
    (hv₂ : p.vars[id₂]? = some v₂) (hname : v₁.name = v₂.name) (h₁ : p.Refers p' f id₁ id₁')
    (h₂ : p.Refers p' f id₂ id₂') : id₁' = id₂' := by
  obtain ⟨first, last, hfread⟩ := hread.funcs.exists_read hf
  obtain ⟨u₁, w₁, hu₁, hw₁, hname₁, -, hvisible₁⟩ := h₁
  obtain ⟨u₂, w₂, hu₂, hw₂, hname₂, -, hvisible₂⟩ := h₂
  cases hv₁.symm.trans hu₁
  cases hv₂.symm.trans hu₂
  obtain ⟨x₁, hx₁, hfill₁⟩ := hp.fills.at_number_of_later hw₁
  obtain ⟨x₂, hx₂, hfill₂⟩ := hp.fills.at_number_of_later hw₂
  have hsame : x₁.name = x₂.name := by
    rw [← hfill₁.name, ← hfill₂.name, hname₁, hname₂, hname]
  rcases hvisible₁ with hmem₁ | ⟨hmem₁, hnone₁⟩ <;> rcases hvisible₂ with hmem₂ | ⟨hmem₂, hnone₂⟩
  · exact hfread.distinct id₁' hmem₁ id₂' hmem₂ x₁ x₂ hx₁ hx₂ hsame
  · exact absurd (hname₁.trans hname) (hnone₂ id₁' hmem₁ w₁ hw₁)
  · exact absurd (hname₂.trans hname.symm) (hnone₁ id₂' hmem₂ w₂ hw₂)
  · rw [hp.globals] at hmem₁ hmem₂
    exact hread.distinct id₁' hmem₁ id₂' hmem₂ x₁ x₂ hx₁ hx₂ hsame

/-- **Names are bound by what the function and the package declare.**  In the body of every function,
the implicit one included, a variable that was read becomes the declared variable that its name
stands for in that function; the name alone decides which; and no function has a local of another
one, or a package-level variable among its locals. -/
theorem binds_of_resolve {source : List Char} {tokens : List Token}
    (h : Program.ofTokens source tokens = .ok p) (h' : p.resolve = .ok p') :
    List.Forall₂ (fun f f' => SameHead f f' ∧
      List.Forall₂ (Stmt.Rebound (p.Refers p' f)) f.body f'.body) p.funcs p'.funcs ∧
    (∀ f ∈ p.funcs, ∀ (id₁ id₂ id₁' id₂' : VarId) (v₁ v₂ : Variable), p.vars[id₁]? = some v₁ →
      p.vars[id₂]? = some v₂ → v₁.name = v₂.name → p.Refers p' f id₁ id₁' →
        p.Refers p' f id₂ id₂' → id₁' = id₂') ∧
    p.funcs.Pairwise (fun f g => f.locals.Disjoint g.locals) ∧
    ∀ f ∈ p.funcs, f.locals.Disjoint p'.globals := by
  have hread := Program.read_of_ofTokens h
  have hp := hread.resolve_outcome.1 p' h'
  refine ⟨?_, fun f hf _ _ _ _ _ _ hv₁ hv₂ hname h₁ h₂ => h₁.unique hread hp hf hv₁ hv₂ hname h₂,
    hread.funcs.disjoint, fun f hf id hl hg => ?_⟩
  · exact List.Forall₂.mp (fun _ _ hhead hbody => ⟨hhead, hbody⟩) hp.heads
      (yields_rebound_resolve (fun f hf => hread.declares hf)
        (fun f hf st hst => hread.bindable hp hf hst) p' h')
  · obtain ⟨first, last, hfread⟩ := hread.funcs.exists_read hf
    obtain ⟨-, v, hv, hlocal, -⟩ := hfread.locals id hl
    obtain ⟨w, hw, hglobal, -⟩ := hread.globals id (hp.globals ▸ hg)
    cases hv.symm.trans hw
    rw [hlocal] at hglobal
    cases hglobal

/-- A local and a package-level variable that are read before they are declared. -/
def textOfLateNames : String :=
  "package p func f() \x7b y := x; var x int; y = g \x7d var g int; func main() \x7b f() \x7d"

/-- Two placeholders have been read there, **and both are bound**. -/
theorem binds_of_late_names :
    ∃ tokens p p', tokensOf textOfLateNames.toList = .ok tokens ∧
      Program.ofTokens textOfLateNames.toList tokens = .ok p ∧ p.resolve = .ok p' ∧
      (p'.vars.filter (·.isPlaceholder)).length = 2 ∧
      List.Forall₂ (fun f f' => SameHead f f' ∧
        List.Forall₂ (Stmt.Rebound (p.Refers p' f)) f.body f'.body) p.funcs p'.funcs := by
  obtain ⟨p', hp', hcount⟩ := exists_ok_of_any (P := fun p' : Program =>
    (p'.vars.filter (·.isPlaceholder)).length == 2)
    (x := Program.ofSource textOfLateNames.toList) (by decide +kernel)
  obtain ⟨tokens, p, htokens, hread, hresolve⟩ := Program.ofSource_ok hp'
  exact ⟨tokens, p, p', htokens, hread, hresolve, beq_iff_eq.mp hcount,
    (binds_of_resolve hread hresolve).1⟩

end Programs

end StackCompiler
