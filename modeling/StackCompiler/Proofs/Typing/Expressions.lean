import StackCompiler.Proofs.Grammar.Expressions
import StackCompiler.Proofs.Typing.Slots

/-!
# Proofs/Typing/Expressions — what typing makes of an expression

A typed node has the type that its form and the nodes under it ask for (`Expr.TypedRule`).  The one
node whose type may still be missing is a variable that was read **before it had one**, and what
points at such a variable.
-/

namespace StackCompiler

open Typing

/-! ## The rule of a typed tree -/

/-- What holds of a node that has been typed. -/
def Expr.TypedRule (vars : List Variable) (strings : Nat) (signatures : List Signature)
    (own : VarId → Prop) : Expr → Prop
  | .num _ ty _ =>
    ty.isResolved = true ∧ ty.isString = false ∧ ty.isArray = false ∧ ty.Proper
  | .str string ty _ => ty = .string ∧ string < strings
  | .var id ty _ => InArena vars own id ∧
    ∀ v, vars[id]? = some v → v.isPlaceholder = false ∧ (ty.isResolved = true → ty = v.ty)
  | .addr operand ty _ => ty = .ptr operand.ty ∧ operand.isLvalue = true
  | .deref operand ty _ => ty = pointeeTy operand.ty
  | .binary op lhs rhs ty _ => lhs.ty.kind = rhs.ty.kind ∧ lhs.ty.isResolved = true ∧
    lhs.ty.isString = false ∧ lhs.ty.isArray = false ∧
    ty = if op.isComparison then .bool else lhs.ty
  | .index base _ ty _ => ty = elementTy base.ty
  | .call name args ty _ => ty = .int ∧ ∃ signature ∈ signatures, signature.name = name ∧
    List.Forall₂ (fun arg param => arg.ty.words = param.words) args signature.params

/-- The variable is in the arena, one of the function's own if it is a local, and **no
placeholder**. -/
def IsDeclared (vars : List Variable) (own : VarId → Prop) (id : VarId) : Prop :=
  ∃ v, vars[id]? = some v ∧ (v.isLocal = true → own id) ∧ v.isPlaceholder = false

section Rules

variable {vars vars' : List Variable} {strings : Nat} {signatures : List Signature}
  {own own' : VarId → Prop} {e : Expr}

theorem IsDeclared.inArena {id : VarId} (h : IsDeclared vars own id) : InArena vars own id := by
  obtain ⟨v, hv, hown, -⟩ := h
  exact ⟨v, hv, hown⟩

theorem InArena.fills {id : VarId} (h : InArena vars own id) (hf : Fills own' vars vars') :
    InArena vars' own id := by
  obtain ⟨v, hv, hown⟩ := h
  obtain ⟨v', hv', hfill⟩ := hf.at_number hv
  exact ⟨v', hv', fun hl => hown (hfill.isLocal ▸ hl)⟩

/-- A tree that has been read is one **in every arena that is filled in**. -/
theorem Expr.ReadRule.fills (hf : Fills own' vars vars') (e : Expr)
    (h : e.ReadRule vars strings own) : e.ReadRule vars' strings own := by
  cases e with
  | var id ty loc => exact ⟨h.1, h.2.fills hf⟩
  | _ => exact h

theorem Expr.TypedRule.fills (hf : Fills own' vars vars') (e : Expr)
    (h : e.TypedRule vars strings signatures own) : e.TypedRule vars' strings signatures own := by
  cases e with
  | var id ty loc =>
    refine ⟨h.1.fills hf, fun v' hv' => ?_⟩
    obtain ⟨v, hv, hfill⟩ := hf.at_number_of_later hv'
    obtain ⟨hp, hty⟩ := h.2 v hv
    refine ⟨hfill.isPlaceholder.trans hp, fun hr => ?_⟩
    rw [hty hr, hfill.ty (hty hr ▸ hr)]
  | _ => exact h

theorem pointeeTy_proper {t : Ty} (h : t.Proper) : (pointeeTy t).Proper := by
  cases t with
  | ptr base => exact h
  | _ => trivial

theorem elementTy_proper {t : Ty} (h : t.Proper) : (elementTy t).Proper := by
  cases t with
  | array base len => exact h.1
  | _ => trivial

/-- The types in a typed tree are **proper** if those of the variables are. -/
theorem Expr.Everywhere.proper (hvars : ∀ (id : VarId) (v : Variable), vars[id]? = some v → v.ty.Proper)
    (h : e.Everywhere (TypedRule vars strings signatures own)) : e.ty.Proper := by
  induction h with
  | num h => exact h.2.2.2
  | str h => rw [Expr.ty, h.1]; trivial
  | @var id ty loc h =>
    obtain ⟨v, hv, -⟩ := h.1
    cases hr : ty.isResolved with
    | true => rw [Expr.ty, (h.2 v hv).2 hr]; exact hvars id v hv
    | false => cases ty <;> trivial
  | addr h _ ih => rw [Expr.ty, h.1]; exact ih
  | deref h _ ih => rw [Expr.ty, h]; exact pointeeTy_proper ih
  | binary h _ _ ihl _ =>
    rw [Expr.ty, h.2.2.2.2]
    split
    · trivial
    · exact ihl
  | index h _ _ ihb _ => rw [Expr.ty, h]; exact elementTy_proper ihb
  | call h => rw [Expr.ty, h.1]; trivial

/-- The variable that holds a place is in the arena, and **has been declared**. -/
theorem Expr.Everywhere.root_declared (h : e.Everywhere (TypedRule vars strings signatures own))
    {id : VarId} (hroot : e.root? = some id) : IsDeclared vars own id := by
  induction h with
  | @var id ty loc h =>
    cases hroot
    obtain ⟨v, hv, hown⟩ := h.1
    exact ⟨v, hv, hown, (h.2 v hv).1⟩
  | index _ _ _ ihb _ => exact ihb hroot
  | _ => cases hroot

end Rules

namespace Typing

/-! ## Names and calls -/

/-- The names that a body can refer to are those of its own locals, and of globals. -/
structure Surroundings.Sound (own : VarId → Prop) (vars : List Variable) (s : Surroundings) :
    Prop where
  locals : ∀ id ∈ s.locals, own id ∧ ∃ v, vars[id]? = some v ∧ v.isPlaceholder = false
  globals : ∀ id ∈ s.globals, ∃ v, vars[id]? = some v ∧ v.isLocal = false ∧
    v.isPlaceholder = false

section Names

variable {own : VarId → Prop} {vars vars' : List Variable} {s : Surroundings}

theorem Surroundings.Sound.fills (hs : s.Sound own vars) (hf : Fills own vars vars') :
    s.Sound own vars' where
  locals id hid := by
    obtain ⟨hown, v, hv, hp⟩ := hs.locals id hid
    obtain ⟨v', hv', hfill⟩ := hf.at_number hv
    exact ⟨hown, v', hv', hfill.isPlaceholder.trans hp⟩
  globals id hid := by
    obtain ⟨v, hv, hglobal, hp⟩ := hs.globals id hid
    obtain ⟨v', hv', hfill⟩ := hf.at_number hv
    exact ⟨v', hv', hfill.isLocal.trans hglobal, hfill.isPlaceholder.trans hp⟩

/-- What a variable is bound to **has been declared**. -/
theorem yields_bound (hs : s.Sound own vars) {id : VarId} (hid : InArena vars own id)
    (loc : Nat) : Yields (s.bind vars id loc) (IsDeclared vars own) := by
  unfold Surroundings.bind
  rw [yields_bind]
  refine (yields_variableOf vars id).mono fun v hv => ?_
  split
  · split
    · next bound hfound =>
      rw [yields_pure]
      rcases List.mem_append.mp (List.mem_of_find?_eq_some hfound) with hmem | hmem
      · obtain ⟨hown, w, hw, hp⟩ := hs.locals bound hmem
        exact ⟨w, hw, fun _ => hown, hp⟩
      · obtain ⟨w, hw, hglobal, hp⟩ := hs.globals bound hmem
        exact ⟨w, hw, fun hl => by (rw [hglobal] at hl; cases hl), hp⟩
    · exact yields_error _ _
  · next hp =>
    obtain ⟨w, hw, hown⟩ := hid
    cases hv.symm.trans hw
    exact (yields_pure _ _).mpr ⟨v, hv, hown, by simpa using hp⟩

theorem yields_checkArguments (name : String) :
    ∀ (args : List Expr) (params : List Ty), args.length = params.length →
      Yields (checkArguments name args params) fun _ =>
        List.Forall₂ (fun arg param => arg.ty.words = param.words) args params
  | [], [], _ => (yields_pure _ _).mpr .nil
  | arg :: args, param :: params, hlen => by
    unfold checkArguments
    split
    · exact yields_error _ _
    · next h =>
      exact (yields_checkArguments name args params (Nat.succ.inj hlen)).mono fun _ hrest =>
        .cons (not_not.mp h) hrest

/-- A call agrees **word for word** with a function of that name. -/
theorem yields_checkCall (s : Surroundings) (name : String) (args : List Expr) (loc : Nat) :
    Yields (checkCall s name args loc) fun _ => ∃ signature ∈ s.signatures, signature.name = name ∧
      List.Forall₂ (fun arg param => arg.ty.words = param.words) args signature.params := by
  unfold checkCall
  split
  · exact yields_error _ _
  · next signature hfound =>
    split
    · exact yields_error _ _
    · next hlen =>
      refine (yields_checkArguments name args _ (not_not.mp hlen).symm).mono fun _ h => ?_
      exact ⟨signature, List.mem_of_find?_eq_some hfound,
        by simpa using List.find?_some hfound, h⟩

/-- Arguments take the words of the parameters, and **have types** because those have. -/
theorem arguments_words {args : List Expr} {params : List Ty}
    (h : List.Forall₂ (fun arg param => arg.ty.words = param.words) args params)
    (hr : ∀ ty ∈ params, ty.isResolved = true) :
    Ty.totalWords (args.map Expr.ty) = Ty.totalWords params ∧
      ∀ arg ∈ args, arg.ty.isResolved = true := by
  induction h with
  | nil => exact ⟨rfl, nofun⟩
  | @cons arg param args params hwords _ ih =>
    obtain ⟨hparam, hparams⟩ := List.forall_mem_cons.mp hr
    obtain ⟨hsum, hargs⟩ := ih hparams
    refine ⟨?_, List.forall_mem_cons.mpr ⟨Ty.isResolved_of_words_eq hwords hparam, hargs⟩⟩
    rw [List.map_cons, Ty.totalWords, Ty.totalWords, hwords, hsum]

end Names

/-! ## Expressions -/

section Expressions

variable {own : VarId → Prop} {vars : List Variable} {strings : Nat} {s : Surroundings}

/-- The expression is a typed tree. -/
abbrev Typed (own : VarId → Prop) (vars : List Variable) (strings : Nat)
    (signatures : List Signature) (e : Expr) : Prop :=
  e.Everywhere (Expr.TypedRule vars strings signatures own)

/-- What typing makes of an expression: a typed tree, and a place out of a place. -/
def TypedFrom (own : VarId → Prop) (vars : List Variable) (strings : Nat)
    (signatures : List Signature) (e e' : Expr) : Prop :=
  Typed own vars strings signatures e' ∧ (e.isLvalue = true → e'.isLvalue = true)

theorem yields_typedAll {P : Expr → Prop} :
    ∀ es : List Expr, (∀ e ∈ es, Yields (typed s vars e) P) →
      Yields (typedAll s vars es) fun es' => ∀ e' ∈ es', P e'
  | [], _ => (yields_pure _ _).mpr fun _ h => absurd h List.not_mem_nil
  | e :: es, h => by
    rw [typedAll, yields_bind]
    refine (h e List.mem_cons_self).mono fun e' he' => ?_
    rw [yields_bind]
    refine (yields_typedAll es fun e he => h e (List.mem_cons_of_mem _ he)).mono fun es' hes' => ?_
    exact (yields_pure _ _).mpr (List.forall_mem_cons.mpr ⟨he', hes'⟩)

theorem yields_operationTy (op : BinaryOp) (lhs rhs : Ty) (loc : Nat) :
    Yields (operationTy op lhs rhs loc) fun ty => lhs.kind = rhs.kind ∧ lhs.isResolved = true ∧
      lhs.isString = false ∧ lhs.isArray = false ∧ ty = if op.isComparison then .bool else lhs := by
  unfold operationTy
  split
  · exact yields_error _ _
  next hkind =>
  split
  · exact yields_error _ _
  next h =>
  simp only [Bool.not_eq_true', Bool.or_eq_true, not_or, Bool.not_eq_true, Bool.not_eq_false] at h
  exact (yields_pure _ _).mpr ⟨not_not.mp hkind, h.1.1, h.1.2, h.2, rfl⟩

/-- **Typing makes a typed tree of a tree that has been read.** -/
theorem yields_typed (hs : s.Sound own vars) {e : Expr}
    (he : e.Everywhere (Expr.ReadRule vars strings own)) :
    Yields (typed s vars e) (TypedFrom own vars strings s.signatures e) := by
  induction he with
  | num h =>
    rw [typed]
    split
    · next hr => exact (yields_pure _ _).mpr ⟨.num ⟨hr, h⟩, nofun⟩
    · exact (yields_pure _ _).mpr ⟨.num ⟨rfl, rfl, rfl, trivial⟩, nofun⟩
  | str h =>
    obtain ⟨rfl, hlt⟩ := h
    exact (yields_pure _ _).mpr ⟨.str ⟨rfl, hlt⟩, nofun⟩
  | @var id ty loc h =>
    obtain ⟨rfl, hid⟩ := h
    rw [typed, if_neg (by exact nofun), yields_bind]
    refine (yields_bound hs hid loc).mono fun bound hbound => ?_
    rw [yields_bind]
    refine (yields_variableOf vars bound).mono fun v hv => (yields_pure _ _).mpr ?_
    refine ⟨.var ⟨hbound.inArena, fun w hw => ?_⟩, fun _ => rfl⟩
    obtain ⟨w', hw', -, hp⟩ := hbound
    cases hw'.symm.trans hw
    exact ⟨hp, fun _ => by cases hv.symm.trans hw; rfl⟩
  | addr h _ ih =>
    obtain ⟨rfl, hplace⟩ := h
    rw [typed, if_neg (by exact nofun), yields_bind]
    refine ih.mono fun operand ⟨hoperand, hl⟩ => (yields_pure _ _).mpr ?_
    exact ⟨.addr ⟨rfl, hl hplace⟩ hoperand, nofun⟩
  | deref h _ ih =>
    obtain rfl := h
    rw [typed, if_neg (by exact nofun), yields_bind]
    exact ih.mono fun operand hoperand => (yields_pure _ _).mpr ⟨.deref rfl hoperand.1, fun _ => rfl⟩
  | binary h _ _ ihl ihr =>
    obtain rfl := h
    rw [typed, if_neg (by exact nofun), yields_bind]
    refine ihr.mono fun rhs hrhs => ?_
    rw [yields_bind]
    refine ihl.mono fun lhs hlhs => ?_
    rw [yields_bind]
    refine (yields_operationTy _ lhs.ty rhs.ty _).mono fun ty hty => (yields_pure _ _).mpr ?_
    exact ⟨.binary hty hlhs.1 hrhs.1, nofun⟩
  | index h _ _ ihb ihp =>
    obtain rfl := h
    rw [typed, if_neg (by exact nofun), yields_bind]
    refine ihb.mono fun base hbase => ?_
    rw [yields_bind]
    refine ihp.mono fun position hposition => (yields_pure _ _).mpr ?_
    exact ⟨.index rfl hbase.1 hposition.1, fun _ => rfl⟩
  | @call name args ty loc h _ ih =>
    obtain rfl := h
    rw [typed, if_neg (by exact nofun), yields_bind]
    refine (yields_typedAll args fun arg harg =>
      (ih arg harg).mono fun _ h => h.1).mono fun args' hargs' => ?_
    rw [yields_bind]
    refine (yields_checkCall s name args' loc).mono fun _ hcall => (yields_pure _ _).mpr ?_
    exact ⟨.call ⟨rfl, hcall⟩ hargs', nofun⟩

end Expressions

end Typing

end StackCompiler
