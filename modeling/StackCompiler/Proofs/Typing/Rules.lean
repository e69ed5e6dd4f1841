import StackCompiler.Proofs.Typing.Binding

/-!
# Proofs/Typing/Rules — the type of every node

In a program that has been resolved, **every node of every body** has the type that the language gives
its form: that of its variable, of what a pointer points at, of its left operand.  What has no type
is a variable that was read before it had one, or points at such a variable; no value is assigned,
computed with or passed on without one.
-/

namespace StackCompiler

open Typing

/-! ## The rules -/

/-- What the type of the node is, and what it asks of the nodes right under it. -/
def Expr.WellTyped (p : Program) : Expr → Prop
  | .num .. => True
  | .str string ty _ => ty = .string ∧ string < p.strings.length
  | .var id ty _ => ∃ v, p.vars[id]? = some v ∧ (ty = v.ty ∨ ty = .unknown)
  | .addr operand ty _ => ty = .ptr operand.ty
  | .deref operand ty _ =>
    (∀ base, operand.ty = .ptr base → ty = base) ∧ (operand.ty.isPtr = false → ty = .int)
  | .binary op lhs rhs ty _ => lhs.ty.kind = rhs.ty.kind ∧
    (lhs.ty.isResolved = true ∧ rhs.ty.isResolved = true) ∧
    (lhs.ty.isString = false ∧ rhs.ty.isString = false) ∧
    (lhs.ty.isArray = false ∧ rhs.ty.isArray = false) ∧
    (op.isComparison = true → ty = .bool) ∧ (op.isComparison = false → ty = lhs.ty)
  | .index base _ ty _ =>
    (∀ element len, base.ty = .array element len → ty = element) ∧
      (base.ty.isArray = false → ty = .int8)
  | .call name args ty _ => ty = .int ∧ Ty.totalWords (args.map Expr.ty) ≤ 6 ∧
    ∃ f ∈ p.declared, f.name = name ∧ List.Forall₂ (fun arg param => arg.ty.isResolved = true ∧
      ∃ v, p.vars[param]? = some v ∧ arg.ty.words = v.ty.words) args f.params

/-- An assignment has as many values as targets, and each value **fits its target**. -/
def Stmt.WellTyped : Stmt → Prop
  | .assign targets values _ => List.Forall₂ (fun target value => value.ty.isResolved = true ∧
    target.ty.isResolved = true ∧ target.ty.isArray = false ∧
    target.ty.words = value.ty.words) targets values
  | _ => True

/-! ## They hold -/

section Rules

variable {p p' : Program}

theorem Expr.TypedRule.wellTyped (hp : p.Typed) (e : Expr)
    (h : e.TypedRule p.vars p.strings.length p.signatures fun _ => True) : e.WellTyped p := by
  cases e with
  | num => trivial
  | str => exact h
  | var id ty loc =>
    obtain ⟨⟨v, hv, -⟩, hty⟩ := h
    refine ⟨v, hv, ?_⟩
    cases hr : ty.isResolved with
    | true => exact .inl ((hty v hv).2 hr)
    | false =>
      refine .inr (not_not.mp fun hne => ?_)
      rw [Ty.isResolved_iff.mpr hne] at hr
      cases hr
  | addr => exact h.1
  | deref operand ty loc =>
    have hty : ty = pointeeTy operand.ty := h
    refine ⟨fun base hbase => by rw [hty, hbase, pointeeTy], fun hptr => ?_⟩
    rw [hty]
    cases hoperand : operand.ty with
    | ptr base => rw [hoperand] at hptr; cases hptr
    | _ => rfl
  | binary op lhs rhs ty loc =>
    obtain ⟨hkind, hr, hstring, harray, hty⟩ := h
    refine ⟨hkind, ⟨hr, ?_⟩, ⟨hstring, ?_⟩, ⟨harray, ?_⟩, fun hop => ?_, fun hop => ?_⟩
    · rwa [Ty.isResolved, ← hkind]
    · rwa [Ty.isString, ← hkind]
    · rwa [Ty.isArray, ← hkind]
    · rw [hty, if_pos hop]
    · rw [hty, if_neg (by rw [hop]; exact Bool.false_ne_true)]
  | index base position ty loc =>
    have hty : ty = elementTy base.ty := h
    refine ⟨fun element len hbase => by rw [hty, hbase, elementTy], fun harray => ?_⟩
    rw [hty]
    cases hbase : base.ty with
    | array element len => rw [hbase] at harray; cases harray
    | _ => rfl
  | call name args ty loc =>
    obtain ⟨hty, signature, hmem, hname, hargs⟩ := h
    obtain ⟨f, hf, rfl⟩ := List.mem_map.mp hmem
    have hparams : ∀ id ∈ f.params, ∃ v, p.vars[id]? = some v ∧ v.ty.isResolved = true ∧
        v.ty.isArray = false :=
      fun id hid => (hp.funcs f (List.mem_of_mem_filter hf)).exists_param hid
    obtain ⟨hwords, hresolved⟩ := arguments_words hargs (hp.resolved _ hmem)
    refine ⟨hty, hwords ▸ hp.signatures _ hmem, f, hf, hname, ?_⟩
    refine (List.forall₂_and_left _ _).mpr ⟨hresolved, ?_⟩
    -- the same list once more from its parameters, each of which is in the arena
    refine (((List.forall₂_and_left _ _).mpr
      ⟨hparams, (List.forall₂_map_right_iff.mp hargs).flip⟩).flip).imp fun arg id hid => ?_
    obtain ⟨⟨v, hv, -⟩, hsame⟩ := hid
    exact ⟨v, hv, hsame.trans (congrArg Ty.words (tyOf_eq hv))⟩

theorem Stmt.TypedRule.wellTyped (st : Stmt) (h : st.TypedRule) : st.WellTyped := by
  cases st with
  | assign targets values loc =>
    exact List.Forall₂.imp (fun target value hfit => ⟨hfit.resolved,
      Ty.isResolved_of_words_eq hfit.words hfit.resolved, hfit.noArray, hfit.words⟩) h
  | _ => trivial

/-- **Every node of every body has the type of its form** once the program has been resolved: the
bodies are those that were read, with types by the rules, and a number has kept its own. -/
theorem wellTyped_of_resolve {source : List Char} {tokens : List Token}
    (h : Program.ofTokens source tokens = .ok p) (h' : p.resolve = .ok p') :
    List.Forall₂ (fun f f' => List.Forall₂ (Stmt.Rebound (p.Refers p' f)) f.body f'.body)
      p.funcs p'.funcs ∧
    ∀ f ∈ p'.funcs, ∀ st ∈ f.body, st.Everywhere (Expr.WellTyped p') Stmt.WellTyped := by
  have hread := Program.read_of_ofTokens h
  have hp := hread.resolve_outcome.1 p' h'
  refine ⟨yields_rebound_resolve (fun f hf => hread.declares hf)
    (fun f hf st hst => hread.bindable hp hf hst) p' h', fun f hf st hst => ?_⟩
  exact ((hp.typed.funcs f hf).body st hst).mono
    (Expr.TypedRule.wellTyped hp.typed) Stmt.TypedRule.wellTyped

/-- A call before its function, a string, an array, a comparison and a pointer. -/
def textOfManyTypes : String :=
  "package p func main() \x7b a, s := f(2, \"x\") < 3, \"y\"; var m [3]int8; m[1] = s[0]
  q := &a; *q = a \x7d func f(n int, t string) int \x7b return n + g \x7d var g int = 4"

/-- The program is accepted, with the initial assignment in its implicit function, and **its nodes
have their types**. -/
theorem wellTyped_of_many_types :
    ∃ tokens p p', tokensOf textOfManyTypes.toList = .ok tokens ∧
      Program.ofTokens textOfManyTypes.toList tokens = .ok p ∧ p.resolve = .ok p' ∧
      p'.funcs.map (·.body.length) = [2, 5, 1] ∧
      ∀ f ∈ p'.funcs, ∀ st ∈ f.body, st.Everywhere (Expr.WellTyped p') Stmt.WellTyped := by
  obtain ⟨p', hp', hcount⟩ := exists_ok_of_any (P := fun p' : Program =>
    p'.funcs.map (·.body.length) == [2, 5, 1])
    (x := Program.ofSource textOfManyTypes.toList) (by decide +kernel)
  obtain ⟨tokens, p, htokens, hread, hresolve⟩ := Program.ofSource_ok hp'
  exact ⟨tokens, p, p', htokens, hread, hresolve, beq_iff_eq.mp hcount,
    (wellTyped_of_resolve hread hresolve).2⟩

end Rules

end StackCompiler
