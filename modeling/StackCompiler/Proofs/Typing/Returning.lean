import StackCompiler.Proofs.Grammar.Returning
import StackCompiler.Proofs.Typing.Package

/-!
# Proofs/Typing/Returning — typing keeps what a formula means

Types change neither the numbers nor the operators of a tree, so a `main` that returns what a
formula means **still does so** when it has been typed.
-/

namespace StackCompiler

namespace Typing

/-! ## Expressions -/

variable {s : Surroundings} {vars : List Variable} {t : Formula}

/-- Typing changes **no numbers and no operators**. -/
theorem yields_typed_arithmetic (e : Expr) (h : e.isArithmetic [] = true) :
    Yields (typed s vars e) fun e' =>
      e'.isArithmetic [] = true ∧ ∀ σ, e'.value σ = e.value σ := by
  induction e using Expr.induction with
  | num value ty loc =>
    rw [typed]
    split <;> exact (yields_pure _ _).mpr ⟨rfl, fun _ => rfl⟩
  | binary op lhs rhs ty loc ihl ihr =>
    obtain ⟨hl, hr⟩ := Bool.and_eq_true_iff.mp h
    rw [typed]
    split
    · exact (yields_pure _ _).mpr ⟨h, fun _ => rfl⟩
    rw [yields_bind]
    refine (ihr hr).mono ?_
    rintro rhs' ⟨hr', hvr⟩
    rw [yields_bind]
    refine (ihl hl).mono ?_
    rintro lhs' ⟨hl', hvl⟩
    rw [yields_bind]
    refine fun ty' _ => (yields_pure _ _).mpr ⟨Bool.and_eq_true_iff.mpr ⟨hl', hr'⟩, fun σ => ?_⟩
    rw [Expr.value, Expr.value, hvl, hvr]
  | var => exact absurd h (by simp [Expr.isArithmetic])
  | str | addr | deref | index | call => cases h

theorem yields_typed_means {e : Expr} (h : e.Means t) :
    Yields (typed s vars e) fun e' => e'.Means t :=
  (yields_typed_arithmetic e h.arithmetic).mono fun _ h' =>
    ⟨h'.1, fun σ => (h'.2 σ).trans (h.value σ)⟩

/-! ## Functions -/

variable {slots : Slots} {globals : List VarId} {signatures : List Signature} {f : Function}

/-- A statement that returns a value returns **the value with its types**. -/
theorem ensures_typedStmts_ret {P : Expr → Prop} {e : Expr} {loc : Nat}
    (h : ∀ vars, Yields (typed s vars e) P) :
    Ensures (typedStmts s [.ret (some e) loc]) slots fun body _ =>
      ∃ e', body = [.ret (some e') loc] ∧ P e' := by
  rw [typedStmts, ensures_bind, typedStmt]
  have hvalue : Ensures ((some e).mapM (typedHere s)) slots fun value _ =>
      ∃ e', value = some e' ∧ P e' := by
    rw [Option.mapM_some, ensures_map]
    unfold typedHere
    rw [ensures_bind, ensures_get, ensures_lift]
    exact (h slots.vars).mono fun e' he' => ⟨e', rfl, he'⟩
  rw [ensures_bind]
  refine hvalue.mono ?_
  rintro _ slots' ⟨e', rfl, he'⟩
  rw [ensures_pure, typedStmts, ensures_bind, ensures_pure, ensures_pure]
  exact ⟨e', rfl, he'⟩

/-- Of a function typing changes **the body and the frame**. -/
theorem ensures_typedFunction_body {P : List Stmt → Prop}
    (h : ∀ slots, Ensures (typedStmts ⟨f.locals, globals, signatures⟩ f.body) slots fun body _ =>
      P body) :
    Ensures (typedFunction globals signatures f) slots fun f' _ =>
      ∃ body frame, f' = { f with body := body, frame := frame } ∧ P body := by
  unfold typedFunction
  rw [ensures_bind, ensures_modify, ensures_bind]
  refine fun _ slots₁ _ => ?_
  dsimp only
  rw [ensures_bind]
  refine (h slots₁).mono fun body slots₂ hbody => ?_
  rw [ensures_bind]
  refine fun _ slots₃ _ => ?_
  dsimp only
  rw [ensures_bind, ensures_get]
  split
  · exact ensures_refuse _ _
  · exact (ensures_pure _ _ _).mpr ⟨body, _, rfl, hbody⟩

/-- The function is the `main` that returns what the formula means, **whatever its frame**. -/
structure Computes (t : Formula) (f : Function) : Prop where
  name : f.name = Grammar.mainName
  declared : f.isImplicit = false
  locals : f.locals = []
  body : ∃ st, f.body = [st] ∧ Grammar.IsReturn t st

theorem ensures_typedMain (h : Grammar.IsMain t f) :
    Ensures (typedFunction globals signatures f) slots fun f' _ => Computes t f' := by
  obtain ⟨_, loc, rfl, e, retLoc, rfl, he⟩ := h
  refine (ensures_typedFunction_body (P := fun body => ∃ st, body = [st] ∧ Grammar.IsReturn t st)
    fun slots => ?_).mono ?_
  · refine (ensures_typedStmts_ret fun vars => yields_typed_means he).mono ?_
    rintro _ _ ⟨e', rfl, he'⟩
    exact ⟨_, rfl, e', retLoc, rfl, he'⟩
  · rintro _ _ ⟨body, frame, rfl, hbody⟩
    exact ⟨rfl, rfl, rfl, hbody⟩

/-- All that the function does is **call `main`**. -/
def CallsMain (f : Function) : Prop :=
  ∃ ty loc loc', f.body = [.ret (some (.call Grammar.mainName [] ty loc)) loc']

theorem yields_typed_call (name : String) (loc : Nat) :
    Yields (typed s vars (.call name [] .unknown loc)) fun e =>
      ∃ ty, e = .call name [] ty loc := by
  rw [typed, if_neg (by exact Bool.false_ne_true), yields_bind, typedAll, yields_pure, yields_bind]
  exact fun _ _ => (yields_pure _ _).mpr ⟨_, rfl⟩

theorem ensures_typedImplicit :
    Ensures (typedFunction globals signatures (Grammar.implicitFunction [])) slots fun f' _ =>
      CallsMain f' := by
  refine (ensures_typedFunction_body (P := fun body => ∃ ty loc loc',
    body = [.ret (some (.call Grammar.mainName [] ty loc)) loc']) fun slots => ?_).mono ?_
  · refine (ensures_typedStmts_ret fun vars => yields_typed_call Grammar.mainName 0).mono ?_
    rintro _ _ ⟨e', rfl, ty, rfl⟩
    exact ⟨ty, 0, 0, rfl⟩
  · rintro _ _ ⟨body, frame, rfl, hbody⟩
    exact hbody

end Typing

/-! ## The program -/

/-- The program is a `main` that returns what the formula means, behind a call of it. -/
def Program.Computes (t : Formula) (p : Program) : Prop :=
  p.package = "p" ∧ ∃ init f, p.funcs = [init, f] ∧ Typing.CallsMain init ∧ Typing.Computes t f

theorem Program.yields_resolve {t : Formula} {p : Program} (h : Grammar.IsReturning t p) :
    Yields p.resolve (Program.Computes t) := by
  obtain ⟨hpackage, f, hfuncs, hf⟩ := h
  unfold Program.resolve
  rw [yields_bind]
  intro _ _
  dsimp only
  have hmap : Ensures (p.funcs.mapM (Typing.typedFunction p.globals
      (p.declared.map (Typing.signatureOf p.vars)))) ⟨p.vars, 0⟩ fun funcs _ =>
        ∃ init f, funcs = [init, f] ∧ Typing.CallsMain init ∧ Typing.Computes t f := by
    rw [hfuncs, List.mapM_cons, ensures_bind]
    refine Typing.ensures_typedImplicit.mono fun init _ hinit => ?_
    rw [List.mapM_cons, List.mapM_nil, ensures_bind, ensures_bind]
    refine (Typing.ensures_typedMain hf).mono fun f' _ hf' => ?_
    simp only [ensures_bind, ensures_pure]
    exact ⟨init, f', rfl, hinit, hf'⟩
  rw [yields_bind]
  refine hmap.run.mono ?_
  rintro ⟨funcs, slots⟩ hfuncs
  dsimp only at hfuncs ⊢
  rw [yields_bind]
  exact fun _ _ => (yields_pure _ _).mpr ⟨hpackage, hfuncs⟩

end StackCompiler
