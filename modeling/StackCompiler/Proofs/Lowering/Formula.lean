import StackCompiler.Proofs.Lowering.Functions
import StackCompiler.Proofs.Typing.Returning

/-!
# Proofs/Lowering/Formula — a formula in a source comes to its value

From the characters to the registers: a text that spells a formula is cut into its tokens, these are
read as a tree that means it, and the code of that tree computes its value (`returns_of_spells`).
-/

namespace StackCompiler

/-! ## What formulas leave -/

/-- Arithmetic leaves **no words** on the stack. -/
theorem Expr.leftovers_of_isArithmetic {locals : List VarId} (e : Expr)
    (h : e.isArithmetic locals = true) : e.leftovers = 0 := by
  induction e using Expr.induction with
  | num | var => rfl
  | binary op lhs rhs ty loc ihl ihr =>
    obtain ⟨hl, hr⟩ := Bool.and_eq_true_iff.mp h
    rw [leftovers_binary, ihl hl, ihr hr]
  | str | addr | deref | index | call => cases h

theorem Program.Computes.leftovers {t : Formula} {p : Program} (h : p.Computes t) :
    ∀ f ∈ p.funcs, f.leftovers = 0 := by
  obtain ⟨-, init, f, hfuncs, ⟨ty, loc, loc', hinit⟩, hf⟩ := h
  obtain ⟨_, hbody, e, retLoc, rfl, he⟩ := hf.body
  rw [hfuncs]
  refine List.forall_mem_cons.mpr ⟨?_, List.forall_mem_singleton.mpr ?_⟩
  · rw [Function.leftovers, hinit, Stmt.leftoversOf_cons, Stmt.leftovers_ret]
    rfl
  · rw [Function.leftovers, hbody, Stmt.leftoversOf_cons, Stmt.leftovers_ret]
    exact Expr.leftovers_of_isArithmetic e he.arithmetic

/-! ## What formulas return -/

namespace Typing.Computes

variable {t : Formula} {f : Function}

theorem isArithmetic (h : Computes t f) (p : Program) : f.isArithmetic p = true := by
  obtain ⟨_, hbody, e, loc, rfl, he⟩ := h.body
  have hret : Stmt.areArithmetic [] [.ret (some e) loc] = true := by
    rw [Stmt.areArithmetic, Stmt.isArithmetic, Option.any_some, he.arithmetic]
    rfl
  rw [Function.isArithmetic, h.locals, hbody, hret]
  rfl

theorem runAll (h : Computes t f) {v : Int64} (hv : t.value = some v) (turns : Nat) (σ : Store) :
    Stmt.runAll turns f.body σ = some (.returned v) := by
  obtain ⟨_, hbody, e, loc, rfl, he⟩ := h.body
  rw [hbody, Stmt.runAll, Stmt.run, Option.bind_some, he.value, hv]
  rfl

end Typing.Computes

/-- **A `main` that returns a formula returns its value.**  Whatever text spells a formula, by the
grammar of characters that `Spells` is, if the source that returns it is accepted and no division in
it fails, then it is compiled, and a call of its `main` comes to the value of the formula. -/
theorem returns_of_spells {s : List Char} {t : Formula} (h : Spells 0 s t) {v : Int64}
    (hv : t.value = some v) {p : Program} (hp : Program.ofSource (mainReturning s) = .ok p) :
    ∃ c f l, compile (mainReturning s) = .ok c ∧ c.program = p ∧ c.Emits f l ∧
      p.functionSymbol f = .member "p" "main" ∧
        (c.assembly.Fits → ∀ env m, Returns env l m v) := by
  have htyped := Program.typed_of_ofSource hp
  have hcomputes : p.Computes t := by
    obtain ⟨tokens, htokens, hread⟩ := h.exists_tokens
    have hyields : Yields (Program.ofSource (mainReturning s)) (Program.Computes t) := by
      unfold Program.ofSource
      rw [htokens]
      change Yields (Program.ofTokens (mainReturning s) tokens >>= Program.resolve) _
      rw [yields_bind]
      exact hread.mono fun read hread => Program.yields_resolve hread
    exact hyields p hp
  obtain ⟨a, ha⟩ := Program.exists_assembly htyped hcomputes.leftovers
  obtain ⟨c, hc, rfl, rfl⟩ := exists_compilation hp ha
  obtain ⟨hpackage, init, f, hfuncs, -, hf⟩ := hcomputes
  have hmem : f ∈ c.program.funcs := by
    rw [hfuncs]
    exact List.mem_cons_of_mem init List.mem_cons_self
  obtain ⟨l, hl⟩ := Compilation.exists_emits hc hmem
  refine ⟨c, f, l, hc, rfl, hl, ?_, fun hfits env m => ?_⟩
  · rw [Program.functionSymbol, hf.declared, if_neg Bool.false_ne_true, Program.symbol, hpackage,
      hf.name]
    rfl
  · obtain ⟨base, hcode⟩ := hl.code
    exact Lowering.returns_of_runAll htyped hmem (hf.isArithmetic _) hcode
      (Lowering.Emits.room htyped hfits hl) (hf.runAll hv 0 _)

/-- A difference of differences with a quotient in it, which **drops its fraction** below zero. -/
def textOfDifference : List Char :=
  "20-7/-2 - 1".toList

/-- That text is grouped from the left, and its quotient is -3. -/
theorem returns_of_difference :
    ∃ c f l, compile (mainReturning textOfDifference) = .ok c ∧ c.Emits f l ∧
      Returns ⟨fun _ => 0, 0⟩ l ⟨fun _ => 5, fun _ => 0, none, []⟩ 22 := by
  have hdigits (digits : List Char) (h : (!digits.isEmpty && digits.all Char.isDigit) = true) :
      Spells 5 digits (.literal digits) := by
    obtain ⟨hne, hall⟩ := Bool.and_eq_true_iff.mp h
    exact .literal (by simpa using hne) (List.all_eq_true.mp hall)
  have hquotient := Spells.joined .dividedBy (hdigits ['7'] rfl).looser.looser
    (Spells.negative (hdigits ['2'] rfl).looser)
  have hlast := Spells.before (c := ' ') rfl (hdigits ['1'] rfl).looser.looser
  have hfirst := Spells.after (c := ' ') rfl
    (Spells.joined .minus (hdigits ['2', '0'] rfl).looser.looser.looser hquotient)
  have hspells : Spells 0 textOfDifference _ := (Spells.joined .minus hfirst hlast).looser.looser
  obtain ⟨c, hc, hbytes⟩ := exists_ok_of_any (P := fun c : Compilation =>
    decide ((c.assembly.textBytes : Int) ≤ Word.greatest))
    (x := compile (mainReturning textOfDifference)) (by decide +kernel)
  obtain ⟨c', f, l, hc', -, hl, -, hreturns⟩ :=
    returns_of_spells hspells (v := 22) (by decide +kernel) (compile_ok hc).1
  cases hc.symm.trans hc'
  exact ⟨c, f, l, hc, hl,
    hreturns (Assembly.fits_iff.mpr (of_decide_eq_true hbytes)) ⟨fun _ => 0, 0⟩ _⟩

end StackCompiler
