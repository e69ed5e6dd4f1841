import StackCompiler.Compilation
import StackCompiler.Proofs.Lowering.Growth

/-!
# Proofs/Lowering/Package — the programs that have no assembly

Of a program that a source spells, the assembly is there **unless a body leaves words on the
stack**: its variables and strings are all there, its places have addresses and its arguments fit
the registers.  The first body that leaves words names itself, and how many it leaves.
-/

namespace StackCompiler

/-- What is compiled is the program that the source spells. -/
theorem compile_ok {source : List Char} {c : Compilation} (h : compile source = .ok c) :
    Program.ofSource source = .ok c.program ∧ c.program.assemble = .ok c.assembly := by
  obtain ⟨tokens, htokens, h⟩ := bind_eq_ok_iff.mp h
  obtain ⟨read, hread, h⟩ := bind_eq_ok_iff.mp h
  obtain ⟨p, hresolve, h⟩ := bind_eq_ok_iff.mp h
  obtain ⟨a, hassembly, h⟩ := bind_eq_ok_iff.mp h
  cases h
  refine ⟨bind_eq_ok_iff.mpr ⟨tokens, htokens, bind_eq_ok_iff.mpr ⟨read, hread, hresolve⟩⟩, ?_⟩
  dsimp only
  cases hassemble : p.assemble with
  | error fault => rw [assemblyOf, hassemble] at hassembly; cases hassembly
  | ok a' => rw [assemblyOf, hassemble] at hassembly; cases hassembly; rfl

/-- A program that has an assembly **is compiled to it**. -/
theorem exists_compilation {source : List Char} {p : Program} {a : Assembly}
    (hp : Program.ofSource source = .ok p) (ha : p.assemble = .ok a) :
    ∃ c, compile source = .ok c ∧ c.program = p ∧ c.assembly = a := by
  obtain ⟨tokens, read, htokens, hread, hresolve⟩ := Program.ofSource_ok hp
  refine ⟨⟨tokens, p, a⟩, bind_eq_ok_iff.mpr ⟨tokens, htokens, bind_eq_ok_iff.mpr
    ⟨read, hread, bind_eq_ok_iff.mpr ⟨p, hresolve, ?_⟩⟩⟩, rfl, rfl⟩
  rw [assemblyOf, ha]
  rfl

namespace Lowering

variable {p : Program}

/-! ## Functions -/

theorem callable_of_typed (hp : p.Typed) : ∀ signature ∈ p.signatures, Callable signature :=
  fun signature hs => ⟨hp.signatures signature hs, hp.resolved signature hs⟩

/-- A parameter takes as many registers as its type has words. -/
theorem spill_ok {v : Variable} {regs : List Reg} (hr : v.ty.isResolved = true)
    (h : v.ty.words ≤ regs.length) :
    ∃ instrs rest, spill v regs = .ok (instrs, rest) ∧
      rest.length + v.ty.words = regs.length := by
  rw [← pushed_eq_words hr] at h ⊢
  unfold pushed at h ⊢
  cases regs with
  | nil => rw [List.length_nil] at h; omega
  | cons reg rest =>
    unfold spill
    cases hs : v.ty.isString with
    | true =>
      rw [hs] at h
      cases rest with
      | nil => simp only [List.length_singleton, Bool.toNat_true] at h; omega
      | cons next rest => exact ⟨_, rest, rfl, rfl⟩
    | false =>
      simp only [Bool.false_eq_true, if_false]
      split <;> exact ⟨_, rest, rfl, by simp⟩

/-- Parameters are moved into their slots if they **fit the registers**. -/
theorem spills_ok : ∀ (ids : List VarId) (regs : List Reg),
    (∀ id ∈ ids, ∃ v, p.vars[id]? = some v ∧ v.ty.isResolved = true) →
    Ty.totalWords (ids.map (Typing.tyOf p.vars)) ≤ regs.length → ∃ instrs, spills p ids regs = .ok instrs
  | [], _, _, _ => ⟨[], rfl⟩
  | id :: ids, regs, h, hwords => by
    obtain ⟨⟨v, hv, hr⟩, hids⟩ := List.forall_mem_cons.mp h
    rw [List.map_cons, Ty.totalWords, Typing.tyOf_eq hv] at hwords
    have hfit : v.ty.words ≤ regs.length := by omega
    obtain ⟨instrs, rest, hspill, hrest⟩ := spill_ok hr hfit
    obtain ⟨instrs', hspills⟩ := spills_ok ids rest hids (by omega)
    exact ⟨instrs ++ instrs', by simp [spills, hv, hspill, hspills, bind, Except.bind, pure, Except.pure]⟩

theorem spills_ok_of_typed (hp : p.Typed) {f : Function} (hf : f ∈ p.funcs) :
    ∃ instrs, spills p f.params argumentRegs = .ok instrs := by
  have htyped := hp.funcs f hf
  refine spills_ok f.params argumentRegs (fun id hid => ?_) ?_
  · obtain ⟨v, hv, hr, -⟩ := htyped.exists_param hid
    exact ⟨v, hv, hr⟩
  · cases himplicit : f.isImplicit with
    | true =>
      rw [htyped.implicit himplicit]
      exact Nat.zero_le _
    | false =>
      have hmem : f ∈ p.declared := List.mem_filter.mpr ⟨hf, by rw [himplicit]; rfl⟩
      exact hp.signatures _ (List.mem_map.mpr ⟨f, hmem, rfl⟩)

/-- A body is broken **if it leaves words**, and by as many as it leaves. -/
theorem bodyCode_eq (hp : p.Typed) {f : Function} (hf : f ∈ p.funcs) (base : Nat) :
    if f.leftovers = 0 then ∃ l, bodyCode p f base = .ok l
    else bodyCode p f base = .error (.unbalanced (p.functionSymbol f).text f.leftovers) := by
  have hgrows : (stmtsCode p (.returnOf (p.functionSymbol f)) base f.body).Grows f.leftovers :=
    grows_stmtsCode f.body
      (fun st hst base => grows_stmtCode (callable_of_typed hp) ((hp.funcs f hf).body st hst) base)
      base
  obtain ⟨l, hl, hgrowth⟩ := hgrows 0
  unfold bodyCode
  simp only [hl, bind, Except.bind, hgrowth]
  split
  · next h =>
    refine ⟨l, ?_⟩
    simp [h, pure, Except.pure]
  · next h =>
    change (if ((f.leftovers : Nat) : Int) ≠ 0 then _ else _) = _
    rw [if_pos (by simpa using h)]
    rfl

theorem functionCode_eq (hp : p.Typed) {f : Function} (hf : f ∈ p.funcs) (base : Nat) :
    if f.leftovers = 0 then ∃ l, functionCode p f base = .ok l
    else functionCode p f base = .error (.unbalanced (p.functionSymbol f).text f.leftovers) := by
  obtain ⟨params, hparams⟩ := spills_ok_of_typed hp hf
  have hbody := bodyCode_eq hp hf base
  unfold functionCode
  split at hbody
  · next h =>
    obtain ⟨body, hbody⟩ := hbody
    rw [if_pos h]
    simp only [hparams, hbody, bind, Except.bind]
    exact ⟨_, rfl⟩
  · next h =>
    rw [if_neg h]
    simp only [hparams, hbody, bind, Except.bind]

/-- What the listing of a function **is put together from**. -/
theorem functionCode_ok {f : Function} {base : Nat} {l : Listing}
    (h : functionCode p f base = .ok l) :
    ∃ params body, spills p f.params argumentRegs = .ok params ∧
      stmtsCode p (.returnOf (p.functionSymbol f)) base f.body 0 = .ok body ∧ body.growth = 0 ∧
      l = .label (.symbol (p.functionSymbol f)) ::
        Listing.ofInstrs (prologue f.frame ++ params) ++ body ++
        .instr (.set .rax 0) :: .label (.returnOf (p.functionSymbol f)) ::
          Listing.ofInstrs epilogue := by
  obtain ⟨params, hparams, h⟩ := bind_eq_ok_iff.mp h
  obtain ⟨body, hbody, h⟩ := bind_eq_ok_iff.mp h
  cases h
  obtain ⟨stmts, hstmts, hbody⟩ := bind_eq_ok_iff.mp hbody
  by_cases hgrowth : stmts.growth = 0
  · rw [if_neg (not_not.mpr hgrowth)] at hbody
    cases hbody
    exact ⟨params, _, hparams, hstmts, hgrowth, rfl⟩
  · rw [if_pos hgrowth] at hbody
    cases hbody

/-- A body that has a listing **leaves no words**. -/
theorem leftovers_eq_zero (hp : p.Typed) {f : Function} (hf : f ∈ p.funcs) {base : Nat}
    {l : Listing} (h : functionCode p f base = .ok l) : f.leftovers = 0 := by
  have hcode := functionCode_eq hp hf base
  by_contra hne
  rw [if_neg hne, h] at hcode
  cases hcode

/-- The moves of parameters are **those of the first and those of the others**. -/
theorem spills_cons_ok {id : VarId} {ids : List VarId} {regs : List Reg} {moves : List Instr}
    (h : spills p (id :: ids) regs = .ok moves) :
    ∃ v instrs rest later, p.vars[id]? = some v ∧ spill v regs = .ok (instrs, rest) ∧
      spills p ids rest = .ok later ∧ moves = instrs ++ later := by
  unfold spills at h
  cases hv : p.vars[id]? with
  | none => rw [hv] at h; cases h
  | some v =>
    rw [hv] at h
    obtain ⟨⟨instrs, rest⟩, hspill, h⟩ := bind_eq_ok_iff.mp h
    obtain ⟨later, hlater, h⟩ := bind_eq_ok_iff.mp h
    cases h
    exact ⟨v, instrs, rest, later, rfl, hspill, hlater, rfl⟩

/-- Parameters are moved by **storing registers**, and by nothing else. -/
theorem spills_store : ∀ (ids : List VarId) {regs : List Reg} {instrs : List Instr},
    spills p ids regs = .ok instrs →
    ∀ i ∈ instrs, ∃ a r, i = .store a r ∨ i = .storeByte a r
  | [], _, _, h => by cases h; exact fun _ h => absurd h List.not_mem_nil
  | id :: ids, regs, instrs, h => by
    obtain ⟨v, _, _, _, -, hspill, hspills, rfl⟩ := spills_cons_ok h
    intro i hi
    rcases List.mem_append.mp hi with hi | hi
    · unfold spill at hspill
      split at hspill
      · cases hspill
      split at hspill
      · split at hspill
        · cases hspill
        · cases hspill
          simp only [List.mem_cons, List.not_mem_nil, or_false] at hi
          rcases hi with rfl | rfl <;> exact ⟨_, _, .inl rfl⟩
      split at hspill <;> cases hspill <;> cases List.mem_singleton.mp hi
      · exact ⟨_, _, .inr rfl⟩
      · exact ⟨_, _, .inl rfl⟩
    · exact spills_store ids hspills i hi

/-! ## Programs -/

/-- The first of the functions that leaves words, with what stands before it and after it. -/
def FirstLeaving (fs : List Function) (f : Function) : Prop :=
  ∃ before after, fs = before ++ f :: after ∧ (∀ g ∈ before, g.leftovers = 0) ∧ 0 < f.leftovers

/-- Code for functions is made up to **the first that leaves words**. -/
theorem functionsCode_eq (hp : p.Typed) : ∀ (fs : List Function) (base : Nat),
    (∀ f ∈ fs, f ∈ p.funcs) →
    ((∀ f ∈ fs, f.leftovers = 0) ∧ ∃ l, functionsCode p base fs = .ok l) ∨
      ∃ f, FirstLeaving fs f ∧ functionsCode p base fs =
        .error (.unbalanced (p.functionSymbol f).text f.leftovers)
  | [], _, _ => .inl ⟨nofun, [], rfl⟩
  | f :: fs, base, h => by
    obtain ⟨hf, hfs⟩ := List.forall_mem_cons.mp h
    have hcode := functionCode_eq hp hf base
    rw [functionsCode]
    split at hcode
    · next hzero =>
      obtain ⟨l, hl⟩ := hcode
      rcases functionsCode_eq hp fs (base + Stmt.labelCounts f.body) hfs with
        ⟨hall, l', hl'⟩ | ⟨g, ⟨before, after, rfl, hbefore, hpos⟩, herror⟩
      · refine .inl ⟨List.forall_mem_cons.mpr ⟨hzero, hall⟩, l ++ l', ?_⟩
        simp only [hl, hl', bind, Except.bind]
        rfl
      · refine .inr ⟨g, ⟨f :: before, after, rfl, List.forall_mem_cons.mpr ⟨hzero, hbefore⟩, hpos⟩, ?_⟩
        simp only [hl, herror, bind, Except.bind]
    · next hpos =>
      refine .inr ⟨f, ⟨[], fs, rfl, nofun, Nat.pos_of_ne_zero hpos⟩, ?_⟩
      simp only [hcode, bind, Except.bind]

theorem programData_ok (hp : p.Typed) : ∃ data, programData p = .ok data := by
  have hglobals : ∀ ids : List VarId, (∀ id ∈ ids, ∃ v, p.vars[id]? = some v) →
      ∃ data, ids.mapM (globalData p) = .ok data := by
    intro ids
    induction ids with
    | nil => exact fun _ => ⟨[], rfl⟩
    | cons id ids ih =>
      intro h
      obtain ⟨⟨v, hv⟩, hids⟩ := List.forall_mem_cons.mp h
      obtain ⟨data, hdata⟩ := ih hids
      simp [List.mapM_cons, globalData, hv, hdata, bind, Except.bind, pure, Except.pure]
  obtain ⟨data, hdata⟩ := hglobals p.globals fun id hid => (hp.globals id hid).imp fun _ h => h.1
  simp [programData, hdata, bind, Except.bind, pure, Except.pure]

end Lowering

open Lowering

/-- A program has an assembly if **none of its bodies leaves words**. -/
theorem Program.exists_assembly {p : Program} (hp : p.Typed)
    (h : ∀ f ∈ p.funcs, f.leftovers = 0) : ∃ a, p.assemble = .ok a := by
  obtain ⟨data, hdata⟩ := programData_ok hp
  rcases functionsCode_eq hp p.funcs 0 fun _ hf => hf with
    ⟨-, l, hl⟩ | ⟨f, ⟨before, after, heq, -, hpos⟩, -⟩
  · exact ⟨_, by simp only [Program.assemble, hdata, hl, bind, Except.bind]; rfl⟩
  · rw [h f (heq ▸ List.mem_append_right _ List.mem_cons_self)] at hpos
    exact absurd hpos (Nat.lt_irrefl 0)

/-- **The one fault of an accepted program's assembly** is a body that leaves words on the stack:
there is an assembly unless a body has a node that is overfull, and the fault names the first such
function with the number of its overfull nodes. -/
theorem assemble_error_iff_leftovers {source : List Char} {p : Program}
    (h : Program.ofSource source = .ok p) :
    ((∃ fault, p.assemble = .error fault) ↔ ∃ f ∈ p.funcs, 0 < f.leftovers) ∧
      ∀ fault, p.assemble = .error fault → ∃ f, FirstLeaving p.funcs f ∧
        fault = .unbalanced (p.functionSymbol f).text f.leftovers := by
  have hp := Program.typed_of_ofSource h
  obtain ⟨data, hdata⟩ := programData_ok hp
  rcases functionsCode_eq hp p.funcs 0 fun _ hf => hf with ⟨hall, l, hl⟩ | ⟨f, hfirst, herror⟩
  · have hassemble : ∀ fault, p.assemble ≠ .error fault := fun fault herror => by
      simp only [Program.assemble, hdata, hl, bind, Except.bind] at herror
      cases herror
    refine ⟨⟨fun ⟨fault, herror⟩ => absurd herror (hassemble fault), fun ⟨f, hf, hpos⟩ => ?_⟩,
      fun fault herror => absurd herror (hassemble fault)⟩
    rw [hall f hf] at hpos
    exact absurd hpos (Nat.lt_irrefl 0)
  · have hassemble : p.assemble = .error (.unbalanced (p.functionSymbol f).text f.leftovers) := by
      simp only [Program.assemble, hdata, herror, bind, Except.bind]
    refine ⟨⟨fun _ => ?_, fun _ => ⟨_, hassemble⟩⟩, fun fault hfault => ⟨f, hfirst, ?_⟩⟩
    · obtain ⟨before, after, heq, -, hpos⟩ := hfirst
      exact ⟨f, heq ▸ List.mem_append_right _ List.mem_cons_self, hpos⟩
    · exact Except.error.inj (hfault.symm.trans hassemble)

/-- A condition that is a string: the listing of `p.f` is broken, **and no assembly is made**. -/
theorem assemble_error_of_string_condition :
    ∃ p f, Program.ofSource
        "package p func f() \x7b if \"a\" \x7b \x7d \x7d func main() \x7b \x7d".toList = .ok p ∧
      FirstLeaving p.funcs f ∧
        p.assemble = .error (.unbalanced (p.functionSymbol f).text f.leftovers) := by
  obtain ⟨p, hp, hleaves⟩ := exists_ok_of_any (P := fun p : Program =>
    p.funcs.any fun f => decide (0 < f.leftovers)) (x := Program.ofSource
      "package p func f() \x7b if \"a\" \x7b \x7d \x7d func main() \x7b \x7d".toList) (by decide +kernel)
  obtain ⟨g, hg, hpos⟩ := List.any_eq_true.mp hleaves
  obtain ⟨fault, hfault⟩ := (assemble_error_iff_leftovers hp).1.mpr ⟨g, hg, of_decide_eq_true hpos⟩
  obtain ⟨f, hfirst, rfl⟩ := (assemble_error_iff_leftovers hp).2 fault hfault
  exact ⟨p, f, hp, hfirst, hfault⟩

end StackCompiler
