import StackCompiler.Proofs.Grammar.Globals
import StackCompiler.Proofs.Grammar.Strings
import StackCompiler.Proofs.Grammar.Texts
import StackCompiler.Proofs.Lowering.Exchange
import StackCompiler.Proofs.Typing.Exchange

/-!
# Proofs/Exchange — the order of functions

Functions share an arena of variables, a table of strings and the numbers of labels, and the types of
package-level variables may be told by what they are assigned.  None of this **leaks from one function
into another**: a source in which two functions that stand one behind the other have changed places is
accepted where the source is, and each function keeps its locals with their types and offsets, its frame,
and its listing but for the numbers of labels.
-/

namespace StackCompiler

open Text

/-- The locals of a function in their order: the name, type and offset of each. -/
def Function.layout (p : Program) (f : Function) : List (Option (String × Ty × Int)) :=
  f.locals.map fun id => p.vars[id]?.map fun v => (v.name, v.ty, v.offset)

/-- The source is read as that program. -/
def Parses (source : List Char) (p : Program) : Prop :=
  ∃ tokens, tokenize source = .ok tokens ∧ Program.ofTokens source tokens = .ok p

/-! ## Programs -/

namespace Program.Exchanged

variable {n : Numbering} {p p' : Program} {f f' : Function}

theorem perm_declared (h : p.Exchanged n p') :
    (p'.declared.map Function.unplaced).Perm (p.declared.map (Function.numbered n)) := by
  obtain ⟨entry, before, f, g, after, hfuncs, hfuncs'⟩ := h.funcs
  have hperm : (p'.funcs.map Function.unplaced).Perm (p.funcs.map (Function.numbered n)) := by
    rw [hfuncs', hfuncs]
    exact (List.Perm.append_left _ (.swap _ _ _)).map _
  have hfilter := hperm.filter fun f => !f.isImplicit
  rwa [List.filter_map, List.filter_map] at hfilter

/-- The functions **have the names that they had**. -/
theorem perm_declaredNames (h : p.Exchanged n p') : p.declaredNames.Perm p'.declaredNames := by
  have hnames := h.perm_declared.map Function.name
  rw [List.map_map, List.map_map] at hnames
  exact hnames.symm

/-- A function of one name is **the one that has it**, under other numbers. -/
theorem unplaced_eq (h : p.Exchanged n p') (hp : p'.Named) (hf : f ∈ p.declared)
    (hf' : f' ∈ p'.declared) (hname : f'.name = f.name) : f'.unplaced = f.numbered n := by
  obtain ⟨g, hg, hunplaced⟩ := List.mem_map.mp
    (h.perm_declared.symm.subset (List.mem_map_of_mem hf))
  have hgname : g.name = f.name := (congrArg Function.name hunplaced :)
  obtain rfl : f' = g := List.inj_on_of_nodup_map hp.declared hf' hg (hname.trans hgname.symm)
  exact hunplaced

theorem layout_eq (h : p.Exchanged n p') (hf : f'.unplaced = f.numbered n) :
    f'.layout p' = f.layout p := by
  have hlocals : f'.locals = f.locals.map n.var := by
    have hlocals := congrArg Function.locals hf
    exact (List.map_id _).symm.trans hlocals
  rw [Function.layout, Function.layout, hlocals, List.map_map]
  refine List.map_congr_left fun id _ => ?_
  have hsame := congrArg (Option.map fun v => (v.name, v.ty, v.offset)) (h.vars id)
  rw [Option.map_map, Option.map_map] at hsame
  exact hsame.symm

end Program.Exchanged

/-! ## Sources -/

section Sources

variable {c c' : CutSource} {ts ts' : Parts Token} {p q q' : Program}

theorem parses_iff {source : List Char} {tokens : List Token} (h : tokenize source = .ok tokens) :
    Parses source p ↔ Program.ofTokens source tokens = .ok p := by
  constructor
  · rintro ⟨tokens', h', hp⟩
    cases h.symm.trans h'
    exact hp
  · exact fun hp => ⟨tokens, h, hp⟩

theorem ofSource_eq_ok_iff {source : List Char} :
    Program.ofSource source = .ok q ↔ ∃ p, Parses source p ∧ p.resolve = .ok q := by
  constructor
  · intro h
    obtain ⟨tokens, p, htokens, hp, hq⟩ := Program.ofSource_ok h
    exact ⟨p, ⟨tokens, tokenize_of_tokensOf htokens, hp⟩, hq⟩
  · rintro ⟨p, ⟨tokens, htokens, hp⟩, hq⟩
    refine bind_eq_ok_iff.mpr ⟨tokens, ?_, bind_eq_ok_iff.mpr ⟨p, hp, hq⟩⟩
    rw [tokensOf, htokens]
    rfl

/-- A source without tokens **is not accepted**. -/
theorem not_parses_of_error {source : List Char} {d : Diagnostic} (h : tokenize source = .error d) :
    ¬Parses source p := by
  rintro ⟨tokens, htokens, -⟩
  cases h.symm.trans htokens

theorem ofSource_ne_ok_of_error {source : List Char} {d : Diagnostic}
    (h : tokenize source = .error d) : Program.ofSource source ≠ .ok q := fun hq => by
  obtain ⟨p, hp, -⟩ := ofSource_eq_ok_iff.mp hq
  exact not_parses_of_error h hp

/-- A source that is accepted **is accepted with two functions exchanged**. -/
theorem Grammar.Exchanged.exists_ofSource (h : Grammar.Exchanged c c' ts ts')
    (htokens : tokenize c.source = .ok c.tokens) (htokens' : tokenize c'.source = .ok c'.tokens)
    (hq : Program.ofSource c.source = .ok q) :
    ∃ q', Program.ofSource c'.source = .ok q' ∧
      ∃ var string : Equiv.Perm Nat, q.Exchanged ⟨var, string⟩ q' := by
  obtain ⟨p, hp, hresolve⟩ := ofSource_eq_ok_iff.mp hq
  rw [parses_iff htokens] at hp
  obtain ⟨p', hp', var, string, hexchanged⟩ := h.exists_ofTokens hp
  obtain ⟨q', hresolve', hexchanged'⟩ := hexchanged.exists_resolve var.injective
    (Program.read_of_ofTokens hp) (Program.initialized_of_ofTokens hp) hresolve
  exact ⟨q', ofSource_eq_ok_iff.mpr ⟨p', (parses_iff htokens').mpr hp', hresolve'⟩, var, string,
    hexchanged'⟩

/-- What two sources with exchanged functions come to are **programs with exchanged functions**. -/
theorem Grammar.Exchanged.exists_numbering (h : Grammar.Exchanged c c' ts ts')
    (htokens : tokenize c.source = .ok c.tokens) (htokens' : tokenize c'.source = .ok c'.tokens)
    (hq : Program.ofSource c.source = .ok q) (hq' : Program.ofSource c'.source = .ok q') :
    ∃ var string : Equiv.Perm Nat, q.Exchanged ⟨var, string⟩ q' := by
  obtain ⟨_, hq₁, hexchanged⟩ := h.exists_ofSource htokens htokens' hq
  cases hq₁.symm.trans hq'
  exact hexchanged

end Sources

/-- **The order of two functions has no influence but on numbers**: where two functions that stand one
behind the other change places, the one source is accepted where the other is, by the parser and by the
typing behind it.  Then all functions have the names, locals and frames that they had, and in the
assemblies, where both sources have one, each has one listing, and that is the one that it had under
other numbers of labels, those of strings being the numbers of the same strings. -/
theorem exchanged_functions {text : Parts Char} {ts : Parts Token} (h : text.Neighbours ts)
    (hsize : byteLength text.all < Grammar.placeLimit) :
    ((∃ p, Parses text.all p) ↔ ∃ p', Parses text.exchanged.all p') ∧
    ((∃ q, Program.ofSource text.all = .ok q) ↔
      ∃ q', Program.ofSource text.exchanged.all = .ok q') ∧
    (∀ q q', Program.ofSource text.all = .ok q → Program.ofSource text.exchanged.all = .ok q' →
      q.declaredNames.Perm q'.declaredNames ∧
      ∀ f ∈ q.declared, ∀ f' ∈ q'.declared, f'.name = f.name →
        f'.layout q' = f.layout q ∧ f'.frame = f.frame) ∧
    ∀ c c', compile text.all = .ok c → compile text.exchanged.all = .ok c' →
      ∃ flow string : Equiv.Perm Nat,
        (∀ i, c'.program.strings[string i]? = c.program.strings[i]?) ∧
        ∀ f ∈ c.program.declared, ∀ f' ∈ c'.program.declared, f'.name = f.name →
          ∃ l, (∀ k, c.Emits f k ↔ k = l) ∧
            ∀ k, c'.Emits f' k ↔ k = l.relabelled ⟨flow, string⟩ := by
  rcases h.exists_exchanged hsize with
    ⟨d, d', hd, hd'⟩ | ⟨c, c', ts, ts', hc, hc', htokens, htokens', hexchanged⟩
  · exact ⟨⟨fun ⟨_, hp⟩ => (not_parses_of_error hd hp).elim,
        fun ⟨_, hp⟩ => (not_parses_of_error hd' hp).elim⟩,
      ⟨fun ⟨_, hq⟩ => (ofSource_ne_ok_of_error hd hq).elim,
        fun ⟨_, hq⟩ => (ofSource_ne_ok_of_error hd' hq).elim⟩,
      fun _ _ hq => (ofSource_ne_ok_of_error hd hq).elim,
      fun _ _ hc => (ofSource_ne_ok_of_error hd (compile_ok hc).1).elim⟩
  rw [← hc] at htokens
  rw [← hc'] at htokens'
  rw [← hc, ← hc']
  refine ⟨?_, ⟨fun ⟨q, hq⟩ => ?_, fun ⟨q, hq⟩ => ?_⟩, fun q q' hq hq' => ?_, fun k k' hk hk' => ?_⟩
  · simp only [parses_iff htokens, parses_iff htokens']
    exact ⟨fun ⟨p, hp⟩ => (hexchanged.exists_ofTokens hp).imp fun _ h => h.1,
      fun ⟨p, hp⟩ => (hexchanged.symm.exists_ofTokens hp).imp fun _ h => h.1⟩
  · exact (hexchanged.exists_ofSource htokens htokens' hq).imp fun _ h => h.1
  · exact (hexchanged.symm.exists_ofSource htokens' htokens hq).imp fun _ h => h.1
  · obtain ⟨var, string, hprograms⟩ := hexchanged.exists_numbering htokens htokens' hq hq'
    refine ⟨hprograms.perm_declaredNames, fun f hf f' hf' hname => ?_⟩
    have hunplaced := hprograms.unplaced_eq (Program.named_of_ofSource hq') hf hf' hname
    exact ⟨hprograms.layout_eq hunplaced, (congrArg Function.frame hunplaced :)⟩
  · have hq' := (compile_ok hk').1
    obtain ⟨var, string, hprograms⟩ :=
      hexchanged.exists_numbering htokens htokens' (compile_ok hk).1 hq'
    obtain ⟨flow, hflow⟩ := hprograms.exists_relabelling hk hk'
    refine ⟨flow, string, hprograms.strings, fun f hf f' hf' hname => ?_⟩
    exact hflow f (List.mem_of_mem_filter hf) f' (List.mem_of_mem_filter hf')
      (hprograms.unplaced_eq (Program.named_of_ofSource hq') hf hf' hname)

/-- Two functions with locals, strings and branches, of which the second calls the first. -/
def textOfCall : Parts Char where
  front := "package p var n = 2\n".toList
  first := "func f(a int) \x7b if a < n \x7b print(\"f\") \x7d \x7d".toList
  between := " // one\n".toList
  second := "func main() \x7b for i := 0; i < 3; i = i + 1 \x7b f(i); print(\"m\") \x7d \x7d".toList
  back := []

/-- The tokens of the text, cut where the functions begin and end. -/
def tokensOfCall : Parts Token :=
  let tokens := (tokenize textOfCall.init).toOption.getD []
  let rest := tokens.drop 7
  ⟨tokens.take 7, rest.take 18, [], (rest.drop 18).dropLast, []⟩

/-- The labels of the two functions **have one another's numbers** where these change places. -/
theorem exchanged_functions_of_textOfCall :
    textOfCall.Neighbours tokensOfCall ∧ byteLength textOfCall.all < Grammar.placeLimit ∧
      ∃ c c', compile textOfCall.all = .ok c ∧ compile textOfCall.exchanged.all = .ok c' ∧
        c.program.declaredNames = ["f", "main"] ∧ c'.program.declaredNames = ["main", "f"] ∧
        ∃ flow string : Equiv.Perm Nat,
          (∀ i, c'.program.strings[string i]? = c.program.strings[i]?) ∧
          ∀ f ∈ c.program.declared, ∀ f' ∈ c'.program.declared, f'.name = f.name →
            ∃ l, (∀ k, c.Emits f k ↔ k = l) ∧
              ∀ k, c'.Emits f' k ↔ k = l.relabelled ⟨flow, string⟩ := by
  have h : textOfCall.Neighbours tokensOfCall := by decide +kernel
  have hsize : byteLength textOfCall.all < Grammar.placeLimit := by decide +kernel
  obtain ⟨c, hc, hnames⟩ := exists_ok_of_any (x := compile textOfCall.all)
    (P := fun c => c.program.declaredNames == ["f", "main"]) (by decide +kernel)
  obtain ⟨c', hc', hnames'⟩ := exists_ok_of_any (x := compile textOfCall.exchanged.all)
    (P := fun c => c.program.declaredNames == ["main", "f"]) (by decide +kernel)
  exact ⟨h, hsize, c, c', hc, hc', beq_iff_eq.mp hnames, beq_iff_eq.mp hnames',
    (exchanged_functions h hsize).2.2.2 c c' hc hc'⟩

end StackCompiler
