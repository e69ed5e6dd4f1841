import StackCompiler.Proofs.Grammar.Refusals
import StackCompiler.Proofs.Lowering.Calls
import StackCompiler.Proofs.Lowering.References
import StackCompiler.Proofs.Typing.Frames

/-!
# Proofs/Lowering/Definitions — what an assembly defines

The labels of an assembly are those that others may use, of variables, functions and routines
(`Program.outerLabels`), and those that only the listing uses (`Program.innerLabels`).  The latter
are **never written alike**.  Two of the former are exactly where a variable has the name of a
function, or the package that of the routines and something in it the name of one
(`nodup_outerNames_iff`).
-/

namespace StackCompiler

open Lowering

/-! ## Labels -/

def Datum.label? : Datum → Option Label
  | label l => some l
  | _ => none

/-- The labels that an assembly defines, **once for each definition**. -/
def Assembly.labels (a : Assembly) : List Label :=
  a.data.filterMap Datum.label? ++ a.code.labels

/-- The labels as they are written. -/
def Assembly.names (a : Assembly) : List String :=
  a.labels.map Label.text

namespace Program

/-- The names of the package-level variables. -/
def globalNames (p : Program) : List String :=
  p.globals.map fun id => p.vars[id]?.elim "" (·.name)

def declaredNames (p : Program) : List String :=
  p.declared.map (·.name)

/-- The symbols of the functions, the implicit one first. -/
def functionSymbols (p : Program) : List Symbol :=
  .entry :: p.declaredNames.map p.symbol

/-- The symbols of variables and functions. -/
def symbols (p : Program) : List Symbol :=
  p.globalNames.map p.symbol ++ p.functionSymbols

/-- The labels that others may use. -/
def outerLabels (p : Program) : List Label :=
  p.symbols.map Label.symbol ++ Routine.each.map Label.routine

/-- The labels that only the listing uses; those of control flow are **numbered**. -/
def innerLabels (p : Program) (numbered : List Label) : List Label :=
  (List.range p.strings.length).flatMap (fun i => [Label.string i, .descriptor i]) ++
    [Label.newline, .space, .digits, .write] ++ p.functionSymbols.map Label.returnOf ++ numbered

/-- What the names in a program are like: functions differ from each other in theirs, and so do
package-level variables. -/
structure Named (p : Program) : Prop where
  package : IsWord p.package
  functionSymbols : p.funcs.map p.functionSymbol = p.functionSymbols
  declared : p.declaredNames.Nodup
  globals : p.globalNames.Nodup

end Program

/-! ## The names of a program -/

section Named

variable {p : Program}

theorem functionSymbols_of_entry {f : Function} {fs : List Function} (hfuncs : p.funcs = f :: fs)
    (hf : f.isImplicit = true) (hfs : ∀ g ∈ fs, g.isImplicit = false) :
    p.funcs.map p.functionSymbol = p.functionSymbols := by
  have hdeclared : p.declared = fs := by
    rw [Program.declared, hfuncs, List.filter_cons_of_neg (by simp [hf]),
      List.filter_eq_self.mpr fun g hg => by simp [hfs g hg]]
  rw [Program.functionSymbols, Program.declaredNames, hdeclared, hfuncs, List.map_cons, List.map_map]
  refine congrArg₂ List.cons (if_pos hf) (List.map_congr_left fun g hg => ?_)
  exact if_neg (by simp [hfs g hg])

theorem globalNames_nodup {read : Program} (hread : read.Read) (h : read.Resolved p) :
    p.globalNames.Nodup := by
  rw [Program.globalNames, h.globals]
  refine List.Nodup.map_on (fun id hid id' hid' hname => ?_)
    (hread.ordered.imp fun hlt => Nat.ne_of_lt hlt)
  obtain ⟨v, hv, -⟩ := hread.globals id hid
  obtain ⟨v', hv', -⟩ := hread.globals id' hid'
  obtain ⟨w, hw, hfill⟩ := h.fills.at_number hv
  obtain ⟨w', hw', hfill'⟩ := h.fills.at_number hv'
  rw [hw, hw', Option.elim_some, Option.elim_some, hfill.name, hfill'.name] at hname
  exact hread.distinct id hid id' hid' v v' hv hv' hname

/-- **The names that a source gives are kept apart** where it is checked that they are. -/
theorem Program.named_of_ofSource {source : List Char} (h : Program.ofSource source = .ok p) :
    p.Named := by
  obtain ⟨tokens, read, htokens, hofTokens, hresolve⟩ := Program.ofSource_ok h
  have hread := Program.read_of_ofTokens hofTokens
  have hresolved := hread.resolve_outcome.1 p hresolve
  have htokenize := tokenize_of_tokensOf htokens
  obtain ⟨t, ht, hkind, htext⟩ := ((covers_of_tokenize htokenize).placed hofTokens).package
  obtain ⟨f, fs, hfuncs, hf, hfs⟩ := hread.entry
  have hheads := hresolved.heads
  rw [hfuncs] at hheads
  cases hp : p.funcs with
  | nil => rw [hp] at hheads; cases hheads
  | cons f' fs' =>
  rw [hp] at hheads
  obtain ⟨hhead, hheads⟩ := List.forall₂_cons.mp hheads
  refine ⟨?_, functionSymbols_of_entry hp (hhead.isImplicit.trans hf) fun g' hg' => ?_,
    hresolved.names hread, globalNames_nodup hread hresolved⟩
  · rw [hresolved.package, ← htext]
    exact (readFrom_of_tokenize htokenize t ht).isWord hkind
  · obtain ⟨g, hg, hsame⟩ := exists_of_forall₂ hheads.flip hg'
    exact hsame.isImplicit.trans (hfs g hg)

end Named

/-! ## The labels of a program -/

section Labels

variable {p : Program}

theorem labels_globals : ∀ {ids : List VarId} {data : List (List Datum)},
    ids.mapM (globalData p) = .ok data →
    data.flatten.filterMap Datum.label? =
      ids.map fun id => .symbol (p.symbol (p.vars[id]?.elim "" (·.name)))
  | [], data, h => by
    cases h
    rfl
  | id :: ids, data, h => by
    rw [List.mapM_cons] at h
    obtain ⟨first, hfirst, h⟩ := bind_eq_ok_iff.mp h
    obtain ⟨rest, hrest, h⟩ := bind_eq_ok_iff.mp h
    cases h
    unfold globalData at hfirst
    cases hv : p.vars[id]? with
    | none => rw [hv] at hfirst; cases hfirst
    | some v =>
      rw [hv] at hfirst
      cases hfirst
      rw [List.flatten_cons, List.filterMap_append, labels_globals hrest, List.map_cons, hv]
      rfl

theorem labels_stringData (s : String) (index : Nat) :
    (stringData s index).filterMap Datum.label? = [.string index, .descriptor index] := by
  unfold stringData
  split <;> rfl

theorem labels_strings (strings : List String) :
    (strings.zipIdx.map fun (s, index) => stringData s index).flatten.filterMap Datum.label? =
      (List.range strings.length).flatMap fun i => [.string i, .descriptor i] := by
  have hrange : List.range strings.length = strings.zipIdx.map Prod.snd := by
    rw [List.zipIdx_map_snd, List.range_eq_range']
  rw [hrange, List.flatMap_map, ← List.flatMap_def, List.filterMap_flatMap]
  exact congrArg (strings.zipIdx.flatMap ·) (funext fun _ => labels_stringData _ _)

/-- What data defines, **in the order of the data section**. -/
theorem labels_programData {data : List Datum} (h : programData p = .ok data) :
    data.filterMap Datum.label? = (p.globalNames.map fun name => Label.symbol (p.symbol name)) ++
      (List.range p.strings.length).flatMap (fun i => [Label.string i, .descriptor i]) ++
        [Label.newline, .space] := by
  obtain ⟨globals, hglobals, h⟩ := bind_eq_ok_iff.mp h
  cases h
  rw [List.filterMap_append, List.filterMap_append, labels_globals hglobals, labels_strings,
    Program.globalNames, List.map_map]
  rfl

/-- **The functions share out the numbers of control flow**: what they define are their symbols,
their ends, and labels of different numbers. -/
theorem labels_functionsCode : ∀ {fs : List Function} {base : Nat} {code : Listing},
    functionsCode p base fs = .ok code → ∃ numbered high, Numbered base high numbered ∧
      code.labels.Perm ((fs.map p.functionSymbol).map .symbol ++
        (fs.map p.functionSymbol).map .returnOf ++ numbered)
  | [], base, code, h => by
    cases h
    exact ⟨[], base, .nil le_rfl, .nil⟩
  | f :: fs, base, code, h => by
    obtain ⟨l, hl, h⟩ := bind_eq_ok_iff.mp h
    obtain ⟨rest, hrest, h⟩ := bind_eq_ok_iff.mp h
    cases h
    obtain ⟨first, hfirst, hlabels⟩ := labels_functionCode hl
    obtain ⟨later, high, hlater, hperm⟩ := labels_functionsCode hrest
    refine ⟨first ++ later, high, hfirst.append hlater, List.perm_iff_count.mpr fun name => ?_⟩
    have hcount := hperm.count_eq name
    simp only [List.count_append] at hcount
    simp only [Listing.labels_append, hlabels, List.map_cons, List.count_append, List.count_cons,
      List.count_nil, hcount]
    omega

theorem labels_routines : Listing.labels Routine.all =
    [.routine .printInt, .digits, .write, .routine .printString, .routine .printSpace,
      .routine .printNewline] := by
  decide

/-- **An assembly defines the outer labels and the inner ones**, and no others. -/
theorem Program.Named.labels_assemble (hp : p.Named) {a : Assembly} (h : p.assemble = .ok a) :
    ∃ numbered high, Numbered 0 high numbered ∧
      a.labels.Perm (p.outerLabels ++ p.innerLabels numbered) := by
  obtain ⟨data, hdata, h⟩ := bind_eq_ok_iff.mp h
  obtain ⟨code, hcode, h⟩ := bind_eq_ok_iff.mp h
  cases h
  obtain ⟨numbered, high, hnumbered, hperm⟩ := labels_functionsCode hcode
  refine ⟨numbered, high, hnumbered, List.perm_iff_count.mpr fun name => ?_⟩
  have hcount := hperm.count_eq name
  rw [hp.functionSymbols] at hcount
  simp only [List.count_append] at hcount
  have hglobals : (p.globalNames.map p.symbol).map Label.symbol =
      p.globalNames.map fun name => .symbol (p.symbol name) := List.map_map
  simp only [Assembly.labels, labels_programData hdata, Listing.labels_append, labels_routines,
    hcount, outerLabels, innerLabels, symbols, List.map_append, hglobals, Routine.each,
    List.map_cons, List.map_nil, List.count_append, List.count_cons, List.count_nil]
  omega

end Labels

/-! ## How labels are written -/

namespace Program.Named

variable {p : Program} {numbered : List Label} {high : Nat}

theorem within_symbol (name : String) : (p.symbol name).Within p.package :=
  rfl

theorem within_of_mem_functionSymbols : ∀ s ∈ p.functionSymbols, s.Within p.package :=
  List.forall_mem_cons.mpr ⟨trivial, List.forall_mem_map.mpr fun name _ => within_symbol name⟩

theorem within_of_mem_symbols : ∀ s ∈ p.symbols, s.Within p.package :=
  List.forall_mem_append.mpr
    ⟨List.forall_mem_map.mpr fun name _ => within_symbol name, within_of_mem_functionSymbols⟩

theorem symbol_injective (p : Program) : Function.Injective p.symbol :=
  fun _ _ h => (Symbol.member.inj h).2

theorem nodup_functionSymbols (hp : p.Named) : p.functionSymbols.Nodup :=
  List.nodup_cons.mpr ⟨by simp [symbol], hp.declared.map (symbol_injective p)⟩

/-! ### Inner labels -/

/-- A label of the listing alone is that of a string, one of four, the end of a function, or
numbered. -/
theorem mem_innerLabels {l : Label} : l ∈ p.innerLabels numbered ↔
    (∃ i < p.strings.length, l = .string i ∨ l = .descriptor i) ∨
      l ∈ [Label.newline, .space, .digits, .write] ∨
      (∃ s ∈ p.functionSymbols, l = .returnOf s) ∨ l ∈ numbered := by
  simp only [innerLabels, List.mem_append, List.mem_flatMap, List.mem_range, List.mem_pair,
    List.mem_map, eq_comm (a := l), or_assoc]

theorem isLocal_of_mem (hn : Numbered 0 high numbered) :
    ∀ l ∈ p.innerLabels numbered, l.isLocal = true := by
  intro l hl
  rcases mem_innerLabels.mp hl with ⟨i, -, rfl | rfl⟩ | hl | ⟨s, -, rfl⟩ | hl
  · rfl
  · rfl
  · simp only [List.mem_cons, List.not_mem_nil, or_false] at hl
    rcases hl with rfl | rfl | rfl | rfl <;> rfl
  · rfl
  · obtain ⟨n, hnumber, -⟩ := hn.bounds l hl
    exact isLocal_of_number? hnumber

theorem nodup_stringLabels (n : Nat) :
    ((List.range n).flatMap fun i => [Label.string i, .descriptor i]).Nodup := by
  rw [List.nodup_flatMap]
  refine ⟨fun i _ => by simp, List.nodup_range.imp fun {i j} hne l hl hl' => ?_⟩
  rcases List.mem_pair.mp hl with rfl | rfl <;> rcases List.mem_pair.mp hl' with h | h <;> cases h <;>
    exact hne rfl

theorem nodup_innerLabels (hp : p.Named) (hn : Numbered 0 high numbered) :
    (p.innerLabels numbered).Nodup := by
  unfold innerLabels
  refine List.nodup_append.mpr ⟨List.nodup_append.mpr ⟨List.nodup_append.mpr
    ⟨nodup_stringLabels _, by decide, fun l hl l' hl' h => ?_⟩,
    hp.nodup_functionSymbols.map fun _ _ h => Label.returnOf.inj h, fun l hl l' hl' h => ?_⟩,
    hn.nodup, fun l hl l' hl' h => ?_⟩
  · obtain ⟨i, -, hl⟩ := List.mem_flatMap.mp hl
    subst h
    rcases List.mem_pair.mp hl with rfl | rfl <;> simp at hl'
  · obtain ⟨s, -, rfl⟩ := List.mem_map.mp hl'
    subst h
    simp at hl
  · obtain ⟨n, hnumber, -⟩ := hn.bounds l' hl'
    subst h
    cases l with
    | elseOf | beginOf | endOf => simp at hl
    | _ => cases hnumber

/-- **Labels of the listing alone are written differently.** -/
theorem nodup_innerNames (hp : p.Named) (hn : Numbered 0 high numbered) :
    ((p.innerLabels numbered).map Label.text).Nodup := by
  have hsymbol {s : Symbol} (hs : .returnOf s ∈ p.innerLabels numbered) : s.Within p.package := by
    rcases mem_innerLabels.mp hs with ⟨i, -, h | h⟩ | h | ⟨s', hs', h⟩ | h
    · cases h
    · cases h
    · simp at h
    · cases h
      exact within_of_mem_functionSymbols s hs'
    · obtain ⟨n, hnumber, -⟩ := hn.bounds _ h
      cases hnumber
  refine List.Nodup.map_on (fun l hl l' hl' htext => ?_) (hp.nodup_innerLabels hn)
  rcases Label.eq_of_text (isLocal_of_mem hn l hl) (isLocal_of_mem hn l' hl') htext with
    rfl | ⟨s, s', rfl, rfl, hsame⟩
  · rfl
  · exact congrArg Label.returnOf (Symbol.eq_of_text (hsymbol hl) (hsymbol hl') hsame)

/-! ### Outer labels -/

theorem isLocal_of_mem_outer : ∀ l ∈ p.outerLabels, l.isLocal = false :=
  List.forall_mem_append.mpr ⟨List.forall_mem_map.mpr fun _ _ => rfl,
    List.forall_mem_map.mpr fun _ _ => rfl⟩

theorem not_mark_prefix_of_mem (hp : p.Named) :
    ∀ l ∈ p.outerLabels, ¬Label.mark <+: l.text.toList :=
  List.forall_mem_append.mpr
    ⟨List.forall_mem_map.mpr fun s hs =>
      Symbol.not_mark_prefix hp.package (within_of_mem_symbols s hs),
    List.forall_mem_map.mpr fun r _ => Routine.not_mark_prefix r⟩

theorem nodup_symbols_iff (hp : p.Named) :
    (p.symbols.map Symbol.text).Nodup ↔ p.globalNames.Disjoint p.declaredNames := by
  have htext : (p.symbols.map Symbol.text).Nodup ↔ p.symbols.Nodup :=
    ⟨List.Nodup.of_map _, fun h => h.map_on fun s hs s' hs' => Symbol.eq_of_text
      (within_of_mem_symbols s hs) (within_of_mem_symbols s' hs')⟩
  rw [htext, symbols, List.nodup_append']
  refine ⟨fun ⟨_, _, h⟩ name hglobal hdeclared => ?_, fun h =>
    ⟨hp.globals.map (symbol_injective p), hp.nodup_functionSymbols, fun s hglobal hs => ?_⟩⟩
  · exact h (List.mem_map_of_mem hglobal) (List.mem_cons_of_mem _ (List.mem_map_of_mem hdeclared))
  · obtain ⟨name, hname, rfl⟩ := List.mem_map.mp hglobal
    rcases List.mem_cons.mp hs with heq | hs
    · cases heq
    · obtain ⟨name', hname', heq⟩ := List.mem_map.mp hs
      exact h hname (symbol_injective p heq ▸ hname')

/-- Whether a symbol is written as a routine is a matter of **the package's name and its own**. -/
theorem disjoint_routines_iff (hp : p.Named) :
    (p.symbols.map Symbol.text).Disjoint (Routine.each.map Routine.text) ↔
      (p.package = Routine.package → ∀ r : Routine,
        r.name ∉ p.globalNames ∧ r.name ∉ p.declaredNames) := by
  have hmeet : (p.symbols.map Symbol.text).Disjoint (Routine.each.map Routine.text) ↔
      ∀ s ∈ p.symbols, ∀ r : Routine, s ≠ .member Routine.package r.name := by
    constructor
    · intro h s hs r hr
      refine h (List.mem_map_of_mem hs) ?_
      rw [(Routine.text_eq_text_iff hp.package (within_of_mem_symbols s hs)).mpr hr]
      exact List.mem_map_of_mem r.mem_each
    · intro h text htext hr
      obtain ⟨s, hs, rfl⟩ := List.mem_map.mp htext
      obtain ⟨r, -, hr⟩ := List.mem_map.mp hr
      exact h s hs r ((Routine.text_eq_text_iff hp.package (within_of_mem_symbols s hs)).mp hr.symm)
  rw [hmeet]
  constructor
  · intro h hpackage r
    have hsymbol {name : String} (hname : name = r.name) :
        p.symbol name = .member Routine.package r.name := by rw [symbol, hpackage, hname]
    exact ⟨fun hmem => h _ (List.mem_append_left _ (List.mem_map_of_mem hmem)) r (hsymbol rfl),
      fun hmem => h _ (List.mem_append_right _ (List.mem_cons_of_mem _ (List.mem_map_of_mem hmem)))
        r (hsymbol rfl)⟩
  · rintro h s hs r rfl
    rcases List.mem_append.mp hs with hs | hs
    · obtain ⟨name, hname, heq⟩ := List.mem_map.mp hs
      obtain ⟨hpackage, rfl⟩ := Symbol.member.inj heq
      exact (h hpackage r).1 hname
    · rcases List.mem_cons.mp hs with heq | hs
      · cases heq
      · obtain ⟨name, hname, heq⟩ := List.mem_map.mp hs
        obtain ⟨hpackage, rfl⟩ := Symbol.member.inj heq
        exact (h hpackage r).2 hname

end Program.Named

/-- The labels that others may use are **each defined once** unless a variable has the name of a
function, or the package has that of the routines and something in it the name of one. -/
theorem nodup_outerNames_iff {source : List Char} {c : Compilation} (hc : compile source = .ok c) :
    (c.assembly.labels.filter fun l => !l.isLocal).Perm c.program.outerLabels ∧
      (((c.assembly.labels.filter fun l => !l.isLocal).map Label.text).Nodup ↔
        c.program.globalNames.Disjoint c.program.declaredNames ∧
          (c.program.package = Routine.package → ∀ r : Routine,
            r.name ∉ c.program.globalNames ∧ r.name ∉ c.program.declaredNames)) := by
  have hp := Program.named_of_ofSource (compile_ok hc).1
  obtain ⟨numbered, high, hn, hperm⟩ := hp.labels_assemble (compile_ok hc).2
  have houter : (c.assembly.labels.filter fun l => !l.isLocal).Perm c.program.outerLabels := by
    refine (hperm.filter _).trans (.of_eq ?_)
    rw [List.filter_append, List.filter_eq_self.mpr fun l hl => ?_,
      List.filter_eq_nil_iff.mpr fun l hl => ?_, List.append_nil]
    · simp [Program.Named.isLocal_of_mem hn l hl]
    · simp [Program.Named.isLocal_of_mem_outer l hl]
  have htexts : c.program.outerLabels.map Label.text =
      c.program.symbols.map Symbol.text ++ Routine.each.map Routine.text := by
    rw [Program.outerLabels, List.map_append, List.map_map, List.map_map]
    rfl
  refine ⟨houter, (houter.map Label.text).nodup_iff.trans ?_⟩
  rw [htexts, List.nodup_append', hp.nodup_symbols_iff, hp.disjoint_routines_iff]
  exact ⟨fun ⟨hnames, _, hroutines⟩ => ⟨hnames, hroutines⟩,
    fun ⟨hnames, hroutines⟩ => ⟨hnames, Routine.nodup_texts, hroutines⟩⟩

/-- A variable with the name of a function. -/
def textOfSharedName : String :=
  "package p var main int; func main() \x7b \x7d"

/-- A package with the name of that of the routines, and in it a function with the name of one. -/
def textOfRoutineName : String :=
  "package __rgoc func printint() \x7b \x7d func main() \x7b \x7d"

/-- Both sources are compiled, and **a label is defined twice** in what they are compiled to. -/
theorem nodup_outerNames_of_taken_names :
    (∃ c, compile textOfSharedName.toList = .ok c ∧
      ¬((c.assembly.labels.filter fun l => !l.isLocal).map Label.text).Nodup) ∧
    ∃ c, compile textOfRoutineName.toList = .ok c ∧
      ¬((c.assembly.labels.filter fun l => !l.isLocal).map Label.text).Nodup := by
  constructor
  · obtain ⟨c, hc, hshared⟩ := exists_ok_of_text (s := textOfSharedName) rfl (f := compile)
      (P := fun _ c =>
        c.program.globalNames.contains "main" && c.program.declaredNames.contains "main")
      (by decide +kernel)
    obtain ⟨hglobal, hdeclared⟩ := Bool.and_eq_true_iff.mp hshared
    exact ⟨c, hc, fun hnodup => ((nodup_outerNames_iff hc).2.mp hnodup).1
      (List.contains_iff_mem.mp hglobal) (List.contains_iff_mem.mp hdeclared)⟩
  · obtain ⟨c, hc, htaken⟩ := exists_ok_of_text (s := textOfRoutineName) rfl (f := compile)
      (P := fun _ c => c.program.package == Routine.package &&
        c.program.declaredNames.contains Routine.printInt.name) (by decide +kernel)
    obtain ⟨hpackage, hdeclared⟩ := Bool.and_eq_true_iff.mp htaken
    exact ⟨c, hc, fun hnodup => (((nodup_outerNames_iff hc).2.mp hnodup).2 (beq_iff_eq.mp hpackage)
      .printInt).2 (List.contains_iff_mem.mp hdeclared)⟩

end StackCompiler
