import StackCompiler.Proofs.Lowering.Definitions

/-!
# Proofs/Lowering/Closed — whatever an assembly refers to, it defines

Each piece of the code, of a routine or of a function, jumps to **its own** local labels, which are
defined once; calls lead to functions and routines, and addresses to what stands in the data section
or in the function's own frame (`closed_of_compile`).
-/

namespace StackCompiler

open Lowering Typing

/-! ## Routines -/

/-- What the lines of a routine refer to, in their order. -/
def Routine.references : Routine → List Reference
  | printInt => [.place (.frame 1), .jump .digits, .place (.above .rsi 0), .jump .digits,
      .jump .write, .place (.above .rsi 0)]
  | printString => []
  | printSpace => [.place (.data .space)]
  | printNewline => [.place (.data .newline)]

theorem Routine.filterMap_reference? (r : Routine) :
    r.code.filterMap Line.reference? = r.references := by
  cases r <;> rfl

/-- A routine jumps to **its own local labels only**. -/
theorem Routine.jump_mem_references {r : Routine} {target : Label}
    (h : .jump target ∈ r.references) : target ∈ (Listing.labels r.code).filter Label.isLocal := by
  cases r with
  | printInt =>
    have htarget : target = .digits ∨ target = .write := by simpa [references] using h
    rcases htarget with rfl | rfl <;> decide
  | _ => simp [references] at h

/-! ## What stands where -/

/-- So many bytes below the frame's base stands one of the function's locals, or the upper word of a
parameter that is a string. -/
def Function.HasPlace (vars : List Variable) (f : Function) (offset : Int) : Prop :=
  ∃ id ∈ f.locals, ∃ v, vars[id]? = some v ∧
    (offset = v.offset ∨ id ∈ f.params ∧ v.ty.isString = true ∧ offset = v.offset - 8)

/-- What a piece of the code refers to is there; `frame` says where in a frame something is. -/
def Compilation.Resolves (c : Compilation) (frame : Int → Prop) (piece : Listing) :
    Reference → Prop
  | .jump target => Label.mark <+: target.text.toList ∧ target ∈ piece.labels ∧
    c.assembly.names.count target.text = 1
  | .call target => target ∈ c.assembly.code.labels ∧
    ((∃ f ∈ c.program.declared, target = .symbol (c.program.functionSymbol f)) ∨
      ∃ r, target = .routine r)
  | .place (.frame offset) => frame offset
  | .place (.data target) => .label target ∈ c.assembly.data
  | .place (.above _ _) => True

/-- Whatever the lines of the piece refer to **is there**. -/
def Compilation.Closes (c : Compilation) (frame : Int → Prop) (piece : Listing) : Prop :=
  ∀ line ∈ piece, ∀ r, line.reference? = some r → c.Resolves frame piece r

/-- No part of the assembly refers to anything that is not there. -/
structure Compilation.Closed (c : Compilation) : Prop where
  /-- The code is made up of the routines and a listing for each function. -/
  functions : ∃ listings,
    c.assembly.code = (Routine.each.map Routine.code ++ listings).flatten ∧
      List.Forall₂ (fun f l => c.Emits f l ∧ c.Closes (f.HasPlace c.program.vars) l)
        c.program.funcs listings
  routines : ∀ r : Routine, c.Closes (fun _ => True) r.code
  data : ∀ target, .address target ∈ c.assembly.data → .label target ∈ c.assembly.data

/-! ## Data -/

namespace Lowering

variable {p : Program} {data : List Datum}

theorem label?_eq_some_iff {d : Datum} {l : Label} : d.label? = some l ↔ d = .label l := by
  cases d <;> simp [Datum.label?]

theorem label_mem_iff {l : Label} : .label l ∈ data ↔ l ∈ data.filterMap Datum.label? := by
  simp [List.mem_filterMap, label?_eq_some_iff]

theorem global_mem_data (h : programData p = .ok data) {id : VarId} (hid : id ∈ p.globals)
    {v : Variable} (hv : p.vars[id]? = some v) : .label (.symbol (p.symbol v.name)) ∈ data := by
  have hname : v.name ∈ p.globalNames :=
    List.mem_map.mpr ⟨id, hid, by rw [hv, Option.elim_some]⟩
  rw [label_mem_iff, labels_programData h]
  exact List.mem_append_left _ (List.mem_append_left _ (List.mem_map.mpr ⟨_, hname, rfl⟩))

theorem string_mem_data (h : programData p = .ok data) {i : Nat} (hi : i < p.strings.length) :
    .label (.string i) ∈ data ∧ .label (.descriptor i) ∈ data := by
  have hmem {l : Label} (hl : l ∈ [Label.string i, .descriptor i]) : .label l ∈ data := by
    rw [label_mem_iff, labels_programData h]
    refine List.mem_append_left _ (List.mem_append_right _ ?_)
    exact List.mem_flatMap.mpr ⟨i, List.mem_range.mpr hi, hl⟩
  exact ⟨hmem (by simp), hmem (by simp)⟩

theorem constant_mem_data (h : programData p = .ok data) :
    .label .newline ∈ data ∧ .label .space ∈ data := by
  rw [label_mem_iff, label_mem_iff, labels_programData h]
  exact ⟨by simp, by simp⟩

theorem address_not_mem_globals : ∀ {ids : List VarId} {globals : List (List Datum)},
    ids.mapM (globalData p) = .ok globals → ∀ l, .address l ∉ globals.flatten
  | [], _, h, l => by
    cases h
    exact List.not_mem_nil
  | id :: ids, _, h, l => by
    rw [List.mapM_cons] at h
    obtain ⟨first, hfirst, h⟩ := bind_eq_ok_iff.mp h
    obtain ⟨rest, hrest, h⟩ := bind_eq_ok_iff.mp h
    cases h
    rw [List.flatten_cons, List.mem_append, not_or]
    refine ⟨?_, address_not_mem_globals hrest l⟩
    unfold globalData at hfirst
    split at hfirst <;> cases hfirst
    simp

theorem address_mem_stringData {s : String} {index : Nat} {l : Label}
    (h : .address l ∈ stringData s index) : l = .string index := by
  unfold stringData at h
  split at h <;> simpa using h

/-- What the data section takes the address of is **a string that it holds**. -/
theorem address_mem_data (h : programData p = .ok data) {l : Label} (hl : .address l ∈ data) :
    .label l ∈ data := by
  have hdata := h
  obtain ⟨globals, hglobals, h⟩ := bind_eq_ok_iff.mp h
  cases h
  rcases List.mem_append.mp hl with hl' | hl'
  · rcases List.mem_append.mp hl' with hl' | hl'
    · exact absurd hl' (address_not_mem_globals hglobals l)
    · obtain ⟨ds, hds, hl'⟩ := List.mem_flatten.mp hl'
      obtain ⟨⟨s, index⟩, hindex, rfl⟩ := List.mem_map.mp hds
      obtain rfl := address_mem_stringData hl'
      exact (string_mem_data hdata (List.snd_lt_of_mem_zipIdx hindex)).1
  · simp [Routine.data] at hl'

/-! ## The body of a function -/

variable {P : Reference → Prop} {f : Function}

/-- Every node of a typed body refers to what **its rule** tells of. -/
theorem refersTo_of_typed (hp : p.Typed) (hf : f ∈ p.funcs)
    (hframe : ∀ id ∈ f.locals, ∀ v, p.vars[id]? = some v → P (.place (.frame v.offset)))
    (hglobal : ∀ id ∈ p.globals, ∀ v, p.vars[id]? = some v →
      P (.place (.data (.symbol (p.symbol v.name)))))
    (hstring : ∀ i < p.strings.length, P (.place (.data (.descriptor i))))
    (hcall : ∀ g ∈ p.declared, P (.call (.symbol (p.symbol g.name)))) {e : Expr}
    (htyped : e.TypedRule p.vars p.strings.length p.signatures fun _ => True)
    (hnames : e.Names fun id => id ∈ f.locals ∨ id ∈ p.globals) : RefersTo p P e := by
  cases e with
  | var id =>
    intro v hv
    rcases hnames with hlocal | hid
    · obtain ⟨w, hw, hown, -⟩ := (hp.funcs f hf).locals id hlocal
      cases hv.symm.trans hw
      rw [variablePlace, if_pos hown]
      exact hframe id hlocal v hv
    · obtain ⟨w, hw, hown, -⟩ := hp.globals id hid
      cases hv.symm.trans hw
      rw [variablePlace, if_neg (by rw [hown]; exact Bool.false_ne_true)]
      exact hglobal id hid v hv
  | str string => exact fun hlt => hstring string hlt
  | call name =>
    obtain ⟨-, signature, hsignature, rfl, -⟩ := htyped
    obtain ⟨g, hg, rfl⟩ := List.mem_map.mp hsignature
    exact hcall g hg
  | _ => trivial

end Lowering

/-! ## Whole assemblies -/

/-- A local label is **defined once**. -/
theorem Program.Named.count_names {p : Program} (hp : p.Named) {a : Assembly}
    (h : p.assemble = .ok a) {l : Label} (hl : l ∈ a.labels) (hlocal : l.isLocal = true) :
    a.names.count l.text = 1 := by
  obtain ⟨numbered, high, hn, hperm⟩ := hp.labels_assemble h
  have houter : l.text ∉ p.outerLabels.map Label.text := fun hmem => by
    obtain ⟨l', hl', htext⟩ := List.mem_map.mp hmem
    exact hp.not_mark_prefix_of_mem l' hl' (htext ▸ Label.mark_prefix hlocal)
  have hinner : l ∈ p.innerLabels numbered := by
    refine (List.mem_append.mp (hperm.subset hl)).resolve_left fun hmem => ?_
    rw [Program.Named.isLocal_of_mem_outer l hmem] at hlocal
    cases hlocal
  rw [Assembly.names, (hperm.map Label.text).count_eq, List.map_append, List.count_append,
    List.count_eq_zero_of_not_mem houter,
    List.count_eq_one_of_mem (hp.nodup_innerNames hn) (List.mem_map_of_mem hinner)]

namespace Compilation

variable {source : List Char} {c : Compilation} {frame : Int → Prop} {piece : Listing}

theorem exists_data (hc : compile source = .ok c) : programData c.program = .ok c.assembly.data := by
  obtain ⟨data, hdata, h⟩ := bind_eq_ok_iff.mp (compile_ok hc).2
  obtain ⟨code, -, h⟩ := bind_eq_ok_iff.mp h
  rw [← Except.ok.inj h]
  exact hdata

theorem labels_subset (h : piece <:+: c.assembly.code) : piece.labels ⊆ c.assembly.code.labels :=
  fun _ hl => Listing.mem_labels.mpr (h.subset (Listing.mem_labels.mp hl))

/-- A piece that jumps to its own local labels finds them. -/
theorem resolves_jump (hc : compile source = .ok c) (hpiece : piece <:+: c.assembly.code)
    {target : Label} (h : target ∈ piece.labels.filter Label.isLocal) :
    c.Resolves frame piece (.jump target) := by
  obtain ⟨hmem, hlocal⟩ := List.mem_filter.mp h
  exact ⟨Label.mark_prefix hlocal, hmem, (Program.named_of_ofSource (compile_ok hc).1).count_names
    (compile_ok hc).2 (List.mem_append_right _ (labels_subset hpiece hmem)) hlocal⟩

theorem closes_of_refers (hc : compile source = .ok c) (hpiece : piece <:+: c.assembly.code)
    (h : piece.Refers (c.Resolves frame piece) (piece.labels.filter Label.isLocal)) :
    c.Closes frame piece := by
  intro line hline r hr
  have hmeets := h line hline r hr
  cases r with
  | jump target => exact resolves_jump hc hpiece hmeets
  | call | place => exact hmeets

theorem routine_inside (hc : compile source = .ok c) (r : Routine) :
    r.code <:+: c.assembly.code := by
  obtain ⟨listings, hcode, -⟩ := exists_listings hc
  rw [hcode]
  refine List.IsInfix.trans ?_ (List.prefix_append Routine.all _).isInfix
  exact List.infix_of_mem_flatten (List.mem_map_of_mem r.mem_each)

theorem common_resolves (hc : compile source = .ok c) :
    Reference.Common (c.Resolves frame piece) where
  above _ _ := trivial
  routine r := by
    refine ⟨labels_subset (routine_inside hc r) ?_, .inr ⟨r, rfl⟩⟩
    cases r <;> decide

/-- **The routines** jump to their own labels, and print constants that are there. -/
theorem closes_routine (hc : compile source = .ok c) (r : Routine) :
    c.Closes (fun _ => True) r.code := by
  obtain ⟨hnewline, hspace⟩ := constant_mem_data (exists_data hc)
  refine closes_of_refers hc (routine_inside hc r) fun line hline ref href => ?_
  have hmem : ref ∈ r.references :=
    r.filterMap_reference? ▸ List.mem_filterMap.mpr ⟨line, hline, href⟩
  cases ref with
  | jump target => exact Routine.jump_mem_references hmem
  | call target => cases r <;> simp [Routine.references] at hmem
  | place a =>
    cases r with
    | printInt =>
      have ha : a = .frame 1 ∨ a = .above .rsi 0 := by simpa [Routine.references] using hmem
      rcases ha with rfl | rfl <;> trivial
    | printString => cases hmem
    | printSpace => cases List.mem_singleton.mp hmem; exact hspace
    | printNewline => cases List.mem_singleton.mp hmem; exact hnewline

/-- The symbol of a function that a source has declared **is a label of the code**. -/
theorem function_mem_labels (hc : compile source = .ok c) {f : Function}
    (hf : f ∈ c.program.declared) :
    c.program.functionSymbol f = c.program.symbol f.name ∧
      .symbol (c.program.functionSymbol f) ∈ c.assembly.code.labels := by
  obtain ⟨hmem, himplicit⟩ := List.mem_filter.mp hf
  obtain ⟨l, hl⟩ := exists_emits hc hmem
  obtain ⟨base, hcode⟩ := hl.code
  obtain ⟨numbered, -, hlabels⟩ := labels_functionCode hcode
  refine ⟨if_neg (by simpa using himplicit), labels_subset hl.inside ?_⟩
  rw [hlabels]
  exact List.mem_cons_self

/-- **The listing of a function** refers to what its body names. -/
theorem closes_function (hc : compile source = .ok c) {f : Function} {l : Listing}
    (hl : c.Emits f l) : c.Closes (f.HasPlace c.program.vars) l := by
  obtain ⟨tokens, read, -, hread, hresolve⟩ := Program.ofSource_ok (compile_ok hc).1
  have hread := Program.read_of_ofTokens hread
  have hp := (hread.resolve_outcome.1 _ hresolve).typed
  have htyped := hp.funcs f hl.func
  obtain ⟨base, hcode⟩ := hl.code
  have hparams : ∀ id ∈ f.params, id ∈ f.locals := fun _ hid => htyped.params.subset hid
  refine closes_of_refers hc hl.inside (refers_functionCode (common_resolves hc) hcode
    (fun id hid v hv => ⟨?_, fun hs => ?_⟩) fun st hst => ?_)
  · exact ⟨id, hparams id hid, v, hv, .inl rfl⟩
  · exact ⟨id, hparams id hid, v, hv, .inr ⟨hid, hs, rfl⟩⟩
  · refine ((htyped.body st hst).and (hread.scoped _ hresolve f hl.func st hst)).mono
      (fun e ⟨htyped, hnames⟩ => ?_) fun _ _ => trivial
    refine refersTo_of_typed hp hl.func (fun id hid v hv => ⟨id, hid, v, hv, .inl rfl⟩)
      (fun id hid v hv => ?_) (fun i hi => ?_) (fun g hg => ?_) htyped hnames
    · exact global_mem_data (exists_data hc) hid hv
    · exact (string_mem_data (exists_data hc) hi).2
    · obtain ⟨hsymbol, hmem⟩ := function_mem_labels hc hg
      exact ⟨hsymbol ▸ hmem, .inl ⟨g, hg, congrArg Label.symbol hsymbol.symm⟩⟩

end Compilation

/-- **Whatever a compiled assembly refers to, it defines.** -/
theorem closed_of_compile {source : List Char} {c : Compilation} (hc : compile source = .ok c) :
    c.Closed := by
  obtain ⟨listings, hcode, hlistings⟩ := Compilation.exists_listings hc
  refine ⟨⟨listings, ?_, hlistings.imp fun f l hl => ⟨hl, Compilation.closes_function hc hl⟩⟩,
    Compilation.closes_routine hc, fun target htarget => ?_⟩
  · rw [hcode, List.flatten_append]
    rfl
  · exact address_mem_data (Compilation.exists_data hc) htarget

/-- A branch in a loop, a string that is passed and printed, and a package-level variable. -/
def textOfReferences : String :=
  "package p var g int
  func f(s string) \x7b for g < 2 \x7b if g == 1 \x7b print(s) \x7d; g = 2 \x7d \x7d func main() \x7b f(\"a\") \x7d"

/-- Some of what the code of that source refers to. -/
def referencesOfText : List Reference :=
  [.jump (.endOf 1), .jump (.elseOf 2), .jump (.beginOf 1), .call (.symbol (.member "p" "f")),
    .call (.routine .printString), .place (.frame 16), .place (.frame 8),
    .place (.data (.symbol (.member "p" "g"))), .place (.data (.descriptor 0))]

/-- That source is compiled to code with references **of every kind**, all of which lead somewhere. -/
theorem closed_of_references :
    ∃ c, compile textOfReferences.toList = .ok c ∧ c.Closed ∧
      ∀ r ∈ referencesOfText, r ∈ c.assembly.code.filterMap Line.reference? := by
  obtain ⟨c, hc, hrefs⟩ := exists_ok_of_text (s := textOfReferences) rfl (f := compile)
    (P := fun _ c => decide
      (∀ r ∈ referencesOfText, r ∈ c.assembly.code.filterMap Line.reference?)) (by decide +kernel)
  exact ⟨c, hc, closed_of_compile hc, of_decide_eq_true hrefs⟩

end StackCompiler
