import StackCompiler.Proofs.Lowering.Definitions
import StackCompiler.Proofs.Lowering.Numbered
import StackCompiler.Proofs.Stretches

/-!
# Proofs/Lowering/Exchange — the listings of functions in another order

All that the code of a function has from the functions before it is **how many labels they take**.  Where
two functions that stand one behind the other change places, so do the numbers of their labels, and each
function has the listing that it had under other numbers.  Since the symbol of a function stands in the
code once, that is the only listing that it has.
-/

namespace StackCompiler

open Lowering

namespace Lowering

/-! ## Functions one after the other -/

/-- How many numbers the labels of functions take. -/
def labelTotal (fs : List Function) : Nat :=
  (fs.map fun f => Stmt.labelCounts f.body).sum

/-- In the code there is that listing of the function. -/
structure Lists (p : Program) (code : Listing) (f : Function) (l : Listing) : Prop where
  listing : ∃ base, functionCode p f base = .ok l
  inside : l <:+: code

/-- The functions have listings in the one code, and under other numbers **these, relabelled**, in the
other. -/
def Relists (p p' : Program) (n : Numbering) (m : Relabelling) (fs : List Function)
    (code code' : Listing) : Prop :=
  ∀ f ∈ fs, ∃ l, Lists p code f l ∧ Lists p' code' (f.numbered n) (l.relabelled m)

section Functions

variable {p p' : Program} {n : Numbering} {m : Relabelling} {f : Function} {fs gs : List Function}
  {base base' : Nat} {l code code' rest rest' : Listing}

theorem Lists.mono (h : Lists p code f l) (hcode : code <:+: code') : Lists p code' f l :=
  ⟨h.listing, h.inside.trans hcode⟩

theorem Relists.mono (h : Relists p p' n m fs code code') (hcode : code <:+: rest)
    (hcode' : code' <:+: rest') : Relists p p' n m fs rest rest' := fun f hf =>
  (h f hf).imp fun _ hl => ⟨hl.1.mono hcode, hl.2.mono hcode'⟩

theorem Relists.append (h : Relists p p' n m fs code code') (h' : Relists p p' n m gs rest rest') :
    Relists p p' n m (fs ++ gs) (code ++ rest) (code' ++ rest') :=
  List.forall_mem_append.mpr
    ⟨h.mono (List.prefix_append _ _).isInfix (List.prefix_append _ _).isInfix,
      h'.mono (List.suffix_append _ _).isInfix (List.suffix_append _ _).isInfix⟩

theorem Relists.append_comm (h : Relists p p' n m fs code code')
    (h' : Relists p p' n m gs rest rest') :
    Relists p p' n m (fs ++ gs) (code ++ rest) (rest' ++ code') :=
  List.forall_mem_append.mpr
    ⟨h.mono (List.prefix_append _ _).isInfix (List.suffix_append _ _).isInfix,
      h'.mono (List.suffix_append _ _).isInfix (List.prefix_append _ _).isInfix⟩

theorem functionsCode_append_eq_ok_iff : functionsCode p base (fs ++ gs) = .ok code ↔
    ∃ first second, functionsCode p base fs = .ok first ∧
      functionsCode p (base + labelTotal fs) gs = .ok second ∧ code = first ++ second := by
  induction fs generalizing base code with
  | nil => exact ⟨fun h => ⟨[], code, rfl, h, rfl⟩, fun ⟨_, _, hfirst, h, hcode⟩ => by
      cases hfirst
      exact hcode ▸ h⟩
  | cons f fs ih =>
    have htotal : base + labelTotal (f :: fs) = base + Stmt.labelCounts f.body + labelTotal fs := by
      rw [labelTotal, List.map_cons, List.sum_cons, ← Nat.add_assoc]
      rfl
    rw [htotal]
    constructor
    · intro h
      obtain ⟨l, hl, h⟩ := bind_eq_ok_iff.mp h
      obtain ⟨rest, hrest, h⟩ := bind_eq_ok_iff.mp h
      cases h
      obtain ⟨first, second, hfirst, hsecond, rfl⟩ := ih.mp hrest
      exact ⟨l ++ first, second,
        bind_eq_ok_iff.mpr ⟨l, hl, bind_eq_ok_iff.mpr ⟨first, hfirst, rfl⟩⟩, hsecond,
        (List.append_assoc _ _ _).symm⟩
    · rintro ⟨first, second, hfirst, hsecond, rfl⟩
      obtain ⟨l, hl, hfirst⟩ := bind_eq_ok_iff.mp hfirst
      obtain ⟨rest, hrest, hfirst⟩ := bind_eq_ok_iff.mp hfirst
      cases hfirst
      refine bind_eq_ok_iff.mpr ⟨l, hl, bind_eq_ok_iff.mpr ⟨rest ++ second, ?_, ?_⟩⟩
      · exact ih.mpr ⟨rest, second, hrest, hsecond, rfl⟩
      · exact congrArg Except.ok (List.append_assoc _ _ _).symm

theorem labelCounts_numbered (n : Numbering) (f : Function) :
    Stmt.labelCounts (f.numbered n).body = Stmt.labelCounts f.body :=
  (congrArg _ (Stmt.numberedAll_eq_map n f.body)).trans
    (Stmt.labelCounts_numbered fun st _ => st.labelCount_numbered n)

theorem labelTotal_numbered (n : Numbering) (fs : List Function) :
    labelTotal (fs.map (Function.numbered n)) = labelTotal fs := by
  rw [labelTotal, List.map_map]
  exact congrArg List.sum (List.map_congr_left fun f _ => labelCounts_numbered n f)

/-- **Functions under other numbers** have the code that they had, relabelled, and so has each of
them. -/
theorem functionsCode_numbered (h : p.Renumbered n p') (hm : m.string = n.string)
    (hshifts : m.Shifts base base' (labelTotal fs)) (hcode : functionsCode p base fs = .ok code) :
    functionsCode p' base' (fs.map (Function.numbered n)) = .ok (code.relabelled m) ∧
      Relists p p' n m fs code (code.relabelled m) := by
  induction fs generalizing base base' code with
  | nil =>
    cases hcode
    exact ⟨rfl, nofun⟩
  | cons f fs ih =>
    obtain ⟨l, hl, hcode⟩ := bind_eq_ok_iff.mp hcode
    obtain ⟨rest, hrest, hcode⟩ := bind_eq_ok_iff.mp hcode
    cases hcode
    have hl' : functionCode p' (f.numbered n) base' = .ok (l.relabelled m) := by
      rw [functionCode_numbered h hm hshifts.left, hl]
      rfl
    have hfirst : Relists p p' n m [f] l (l.relabelled m) :=
      List.forall_mem_singleton.mpr ⟨l, ⟨⟨base, hl⟩, List.infix_rfl⟩, ⟨base', hl'⟩, List.infix_rfl⟩
    obtain ⟨hrest', hlists⟩ := ih hshifts.right hrest
    rw [Listing.relabelled_append]
    refine ⟨?_, hfirst.append hlists⟩
    rw [List.map_cons, functionsCode, hl', labelCounts_numbered, hrest']
    rfl

/-- The numbers of the labels where two stretches of functions **change places**. -/
def exchangedLabels (before first second : List Function) (string : Nat → Nat) : Relabelling :=
  ⟨exchangePerm (labelTotal before + 1) (labelTotal first) (labelTotal second), string⟩

/-- **Functions in another order** have the listings that they had, relabelled. -/
theorem functionsCode_exchanged {before first second after : List Function} (h : p.Renumbered n p')
    (hcode : functionsCode p 0 (before ++ (first ++ (second ++ after))) = .ok code) :
    ∃ code', functionsCode p' 0
        ((before ++ (second ++ (first ++ after))).map (Function.numbered n)) = .ok code' ∧
      Relists p p' n (exchangedLabels before first second n.string)
        (before ++ (first ++ (second ++ after))) code code' := by
  obtain ⟨code₁, rest₁, hcode₁, hrest₁, rfl⟩ := functionsCode_append_eq_ok_iff.mp hcode
  obtain ⟨code₂, rest₂, hcode₂, hrest₂, rfl⟩ := functionsCode_append_eq_ok_iff.mp hrest₁
  obtain ⟨code₃, code₄, hcode₃, hcode₄, rfl⟩ := functionsCode_append_eq_ok_iff.mp hrest₂
  let m := exchangedLabels before first second n.string
  have hnumbered {fs : List Function} {base : Nat} {code : Listing} (base' : Nat)
      (hshifts : ∀ i < labelTotal fs, exchanged (labelTotal before + 1) (labelTotal first)
        (labelTotal second) (base + i + 1) = base' + i + 1)
      (hcode : functionsCode p base fs = .ok code) :=
    functionsCode_numbered (m := m) h rfl hshifts hcode
  obtain ⟨hcode₁', hlists₁⟩ := hnumbered 0
    (fun i hi => by unfold exchanged; split_ifs <;> omega) hcode₁
  obtain ⟨hcode₂', hlists₂⟩ := hnumbered (0 + labelTotal before + labelTotal second)
    (fun i hi => by unfold exchanged; split_ifs <;> omega) hcode₂
  obtain ⟨hcode₃', hlists₃⟩ := hnumbered (0 + labelTotal before)
    (fun i hi => by unfold exchanged; split_ifs <;> omega) hcode₃
  obtain ⟨hcode₄', hlists₄⟩ := hnumbered
    (0 + labelTotal before + labelTotal second + labelTotal first)
    (fun i hi => by unfold exchanged; split_ifs <;> omega) hcode₄
  refine ⟨code₁.relabelled m ++ (code₃.relabelled m ++ (code₂.relabelled m ++ code₄.relabelled m)),
    ?_, ?_⟩
  · simp only [List.map_append, functionsCode_append_eq_ok_iff, labelTotal_numbered]
    exact ⟨_, _, hcode₁', ⟨_, _, hcode₃', ⟨_, _, hcode₂', hcode₄', rfl⟩, rfl⟩, rfl⟩
  · have hlists := hlists₁.append ((hlists₂.append_comm hlists₃).append hlists₄)
    simpa only [List.append_assoc] using hlists

end Functions

end Lowering

/-! ## The listing of a function -/

section Unique

variable {source : List Char} {c : Compilation} {f : Function} {l l' : Listing}

/-- Behind the routines an assembly has the code of its functions, **and no more**. -/
theorem exists_functionsCode (hc : compile source = .ok c) :
    ∃ code, functionsCode c.program 0 c.program.funcs = .ok code ∧
      c.assembly.code = Routine.all ++ code := by
  obtain ⟨data, -, h⟩ := bind_eq_ok_iff.mp (compile_ok hc).2
  obtain ⟨code, hcode, h⟩ := bind_eq_ok_iff.mp h
  exact ⟨code, hcode, by rw [← Except.ok.inj h]⟩

/-- In the code of a compilation **no label stands twice**. -/
theorem nodup_labels_of_compile (hc : compile source = .ok c) : c.assembly.code.labels.Nodup := by
  have hp := Program.named_of_ofSource (compile_ok hc).1
  obtain ⟨code, hcode, hall⟩ := exists_functionsCode hc
  obtain ⟨numbered, high, hn, hperm⟩ := labels_functionsCode hcode
  rw [hp.functionSymbols] at hperm
  have hnumber {name : Label} (hname : name.number? = none) : name ∉ numbered := fun hmem => by
    obtain ⟨i, hi, -⟩ := hn.bounds name hmem
    rw [hname] at hi
    cases hi
  rw [hall, Listing.labels_append, (hperm.append_left _).nodup_iff, labels_routines,
    List.nodup_append', List.nodup_append', List.nodup_append']
  refine ⟨by decide, ⟨⟨hp.nodup_functionSymbols.map fun _ _ h => Label.symbol.inj h,
    hp.nodup_functionSymbols.map fun _ _ h => Label.returnOf.inj h, fun name hname hname' => ?_⟩,
    hn.nodup, fun name hname => ?_⟩, fun name hname hname' => ?_⟩
  · obtain ⟨_, -, rfl⟩ := List.mem_map.mp hname
    obtain ⟨_, -, h⟩ := List.mem_map.mp hname'
    cases h
  · rcases List.mem_append.mp hname with hname | hname <;>
      obtain ⟨_, -, rfl⟩ := List.mem_map.mp hname <;> exact hnumber rfl
  · have hroutines : ∀ l ∈ [Label.routine .printInt, .digits, .write, .routine .printString,
        .routine .printSpace, .routine .printNewline],
        l.number? = none ∧ (∀ s, l ≠ .symbol s) ∧ ∀ s, l ≠ .returnOf s := by
      simp [Label.number?]
    obtain ⟨hunnumbered, hsymbol, hreturnOf⟩ := hroutines name hname
    rcases List.mem_append.mp hname' with hname' | hname'
    · rcases List.mem_append.mp hname' with hname' | hname' <;>
        obtain ⟨s, -, rfl⟩ := List.mem_map.mp hname'
      · exact hsymbol s rfl
      · exact hreturnOf s rfl
    · exact hnumber hunnumbered hname'

/-- Where no label stands twice, what stands **behind one of them** is told by it. -/
theorem Listing.eq_behind_label {front back front' back' : Listing} {name : Label}
    (hnodup : (front ++ .label name :: back).labels.Nodup)
    (h : front ++ .label name :: back = front' ++ .label name :: back') : back = back' := by
  rw [Listing.labels_append, List.nodup_append'] at hnodup
  obtain ⟨-, hback, hfront⟩ := hnodup
  refine ((List.append_cons_inj_of_notMem (fun hmem => ?_) fun hmem => ?_).mp h).2.2
  · exact hfront (Listing.mem_labels.mpr hmem) List.mem_cons_self
  · exact (List.nodup_cons.mp hback).1 (Listing.mem_labels.mpr hmem)

/-- The assembly has **one listing** for a function. -/
theorem Compilation.Emits.unique (hc : compile source = .ok c) (h : c.Emits f l)
    (h' : c.Emits f l') : l = l' := by
  obtain ⟨base, hl⟩ := h.code
  obtain ⟨base', hl'⟩ := h'.code
  -- the second listing is the first one under other numbers, and so as long as that
  have hlength : l.length = l'.length := by
    have hshifts : Relabelling.Shifts ⟨fun i => i - base + base', id⟩ base base'
        (Stmt.labelCounts f.body) := fun i _ => by dsimp only; omega
    have hrelabelled := functionCode_numbered c.program.renumbered_unplaced rfl hshifts
    rw [functionCode_unplaced, hl, hl'] at hrelabelled
    rw [Except.ok.inj hrelabelled, Listing.relabelled, List.length_map]
  have hcons {l : Listing} {base : Nat} (hl : functionCode c.program f base = .ok l) :
      ∃ k, l = .label (.symbol (c.program.functionSymbol f)) :: k := by
    obtain ⟨_, _, -, -, -, rfl⟩ := functionCode_ok hl
    exact ⟨_, rfl⟩
  obtain ⟨k, rfl⟩ := hcons hl
  obtain ⟨k', rfl⟩ := hcons hl'
  obtain ⟨front, back, hcode⟩ := h.inside
  obtain ⟨front', back', hcode'⟩ := h'.inside
  have hnodup := nodup_labels_of_compile hc
  rw [← hcode, List.append_assoc, List.cons_append] at hnodup
  rw [← hcode, List.append_assoc, List.append_assoc, List.cons_append, List.cons_append] at hcode'
  have hbehind := Listing.eq_behind_label hnodup hcode'.symm
  exact congrArg (List.cons _) (List.append_inj_left hbehind (Nat.succ.inj hlength))

end Unique

/-! ## Compilations -/

theorem Program.Exchanged.renumbered_unplaced {p p' : Program} {n : Numbering} (h : p.Exchanged n p') :
    p.Renumbered n p'.unplaced where
  package := h.package
  vars id := (h.vars id).trans (p'.sameVariable_unplaced _)
  strings i := by
    have hnone : p'.strings[n.string i]? = none ↔ p.strings[i]? = none := by rw [h.strings]
    rw [List.getElem?_eq_none_iff, List.getElem?_eq_none_iff] at hnone
    exact lt_iff_lt_of_le_iff_le hnone

/-- Where two functions of a program have changed places, **each function has the listing that it had**
under other numbers of labels. -/
theorem Program.Exchanged.exists_relabelling {source source' : List Char} {c c' : Compilation}
    (hc : compile source = .ok c) (hc' : compile source' = .ok c') {n : Numbering}
    (h : c.program.Exchanged n c'.program) :
    ∃ flow : Equiv.Perm Nat, ∀ f ∈ c.program.funcs, ∀ f' ∈ c'.program.funcs,
      f'.unplaced = f.numbered n → ∃ l, (∀ k, c.Emits f k ↔ k = l) ∧
        ∀ k, c'.Emits f' k ↔ k = l.relabelled ⟨flow, n.string⟩ := by
  obtain ⟨entry, before, f, g, after, hfuncs, hfuncs'⟩ := h.funcs
  obtain ⟨code, hcode, hall⟩ := exists_functionsCode hc
  obtain ⟨code', hcode', hall'⟩ := exists_functionsCode hc'
  replace hcode : functionsCode c.program 0 (entry :: before ++ ([f] ++ ([g] ++ after))) = .ok code :=
    hfuncs ▸ hcode
  rw [← functionsCode_unplaced, hfuncs'] at hcode'
  obtain ⟨_, hcode₁, hlists⟩ := functionsCode_exchanged h.renumbered_unplaced hcode
  cases hcode₁.symm.trans hcode'
  refine ⟨exchangePerm (labelTotal (entry :: before) + 1) (labelTotal [f]) (labelTotal [g]),
    fun f₁ hf₁ f₁' hf₁' hunplaced => ?_⟩
  obtain ⟨l, hl, hl'⟩ := hlists f₁ (hfuncs ▸ hf₁)
  obtain ⟨base, hcode''⟩ := hl'.listing
  rw [← hunplaced, functionCode_unplaced] at hcode''
  have hemits : c.Emits f₁ l :=
    ⟨hf₁, hl.listing, hall ▸ hl.inside.trans (List.suffix_append _ _).isInfix⟩
  have hemits' : c'.Emits f₁' (l.relabelled ⟨exchangePerm _ _ _, n.string⟩) :=
    ⟨hf₁', ⟨base, hcode''⟩, hall' ▸ hl'.inside.trans (List.suffix_append _ _).isInfix⟩
  exact ⟨l, fun k => ⟨fun hk => hk.unique hc hemits, fun hk => hk ▸ hemits⟩,
    fun k => ⟨fun hk => hk.unique hc' hemits', fun hk => hk ▸ hemits'⟩⟩

end StackCompiler
