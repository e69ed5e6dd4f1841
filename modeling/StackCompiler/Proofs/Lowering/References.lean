import StackCompiler.Proofs.Lowering.Functions
import StackCompiler.Proofs.Machine.Names
import StackCompiler.Proofs.Machine.References
import StackCompiler.Proofs.Typing.Scope

/-!
# Proofs/Lowering/References — what the code of a function refers to

The code of an expression refers to the places of its variables and strings, and to the functions
that it calls; **it does not jump**.  The code of a statement jumps to its own labels, and to the end
of its function (`refers_stmtCode`).
-/

namespace StackCompiler

open Typing

/-! ## Code that refers to things -/

/-- Whatever listing the code is, it refers to the targets, and else to what `P` holds of. -/
def Code.Refers (P : Reference → Prop) (targets : List Label) (code : Code) : Prop :=
  ∀ l, code.Gives l → l.Refers P targets

/-- What any code may refer to: what an address in a register leads to, and the routines. -/
structure Reference.Common (P : Reference → Prop) : Prop where
  above : ∀ base bytes, P (.place (.above base bytes))
  routine : ∀ r, P (.call (.routine r))

namespace Code.Refers

variable {P : Reference → Prop} {targets : List Label} {first second : Code}

theorem append (h : first.Refers P targets) (h' : second.Refers P targets) :
    (first ++ second).Refers P targets := by
  intro l hl
  obtain ⟨a, b, ha, hb, rfl⟩ := hl.append
  exact (h a ha).append (h' b hb)

theorem ofInstrs {instrs : List Instr}
    (h : ∀ i ∈ instrs, ∀ r, i.reference? = some r → r.Meets P targets) :
    (Code.ofInstrs instrs).Refers P targets := by
  intro l hl
  rw [hl.ofInstrs]
  exact Listing.refers_ofInstrs.mpr h

/-- Instructions that refer to **nothing but registers**. -/
theorem plain {instrs : List Instr} (h : ∀ i ∈ instrs, i.reference? = none) :
    (Code.ofInstrs instrs).Refers P targets := by
  intro l hl
  rw [hl.ofInstrs]
  exact Listing.refers_of_none h

theorem nothing : Code.nothing.Refers P targets := by
  intro l hl
  rw [hl.nothing]
  exact .nil

theorem broken (fault : Fault) : (Code.broken fault).Refers P targets :=
  fun _ hl => hl.not_broken.elim

theorem call {target : Label} (h : P (.call target)) : (Code.call target).Refers P targets := by
  rintro l ⟨height, hl⟩
  cases hl
  refine Listing.refers_ofInstrs.mpr fun i hi r hr => ?_
  split at hi
  all_goals
    simp only [List.mem_cons, List.not_mem_nil, or_false] at hi
    rcases hi with rfl | rfl | rfl | rfl <;> cases hr
    exact h

theorem discard (words : Nat) : (Code.discard words).Refers P targets := by
  cases words with
  | zero => exact nothing
  | succ words => exact plain (by simp [Instr.reference?])

end Code.Refers

namespace Lowering

variable {p : Program} {P : Reference → Prop} {targets : List Label}

/-! ## Expressions -/

/-- Where a variable stands. -/
def variablePlace (p : Program) (v : Variable) : Address :=
  if v.isLocal then .frame v.offset else .data (.symbol (p.symbol v.name))

/-- `P` holds of what the node itself refers to. -/
def RefersTo (p : Program) (P : Reference → Prop) : Expr → Prop
  | .var id _ _ => ∀ v, p.vars[id]? = some v → P (.place (variablePlace p v))
  | .str string _ _ => string < p.strings.length → P (.place (.data (.descriptor string)))
  | .call name _ _ _ => P (.call (.symbol (p.symbol name)))
  | _ => True

section Expressions

variable (hP : Reference.Common P)
include hP

theorem refers_load (ty : Ty) : (load ty).Refers P targets := by
  cases ty with
  | array base len => exact .nothing
  | _ =>
    refine .ofInstrs fun i hi r hr => ?_
    simp only [List.mem_cons, List.not_mem_nil, or_false] at hi
    rcases hi with rfl | rfl | rfl <;> cases hr
    all_goals exact hP.above _ _

theorem refers_fromAddress (ty : Ty) (wanted : Wanted) :
    (fromAddress ty wanted).Refers P targets := by
  cases wanted with
  | address => exact .nothing
  | value => exact refers_load hP ty

theorem refers_store (ty : Ty) : (store ty).Refers P targets := by
  have hplain {instrs : List Instr}
      (h : ∀ i ∈ instrs, i.reference? = none ∨
        ∃ base bytes, i.reference? = some (.place (.above base bytes))) :
      (Code.ofInstrs instrs).Refers P targets := .ofInstrs fun i hi r hr => by
    rcases h i hi with hnone | ⟨base, bytes, hsome⟩
    · rw [hnone] at hr
      cases hr
    · cases hsome.symm.trans hr
      exact hP.above base bytes
  unfold store
  split
  · exact hplain (by simp [Instr.reference?])
  · split <;> exact hplain (by simp [Instr.reference?])

omit hP in
theorem refers_pushAddress {a : Address} (h : P (.place a)) : (pushAddress a).Refers P targets := by
  refine .ofInstrs fun i hi r hr => ?_
  simp only [List.mem_cons, List.not_mem_nil, or_false] at hi
  rcases hi with rfl | rfl <;> cases hr
  exact h

omit hP in
theorem refers_variableAddress {id : VarId}
    (h : ∀ v, p.vars[id]? = some v → P (.place (variablePlace p v))) :
    (variableAddress p id).Refers P targets := by
  unfold variableAddress
  split
  · exact .broken _
  · next v hv =>
    have hplace := h v hv
    unfold variablePlace at hplace
    split
    · next hl => exact refers_pushAddress (by rwa [if_pos hl] at hplace)
    · next hl => exact refers_pushAddress (by rwa [if_neg hl] at hplace)

omit hP in
theorem refers_descriptorAddress {string : Nat}
    (h : string < p.strings.length → P (.place (.data (.descriptor string)))) :
    (descriptorAddress p string).Refers P targets := by
  unfold descriptorAddress
  split
  · next hlt => exact refers_pushAddress (h hlt)
  · exact .broken _

omit hP in
theorem refers_valueOnly {code : Code} (wanted : Wanted) (h : code.Refers P targets) :
    (valueOnly wanted code).Refers P targets := by
  cases wanted with
  | value => exact h
  | address => exact .broken _

omit hP in
theorem refers_popArguments (words : Nat) : (popArguments words).Refers P targets := by
  unfold popArguments
  split
  · refine .plain fun i hi => ?_
    obtain ⟨reg, -, rfl⟩ := List.mem_map.mp hi
    rfl
  · exact .broken _

omit hP in
theorem refers_step (element : Ty) : (step element).Refers P targets := by
  refine .plain fun i hi => ?_
  split at hi <;>
  · simp only [List.mem_append, List.mem_cons, List.not_mem_nil, or_false] at hi
    rcases hi with (rfl | rfl) | rfl | rfl | rfl <;> rfl

omit hP in
theorem refers_operate (op : BinaryOp) : (operate op).Refers P targets := by
  refine .plain fun i hi => ?_
  cases op <;>
  · simp only [combine, combine.compared, List.mem_append, List.mem_cons, List.not_mem_nil,
      or_false] at hi
    grind [Instr.reference?]

omit hP in
theorem refers_exprsCode : ∀ es : List Expr, (∀ e ∈ es, (exprCode p .value e).Refers P targets) →
    (exprsCode p es).Refers P targets
  | [], _ => .nothing
  | e :: es, h => by
    obtain ⟨he, hes⟩ := List.forall_mem_cons.mp h
    rw [exprsCode]
    exact he.append (refers_exprsCode es hes)

/-- The code of an expression refers to **what its nodes do**. -/
theorem refers_exprCode {e : Expr} (he : e.Everywhere (RefersTo p P)) :
    ∀ wanted, (exprCode p wanted e).Refers P targets := by
  induction he with
  | num =>
    intro wanted
    rw [exprCode]
    exact refers_valueOnly wanted (.plain (by simp [Instr.reference?]))
  | str h =>
    intro wanted
    rw [exprCode]
    exact (refers_descriptorAddress h).append (refers_fromAddress hP _ wanted)
  | var h =>
    intro wanted
    rw [exprCode]
    exact (refers_variableAddress h).append (refers_fromAddress hP _ wanted)
  | addr _ _ ih =>
    intro wanted
    rw [exprCode]
    exact refers_valueOnly wanted (ih .address)
  | deref _ _ ih =>
    intro wanted
    rw [exprCode]
    exact (ih .value).append (refers_fromAddress hP _ wanted)
  | binary _ _ _ ihl ihr =>
    intro wanted
    rw [exprCode]
    exact refers_valueOnly wanted (((ihl .value).append (ihr .value)).append (refers_operate _))
  | index _ _ _ ihb ihp =>
    intro wanted
    rw [exprCode]
    refine ((Code.Refers.append ?_ (ihp .value)).append (refers_step _)).append
      (refers_fromAddress hP _ wanted)
    split
    · exact ihb .address
    · refine (ihb .address).append (.ofInstrs fun i hi r hr => ?_)
      simp only [List.mem_cons, List.not_mem_nil, or_false] at hi
      rcases hi with rfl | rfl | rfl <;> cases hr
      exact hP.above _ _
    · exact ihb .value
  | call h _ ih =>
    intro wanted
    rw [exprCode]
    exact refers_valueOnly wanted ((((refers_exprsCode _ fun e he => ih e he .value).append
      (refers_popArguments _)).append (.call h)).append (.plain (by simp [Instr.reference?])))

end Expressions

/-! ## Statements -/

section Statements

variable (hP : Reference.Common P)
include hP

theorem refers_unlessCode {cond : Expr} (hc : cond.Everywhere (RefersTo p P)) (target : Label) :
    (unlessCode p cond target).Refers P [target] := by
  refine (refers_exprCode hP hc .value).append (.ofInstrs fun i hi r hr => ?_)
  simp only [List.mem_cons, List.not_mem_nil, or_false] at hi
  rcases hi with rfl | rfl | rfl <;> cases hr
  exact List.mem_cons_self

theorem refers_returnCode {exit : Label} {value : Option Expr}
    (h : ∀ e ∈ value, e.Everywhere (RefersTo p P)) :
    (returnCode p exit value).Refers P [exit] := by
  cases value with
  | none =>
    refine .ofInstrs fun i hi r hr => ?_
    cases List.mem_singleton.mp hi
    cases hr
    exact List.mem_cons_self
  | some value =>
    refine (refers_exprCode hP (h value rfl) .value).append (.ofInstrs fun i hi r hr => ?_)
    split at hi
    all_goals
      simp only [List.mem_append, List.mem_cons, List.not_mem_nil, or_false, false_or] at hi
      rcases hi with rfl | rfl | rfl <;> cases hr
      exact List.mem_cons_self

theorem refers_storesCode : ∀ ts : List Expr, (∀ e ∈ ts, e.Everywhere (RefersTo p P)) →
    (storesCode p ts).Refers P targets
  | [], _ => .nothing
  | t :: ts, h => by
    obtain ⟨ht, hts⟩ := List.forall_mem_cons.mp h
    exact (refers_storesCode ts hts).append
      (((refers_exprCode hP ht .address).append (refers_store hP _)).append (.discard _))

theorem refers_printCode {arg : Expr} (h : arg.Everywhere (RefersTo p P)) :
    (printCode p arg).Refers P targets := by
  refine (refers_exprCode hP h .value).append ?_
  split <;> exact (Code.Refers.plain (by simp [Instr.reference?])).append (.call (hP.routine _))

theorem refers_printsCode (printer : Printer) : ∀ args : List Expr,
    (∀ e ∈ args, e.Everywhere (RefersTo p P)) → (printsCode p printer args).Refers P targets
  | [], _ => .nothing
  | arg :: args, h => by
    obtain ⟨harg, hargs⟩ := List.forall_mem_cons.mp h
    refine (Code.Refers.append ?_ (refers_printCode hP harg)).append
      (refers_printsCode printer args hargs)
    split
    · exact .call (hP.routine _)
    · exact .nothing

theorem refers_printingCode (printer : Printer) {args : List Expr}
    (h : ∀ e ∈ args, e.Everywhere (RefersTo p P)) :
    (printingCode p printer args).Refers P targets := by
  refine Code.Refers.append ?_ ?_
  · split
    · exact .nothing
    · next arg args =>
      obtain ⟨harg, hargs⟩ := List.forall_mem_cons.mp h
      exact (refers_printCode hP harg).append (refers_printsCode hP printer args hargs)
  · split
    · exact .call (hP.routine _)
    · exact .nothing

omit hP in
/-- What refers to the labels of a part refers to labels **of the whole**. -/
theorem refers_part {exit : Label} {part : Listing} (whole : Listing)
    (h : part.Refers P (exit :: part.labels)) (hsub : ∀ line ∈ part, line ∈ whole) :
    part.Refers P (exit :: whole.labels) :=
  h.mono <| List.cons_subset_cons exit fun _ hname =>
    Listing.mem_labels.mpr (hsub _ (Listing.mem_labels.mp hname))

omit hP in
theorem refers_jump {target : Label} (h : [target] ⊆ targets) :
    Listing.Refers P targets [.instr (.jump target)] := by
  intro line hline r hr
  cases List.mem_singleton.mp hline
  cases hr
  exact h List.mem_cons_self

omit hP in
theorem refers_stmtsCode {exit : Label} : ∀ ss : List Stmt,
    (∀ s ∈ ss, ∀ base l, (stmtCode p exit base s).Gives l → l.Refers P (exit :: l.labels)) →
    ∀ base l, (stmtsCode p exit base ss).Gives l → l.Refers P (exit :: l.labels)
  | [], _, base, l, hl => by
    rw [stmtsCode] at hl
    rw [hl.nothing]
    exact .nil
  | s :: ss, h, base, l, hl => by
    obtain ⟨hs, hss⟩ := List.forall_mem_cons.mp h
    rw [stmtsCode] at hl
    obtain ⟨a, b, ha, hb, rfl⟩ := hl.append
    exact (refers_part _ (hs _ a ha) fun _ => List.mem_append_left b).append
      (refers_part _ (refers_stmtsCode ss hss _ b hb) fun _ => List.mem_append_right a)

/-- **The code of a statement jumps to its own labels, and to the end of the function.** -/
theorem refers_stmtCode {exit : Label} {s : Stmt}
    (h : s.Everywhere (RefersTo p P) fun _ => True) :
    ∀ base l, (stmtCode p exit base s).Gives l → l.Refers P (exit :: l.labels) := by
  have hstraight {code : Code} (hcode : code.Refers P []) :
      ∀ l, code.Gives l → l.Refers P (exit :: l.labels) :=
    fun l hl => (hcode l hl).mono (List.nil_subset _)
  have hown {l : Listing} {name : Label} (h : .label name ∈ l) : [name] ⊆ exit :: l.labels :=
    List.cons_subset.mpr ⟨List.mem_cons_of_mem _ (Listing.mem_labels.mpr h), List.nil_subset _⟩
  induction h with
  | expr _ he =>
    exact fun base => hstraight ((refers_exprCode hP he .value).append (.discard _))
  | ret _ he =>
    exact fun base l hl => (refers_returnCode hP he l hl).mono (by simp)
  | block _ _ ih => exact fun base => refers_stmtsCode _ ih base
  | @branch init _ _ _ _ _ hc _ _ ihi ihb iho =>
    intro base l hl
    obtain ⟨a, b, c, d, ha, hb, hbody, hd, heq⟩ := branchCode_gives hl
    have helse : .label (.elseOf (base + init.labelCount + 1)) ∈ l := by simp [heq]
    have hend : .label (.endOf (base + init.labelCount + 1)) ∈ l := by simp [heq]
    have hcond := (refers_unlessCode hP hc _ b hb).mono (hown helse)
    have hinit := refers_part l (ihi base a ha) (by simp +contextual [heq])
    have hthen := refers_part l (refers_stmtsCode _ ihb _ c hbody)
      (by simp +contextual [heq])
    have hotherwise := refers_part l (iho _ d hd) (by simp +contextual [heq])
    refine (congrArg (Listing.Refers P (exit :: l.labels)) heq).mpr ?_
    exact (((((hinit.append hcond).append hthen).append (refers_jump (hown hend))).append
      (Listing.refers_label _)).append hotherwise).append (Listing.refers_label _)
  | @loop init cond _ _ _ _ _ hc _ _ ihi ihp ihb =>
    intro base l hl
    obtain ⟨a, b, c, d, ha, hb, hbody, hd, heq⟩ := loopCode_gives hl
    have hbegin : .label (.beginOf (base + init.labelCount + 1)) ∈ l := by simp [heq]
    have hend : .label (.endOf (base + init.labelCount + 1)) ∈ l := by simp [heq]
    have hcond : b.Refers P (exit :: l.labels) := by
      cases cond with
      | none => rw [hb.nothing]; exact .nil
      | some cond => exact (refers_unlessCode hP (hc cond rfl) _ b hb).mono (hown hend)
    have hinit := refers_part l (ihi base a ha) (by simp +contextual [heq])
    have hloop := refers_part l (refers_stmtsCode _ ihb _ c hbody)
      (by simp +contextual [heq])
    have hpost := refers_part l (ihp _ d hd) (by simp +contextual [heq])
    refine (congrArg (Listing.Refers P (exit :: l.labels)) heq).mpr ?_
    exact (((((hinit.append (Listing.refers_label _)).append hcond).append hloop).append
      hpost).append (refers_jump (hown hbegin))).append (Listing.refers_label _)
  | assign _ ht hv =>
    exact fun base => hstraight ((refers_exprsCode _ fun e he =>
      refers_exprCode hP (hv e he) .value).append (refers_storesCode hP _ ht))
  | print _ ha => exact fun base => hstraight (refers_printingCode hP _ ha)
  | empty => exact fun base => hstraight .nothing

end Statements

/-! ## Functions -/

/-- What moves parameters into their slots refers to **these slots**, the upper and the lower word of
a string. -/
theorem refers_spills : ∀ (ids : List VarId) {regs : List Reg} {moves : List Instr},
    spills p ids regs = .ok moves →
    (∀ id ∈ ids, ∀ v, p.vars[id]? = some v → P (.place (.frame v.offset)) ∧
      (v.ty.isString = true → P (.place (.frame (v.offset - 8))))) →
    (Listing.ofInstrs moves).Refers P targets
  | [], _, _, h, _ => by
    cases h
    exact .nil
  | id :: ids, regs, moves, h, hids => by
    obtain ⟨v, instrs, rest, later, hv, hspill, hlater, rfl⟩ := spills_cons_ok h
    obtain ⟨hhere, hrest⟩ := List.forall_mem_cons.mp hids
    obtain ⟨hslot, hlower⟩ := hhere v hv
    have hfirst : (Listing.ofInstrs instrs).Refers P targets := by
      refine Listing.refers_ofInstrs.mpr fun i hi r hr => ?_
      unfold spill at hspill
      split at hspill
      · cases hspill
      split at hspill
      · next hs =>
        split at hspill
        · cases hspill
        · cases hspill
          rcases List.mem_pair.mp hi with rfl | rfl <;> cases hr
          · exact hslot
          · exact hlower hs
      · split at hspill
        all_goals
          cases hspill
          cases List.mem_singleton.mp hi
          cases hr
          exact hslot
    rw [Listing.ofInstrs, List.map_append]
    exact hfirst.append (refers_spills ids hlater hrest)

/-- A label that has a number is local. -/
theorem isLocal_of_number? {l : Label} {n : Nat} (h : l.number? = some n) : l.isLocal = true := by
  cases l with
  | elseOf | beginOf | endOf => rfl
  | _ => cases h

/-- **The listing of a function jumps to its own local labels only.** -/
theorem refers_functionCode (hP : Reference.Common P) {f : Function} {base : Nat} {l : Listing}
    (hl : functionCode p f base = .ok l)
    (hparams : ∀ id ∈ f.params, ∀ v, p.vars[id]? = some v → P (.place (.frame v.offset)) ∧
      (v.ty.isString = true → P (.place (.frame (v.offset - 8)))))
    (hbody : ∀ st ∈ f.body, st.Everywhere (RefersTo p P) fun _ => True) :
    l.Refers P (l.labels.filter Label.isLocal) := by
  obtain ⟨params, body, hspills, hstmts, -, heq⟩ := functionCode_ok hl
  have hexit : .returnOf (p.functionSymbol f) ∈ l.labels.filter Label.isLocal :=
    List.mem_filter.mpr ⟨Listing.mem_labels.mpr (by simp [heq]), rfl⟩
  have hbodyLabels : body.labels ⊆ l.labels.filter Label.isLocal := fun name hname => by
    obtain ⟨n, hn, -⟩ := (numbers_stmtsCode f.body (fun s _ => numbers_stmtCode s) base body
      ⟨0, hstmts⟩).bounds name hname
    have hline := Listing.mem_labels.mp hname
    exact List.mem_filter.mpr ⟨Listing.mem_labels.mpr (by simp [heq, hline]),
      isLocal_of_number? hn⟩
  have hprologue : (Listing.ofInstrs (prologue f.frame)).Refers P
      (l.labels.filter Label.isLocal) :=
    Listing.refers_of_none fun i hi => by
      unfold prologue at hi
      split at hi <;> grind [Instr.reference?]
  have hentry : (Listing.ofInstrs (prologue f.frame ++ params)).Refers P
      (l.labels.filter Label.isLocal) := by
    rw [Listing.ofInstrs, List.map_append]
    exact hprologue.append (refers_spills f.params hspills hparams)
  have hmiddle : body.Refers P (.returnOf (p.functionSymbol f) :: body.labels) :=
    refers_stmtsCode f.body (fun st hst => refers_stmtCode hP (hbody st hst)) _ body ⟨0, hstmts⟩
  have hepilogue : Listing.Refers P (l.labels.filter Label.isLocal) (.instr (.set .rax 0) ::
      .label (.returnOf (p.functionSymbol f)) :: Listing.ofInstrs epilogue) := by
    intro line hline r hr
    simp only [epilogue, Listing.ofInstrs, List.map_cons, List.map_nil, List.mem_cons,
      List.not_mem_nil, or_false] at hline
    rcases hline with rfl | rfl | rfl | rfl | rfl <;> cases hr
  refine (congrArg (Listing.Refers P (l.labels.filter Label.isLocal)) heq).mpr ?_
  refine Listing.Refers.append (.append ((Listing.refers_label _).append hentry) ?_) hepilogue
  exact hmiddle.mono (List.cons_subset.mpr ⟨hexit, hbodyLabels⟩)

end Lowering

end StackCompiler
