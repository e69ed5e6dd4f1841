import StackCompiler.Lowering.Package
import StackCompiler.Proofs.Machine.Relabelled
import StackCompiler.Proofs.Syntax.Numbered

/-!
# Proofs/Lowering/Numbered — code under other numbers

The code of a program whose variables and strings have other numbers, and which stands at other places,
is **the code of the program, relabelled**: no instruction, label or piece of data is made from a place
or from the number of a variable, and those of strings are in labels only.
-/

namespace StackCompiler

/-- The second program has the variables and strings of the first under other numbers, and perhaps at
other places. -/
structure Program.Renumbered (n : Numbering) (p p' : Program) : Prop where
  package : p'.package = p.package
  vars : ∀ id, SameVariable p.vars[id]? p'.vars[n.var id]?
  strings : ∀ i, n.string i < p'.strings.length ↔ i < p.strings.length

namespace Lowering

variable {n : Numbering} {m : Relabelling} {p p' : Program}

/-! ## Expressions -/

theorem variableAddress_numbered (h : p.Renumbered n p') (id : VarId) :
    variableAddress p' (n.var id) = (variableAddress p id).relabelled m := by
  have hv := h.vars id
  rw [variableAddress, variableAddress]
  cases hp : p.vars[id]? <;> cases hp' : p'.vars[n.var id]? <;> rw [hp, hp'] at hv
  · rfl
  · cases hv
  · cases hv
  next v v' =>
  obtain ⟨name, offset, isLocal, ty, loc, isPlaceholder⟩ := v
  obtain ⟨name', offset', isLocal', ty', loc', isPlaceholder'⟩ := v'
  obtain ⟨rfl, rfl, rfl, -, -, -⟩ := Variable.mk.inj (Option.some.inj hv)
  cases isLocal with
  | true => rfl
  | false =>
    dsimp only
    rw [Program.symbol, h.package]
    rfl

theorem descriptorAddress_numbered (h : p.Renumbered n p') (hm : m.string = n.string) (i : Nat) :
    descriptorAddress p' (n.string i) = (descriptorAddress p i).relabelled m := by
  unfold descriptorAddress
  by_cases hi : i < p.strings.length
  · rw [if_pos hi, if_pos ((h.strings i).mpr hi), ← hm]
    rfl
  · rw [if_neg hi, if_neg (mt (h.strings i).mp hi)]
    rfl

theorem load_relabelled (m : Relabelling) (ty : Ty) : (load ty).relabelled m = load ty := by
  cases ty <;> rfl

theorem store_relabelled (m : Relabelling) (ty : Ty) : (store ty).relabelled m = store ty := by
  unfold store
  split
  · rfl
  split <;> rfl

theorem step_relabelled (m : Relabelling) (ty : Ty) : (step ty).relabelled m = step ty := by
  unfold step
  split <;> rfl

theorem operate_relabelled (m : Relabelling) (op : BinaryOp) :
    (operate op).relabelled m = operate op := by
  cases op <;> rfl

theorem popArguments_relabelled (m : Relabelling) (words : Nat) :
    (popArguments words).relabelled m = popArguments words := by
  unfold popArguments
  split
  · rw [Code.relabelled_ofInstrs, List.map_map]
    rfl
  · rfl

theorem fromAddress_relabelled (m : Relabelling) (ty : Ty) (wanted : Wanted) :
    (fromAddress ty wanted).relabelled m = fromAddress ty wanted := by
  cases wanted with
  | value => exact load_relabelled m ty
  | address => rfl

theorem valueOnly_relabelled (m : Relabelling) (wanted : Wanted) (code : Code) :
    (valueOnly wanted code).relabelled m = valueOnly wanted (code.relabelled m) := by
  cases wanted <;> rfl

theorem exprsCode_numbered {es : List Expr}
    (h : ∀ e ∈ es, ∀ wanted, exprCode p' wanted (e.numbered n) = (exprCode p wanted e).relabelled m) :
    exprsCode p' (es.map (Expr.numbered n)) = (exprsCode p es).relabelled m := by
  induction es with
  | nil => rfl
  | cons e es ih =>
    rw [List.map_cons, exprsCode, exprsCode, h e List.mem_cons_self,
      ih fun e he => h e (List.mem_cons_of_mem _ he), Code.relabelled_append]

theorem exprCode_numbered (h : p.Renumbered n p') (hm : m.string = n.string) (wanted : Wanted)
    (e : Expr) : exprCode p' wanted (e.numbered n) = (exprCode p wanted e).relabelled m := by
  induction e generalizing wanted with
  | num value ty loc =>
    rw [Expr.numbered, exprCode, exprCode, valueOnly_relabelled]
    rfl
  | str string ty loc =>
    rw [Expr.numbered, exprCode, exprCode, descriptorAddress_numbered h hm, Code.relabelled_append,
      fromAddress_relabelled]
  | var id ty loc =>
    rw [Expr.numbered, exprCode, exprCode, variableAddress_numbered h, Code.relabelled_append,
      fromAddress_relabelled]
  | addr operand ty loc ih => rw [Expr.numbered, exprCode, exprCode, ih, valueOnly_relabelled]
  | deref operand ty loc ih =>
    rw [Expr.numbered, exprCode, exprCode, ih, Code.relabelled_append, fromAddress_relabelled]
  | binary op lhs rhs ty loc ihl ihr =>
    rw [Expr.numbered, exprCode, exprCode, ihl, ihr, valueOnly_relabelled, Code.relabelled_append,
      Code.relabelled_append, operate_relabelled]
  | index base position ty loc ihb ihp =>
    rw [Expr.numbered, exprCode, exprCode, Expr.ty_numbered, ihb, ihb, ihp]
    simp only [Code.relabelled_append, step_relabelled, fromAddress_relabelled]
    split
    · rfl
    · rw [Code.relabelled_append]
      rfl
    · rfl
  | call name args ty loc ih =>
    have htypes : (args.map (Expr.numbered n)).map Expr.ty = args.map Expr.ty := by
      rw [List.map_map]
      exact List.map_congr_left fun arg _ => arg.ty_numbered n
    have hsymbol : p'.symbol name = p.symbol name := congrArg (Symbol.member · name) h.package
    rw [Expr.numbered_call, exprCode, exprCode, exprsCode_numbered ih, htypes, hsymbol,
      valueOnly_relabelled]
    simp only [Code.relabelled_append, popArguments_relabelled, Code.relabelled_call]
    rfl

/-! ## Statements -/

theorem separator_relabelled (m : Relabelling) (printer : Printer) (r : Routine) :
    (if printer = .println then Code.call (.routine r) else Code.nothing).relabelled m =
      if printer = .println then .call (.routine r) else .nothing := by
  split
  · exact Code.relabelled_call m _
  · rfl

section Statements

variable (h : p.Renumbered n p') (hm : m.string = n.string)
include h hm

theorem storesCode_numbered (targets : List Expr) :
    storesCode p' (targets.map (Expr.numbered n)) = (storesCode p targets).relabelled m := by
  induction targets with
  | nil => rfl
  | cons target targets ih =>
    rw [List.map_cons, storesCode, storesCode, ih, storeCode, storeCode, exprCode_numbered h hm,
      Expr.ty_numbered]
    simp only [Code.relabelled_append, store_relabelled, Code.relabelled_discard]

theorem printCode_numbered (arg : Expr) :
    printCode p' (arg.numbered n) = (printCode p arg).relabelled m := by
  rw [printCode, printCode, exprCode_numbered h hm, Expr.ty_numbered, Code.relabelled_append]
  split <;> rw [Code.relabelled_append, Code.relabelled_call] <;> rfl

theorem printsCode_numbered (printer : Printer) (args : List Expr) :
    printsCode p' printer (args.map (Expr.numbered n)) =
      (printsCode p printer args).relabelled m := by
  induction args with
  | nil => rfl
  | cons arg args ih =>
    rw [List.map_cons, printsCode, printsCode, ih, printCode_numbered h hm, Code.relabelled_append,
      Code.relabelled_append, separator_relabelled]

theorem printingCode_numbered (printer : Printer) (args : List Expr) :
    printingCode p' printer (args.map (Expr.numbered n)) =
      (printingCode p printer args).relabelled m := by
  cases args with
  | nil =>
    rw [List.map_nil, printingCode, printingCode, Code.relabelled_append, separator_relabelled]
    rfl
  | cons arg args =>
    rw [List.map_cons, printingCode, printingCode, Code.relabelled_append, separator_relabelled,
      Code.relabelled_append, printCode_numbered h hm, printsCode_numbered h hm]

theorem unlessCode_numbered (cond : Expr) (target : Label) :
    unlessCode p' (cond.numbered n) (target.relabelled m) =
      (unlessCode p cond target).relabelled m := by
  rw [unlessCode, unlessCode, exprCode_numbered h hm, Code.relabelled_append]
  rfl

theorem returnCode_numbered (exit : Label) (value : Option Expr) :
    returnCode p' (exit.relabelled m) (value.map (Expr.numbered n)) =
      (returnCode p exit value).relabelled m := by
  cases value with
  | none => rfl
  | some value =>
    rw [Option.map_some, returnCode, returnCode, exprCode_numbered h hm, Expr.ty_numbered,
      Code.relabelled_append]
    split <;> rfl

end Statements

end Lowering

theorem Stmt.labelCounts_numbered {n : Numbering} {stmts : List Stmt}
    (h : ∀ st ∈ stmts, (st.numbered n).labelCount = st.labelCount) :
    Stmt.labelCounts (stmts.map (Stmt.numbered n)) = Stmt.labelCounts stmts := by
  induction stmts with
  | nil => rfl
  | cons st stmts ih =>
    rw [List.map_cons, labelCounts, labelCounts, h st List.mem_cons_self,
      ih fun st hst => h st (List.mem_cons_of_mem _ hst)]

@[simp] theorem Stmt.labelCount_numbered (n : Numbering) (st : Stmt) :
    (st.numbered n).labelCount = st.labelCount := by
  induction st with
  | block body ih => rw [numbered_block, labelCount, labelCount, labelCounts_numbered ih]
  | branch init cond body otherwise ihi ihb iho =>
    rw [numbered_branch, labelCount, labelCount, ihi, labelCounts_numbered ihb, iho]
  | loop init cond post body loc ihi ihp ihb =>
    rw [numbered_loop, labelCount, labelCount, ihi, labelCounts_numbered ihb, ihp]
  | _ => rfl

namespace Lowering

variable {n : Numbering} {m : Relabelling} {p p' : Program} {exit : Label}

theorem stmtsCode_numbered {stmts : List Stmt}
    (h : ∀ st ∈ stmts, ∀ base base', m.Shifts base base' st.labelCount →
      stmtCode p' (exit.relabelled m) base' (st.numbered n) = (stmtCode p exit base st).relabelled m)
    {base base' : Nat} (hshifts : m.Shifts base base' (Stmt.labelCounts stmts)) :
    stmtsCode p' (exit.relabelled m) base' (stmts.map (Stmt.numbered n)) =
      (stmtsCode p exit base stmts).relabelled m := by
  induction stmts generalizing base base' with
  | nil => rfl
  | cons st stmts ih =>
    rw [List.map_cons, stmtsCode, stmtsCode, h st List.mem_cons_self _ _ hshifts.left,
      Stmt.labelCount_numbered, ih (fun st hst => h st (List.mem_cons_of_mem _ hst)) hshifts.right,
      Code.relabelled_append]

/-- **The code of a statement under other numbers** is its code, relabelled. -/
theorem stmtCode_numbered (h : p.Renumbered n p') (hm : m.string = n.string) (st : Stmt) :
    ∀ base base', m.Shifts base base' st.labelCount →
      stmtCode p' (exit.relabelled m) base' (st.numbered n) =
        (stmtCode p exit base st).relabelled m := by
  have hcounts (stmts : List Stmt) : Stmt.labelCounts (stmts.map (Stmt.numbered n)) =
      Stmt.labelCounts stmts := Stmt.labelCounts_numbered fun st _ => st.labelCount_numbered n
  have hexprs (es : List Expr) :
      exprsCode p' (es.map (Expr.numbered n)) = (exprsCode p es).relabelled m :=
    exprsCode_numbered fun e _ wanted => exprCode_numbered h hm wanted e
  induction st with
  | expr value =>
    intro base base' _
    rw [Stmt.numbered, stmtCode, stmtCode, exprCode_numbered h hm, Expr.ty_numbered,
      Code.relabelled_append, Code.relabelled_discard]
  | ret value loc =>
    intro base base' _
    rw [Stmt.numbered, stmtCode, stmtCode, returnCode_numbered h hm]
  | block body ih =>
    intro base base' hshifts
    rw [Stmt.numbered_block, stmtCode, stmtCode, stmtsCode_numbered ih hshifts]
  | branch init cond body otherwise ihi ihb iho =>
    intro base base' hshifts
    have hinit := hshifts.left.left.left
    have hown : m.flow (base + init.labelCount + 1) = base' + init.labelCount + 1 :=
      hshifts.left.left.right 0 Nat.one_pos
    have hbody : m.Shifts (base + init.labelCount + 1) (base' + init.labelCount + 1)
      (Stmt.labelCounts body) := hshifts.left.right
    have hotherwise : m.Shifts (base + init.labelCount + 1 + Stmt.labelCounts body)
        (base' + init.labelCount + 1 + Stmt.labelCounts body) otherwise.labelCount := by
      have := hshifts.right
      simpa only [Nat.add_assoc] using this
    rw [Stmt.numbered_branch, stmtCode, stmtCode, Stmt.labelCount_numbered, hcounts]
    simp only [Code.relabelled_append, Code.relabelled_ofInstrs, Code.relabelled_label,
      ← unlessCode_numbered h hm, ← ihi _ _ hinit, ← stmtsCode_numbered ihb hbody,
      ← iho _ _ hotherwise, Label.relabelled, List.map_cons, List.map_nil, Instr.relabelled, hown]
  | loop init cond post body loc ihi ihp ihb =>
    intro base base' hshifts
    have hinit := hshifts.left.left.left
    have hown : m.flow (base + init.labelCount + 1) = base' + init.labelCount + 1 :=
      hshifts.left.left.right 0 Nat.one_pos
    have hbody : m.Shifts (base + init.labelCount + 1) (base' + init.labelCount + 1)
      (Stmt.labelCounts body) := hshifts.left.right
    have hpost : m.Shifts (base + init.labelCount + 1 + Stmt.labelCounts body)
        (base' + init.labelCount + 1 + Stmt.labelCounts body) post.labelCount := by
      have := hshifts.right
      simpa only [Nat.add_assoc] using this
    rw [Stmt.numbered_loop, stmtCode, stmtCode, Stmt.labelCount_numbered, hcounts]
    simp only [Code.relabelled_append, Code.relabelled_ofInstrs, Code.relabelled_label,
      ← ihi _ _ hinit, ← stmtsCode_numbered ihb hbody, ← ihp _ _ hpost, Label.relabelled,
      List.map_cons, List.map_nil, Instr.relabelled, hown]
    cases cond with
    | none => rfl
    | some cond =>
      rw [Option.map_some, Option.elim_some, Option.elim_some, ← unlessCode_numbered h hm,
        Label.relabelled, hown]
  | assign targets values loc =>
    intro base base' _
    rw [Stmt.numbered, stmtCode, stmtCode, hexprs, storesCode_numbered h hm, Code.relabelled_append]
  | print printer args loc =>
    intro base base' _
    rw [Stmt.numbered, stmtCode, stmtCode, printingCode_numbered h hm]
  | empty => exact fun _ _ _ => rfl

/-! ## Functions -/

theorem spills_numbered (h : p.Renumbered n p') (ids : List VarId) (regs : List Reg) :
    spills p' (ids.map n.var) regs = (spills p ids regs).map (List.map (Instr.relabelled m)) := by
  induction ids generalizing regs with
  | nil => rfl
  | cons id ids ih =>
    have hv := h.vars id
    rw [List.map_cons, spills, spills]
    cases hp : p.vars[id]? <;> cases hp' : p'.vars[n.var id]? <;> rw [hp, hp'] at hv
    · rfl
    · cases hv
    · cases hv
    next v v' =>
    have hspill : spill v' regs =
        (spill v regs).map fun spilled => (spilled.1.map (Instr.relabelled m), spilled.2) := by
      obtain ⟨name, offset, isLocal, ty, loc, isPlaceholder⟩ := v
      obtain ⟨name', offset', isLocal', ty', loc', isPlaceholder'⟩ := v'
      obtain ⟨-, rfl, -, rfl, -, -⟩ := Variable.mk.inj (Option.some.inj hv)
      unfold spill
      split
      · rfl
      · split
        · split <;> rfl
        · split <;> rfl
    dsimp only
    rw [hspill]
    cases spill v regs with
    | error fault => rfl
    | ok spilled =>
      change (spills p' (ids.map n.var) spilled.2 >>= _) = Except.map _ (spills p ids spilled.2 >>= _)
      rw [ih]
      cases spills p ids spilled.2 with
      | error fault => rfl
      | ok instrs => exact congrArg Except.ok List.map_append.symm

theorem bodyCode_numbered (h : p.Renumbered n p') (hm : m.string = n.string) {f : Function}
    {base base' : Nat} (hshifts : m.Shifts base base' (Stmt.labelCounts f.body)) :
    bodyCode p' (f.numbered n) base' = (bodyCode p f base).map (Listing.relabelled m) := by
  have hsymbol : p'.functionSymbol (f.numbered n) = p.functionSymbol f := by
    unfold Program.functionSymbol
    exact congrArg (ite _ _) (congrArg (Symbol.member · f.name) h.package)
  have hbody : stmtsCode p' ((Label.returnOf (p.functionSymbol f)).relabelled m) base'
      (f.body.map (Stmt.numbered n)) 0 =
      (stmtsCode p (.returnOf (p.functionSymbol f)) base f.body).relabelled m 0 :=
    congrFun (stmtsCode_numbered (fun st _ => stmtCode_numbered h hm st) hshifts) 0
  rw [bodyCode, bodyCode, hsymbol,
    show (f.numbered n).body = f.body.map (Stmt.numbered n) from Stmt.numberedAll_eq_map n f.body]
  refine (congrArg (· >>= _) hbody).trans ?_
  rw [Code.relabelled]
  cases stmtsCode p (.returnOf (p.functionSymbol f)) base f.body 0 with
  | error fault => rfl
  | ok body =>
    change (if (body.relabelled m).growth ≠ 0 then _ else _) = Except.map _ (ite _ _ _)
    rw [Listing.growth_relabelled]
    split <;> rfl

/-- **The code of a function under other numbers** is its code, relabelled. -/
theorem functionCode_numbered (h : p.Renumbered n p') (hm : m.string = n.string) {f : Function}
    {base base' : Nat} (hshifts : m.Shifts base base' (Stmt.labelCounts f.body)) :
    functionCode p' (f.numbered n) base' = (functionCode p f base).map (Listing.relabelled m) := by
  have hsymbol : p'.functionSymbol (f.numbered n) = p.functionSymbol f := by
    unfold Program.functionSymbol
    exact congrArg (ite _ _) (congrArg (Symbol.member · f.name) h.package)
  have hparams : spills p' (f.numbered n).params argumentRegs =
      (spills p f.params argumentRegs).map (List.map (Instr.relabelled m)) :=
    spills_numbered h f.params argumentRegs
  have hprologue : (prologue f.frame).map (Instr.relabelled m) = prologue f.frame := by
    unfold prologue
    split <;> rfl
  rw [functionCode, functionCode, bodyCode_numbered h hm hshifts, hparams, hsymbol]
  cases spills p f.params argumentRegs with
  | error fault => rfl
  | ok params =>
    cases bodyCode p f base with
    | error fault => rfl
    | ok body =>
      have hentry : (Listing.ofInstrs (prologue f.frame ++ params)).relabelled m =
          Listing.ofInstrs (prologue f.frame ++ params.map (Instr.relabelled m)) := by
        rw [Listing.relabelled_ofInstrs, List.map_append, hprologue]
      refine congrArg Except.ok ?_
      rw [Listing.relabelled_append, Listing.relabelled_append]
      refine congrArg (· ++ _) (congrArg (· ++ _) ?_)
      exact congrArg (List.cons _) hentry.symm

end Lowering

/-! ## Places -/

theorem Program.renumbered_unplaced (p : Program) : p.Renumbered .same p.unplaced where
  package := rfl
  vars := p.sameVariable_unplaced
  strings _ := Iff.rfl

namespace Lowering

theorem functionCode_unplaced (p : Program) (f : Function) (base : Nat) :
    functionCode p.unplaced f.unplaced base = functionCode p f base := by
  rw [functionCode_numbered (m := .same) p.renumbered_unplaced rfl (Relabelling.shifts_same _ _)]
  cases functionCode p f base with
  | error fault => rfl
  | ok code => exact congrArg Except.ok code.relabelled_same

theorem functionsCode_unplaced (p : Program) (base : Nat) (fs : List Function) :
    functionsCode p.unplaced base (fs.map Function.unplaced) = functionsCode p base fs := by
  induction fs generalizing base with
  | nil => rfl
  | cons f fs ih =>
    have hcounts : Stmt.labelCounts f.unplaced.body = Stmt.labelCounts f.body :=
      (congrArg _ (Stmt.numberedAll_eq_map _ f.body)).trans
        (Stmt.labelCounts_numbered fun st _ => st.labelCount_numbered _)
    rw [List.map_cons, functionsCode, functionsCode, functionCode_unplaced, hcounts, ih]

theorem programData_unplaced (p : Program) : programData p.unplaced = programData p := by
  have hglobals : globalData p.unplaced = globalData p := by
    funext id
    rw [globalData, globalData, show p.unplaced.vars[id]? = p.vars[id]?.map Variable.unplaced from
      List.getElem?_map]
    cases p.vars[id]? <;> rfl
  rw [programData, programData, hglobals]
  rfl

end Lowering

/-- **Assembly does not depend on places.** -/
theorem Program.assemble_unplaced (p : Program) : p.unplaced.assemble = p.assemble := by
  have hsymbols : (p.declared.map Function.unplaced).map p.unplaced.functionSymbol =
      p.declared.map p.functionSymbol := List.map_map
  rw [assemble, assemble, Lowering.programData_unplaced, declared_unplaced, hsymbols,
    show p.unplaced.funcs = p.funcs.map Function.unplaced from rfl,
    Lowering.functionsCode_unplaced]

end StackCompiler
