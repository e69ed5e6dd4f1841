import StackCompiler.Proofs.Lowering.Labels
import StackCompiler.Proofs.Syntax.Everywhere

/-!
# Proofs/Lowering/Parts — the code of a part is a part of the code

Code is put together from the code of the parts of a tree, so the lines of each part **stand side by
side** among the lines of the whole (`Code.Has`), wherever in a statement the part is.
-/

namespace StackCompiler

/-- Whatever lines the code gives, lines of the other code stand among them, **side by side**. -/
def Code.Has (code part : Code) : Prop :=
  ∀ ⦃l⦄, code.Gives l → ∃ l', part.Gives l' ∧ l' <:+: l

namespace Code.Has

variable {code part inner first second : Code}

theorem refl (code : Code) : code.Has code :=
  fun l hl => ⟨l, hl, List.infix_rfl⟩

theorem trans (h : code.Has part) (h' : part.Has inner) : code.Has inner := by
  intro l hl
  obtain ⟨_, hl', hin⟩ := h hl
  obtain ⟨l', hl', hin'⟩ := h' hl'
  exact ⟨l', hl', hin'.trans hin⟩

theorem left (h : first.Has part) : (first ++ second).Has part := by
  intro l hl
  obtain ⟨a, b, ha, -, rfl⟩ := hl.append
  obtain ⟨l', hl', hin⟩ := h ha
  exact ⟨l', hl', hin.trans (List.prefix_append a b).isInfix⟩

theorem right (h : second.Has part) : (first ++ second).Has part := by
  intro l hl
  obtain ⟨a, b, -, hb, rfl⟩ := hl.append
  obtain ⟨l', hl', hin⟩ := h hb
  exact ⟨l', hl', hin.trans (List.suffix_append a b).isInfix⟩

end Code.Has

namespace Lowering

variable {p : Program} {code part first second : Code}

/-! ## Expressions -/

/-- The code has lines of the expression, for its value or for its address. -/
def HasExpr (p : Program) (code : Code) (e : Expr) : Prop :=
  ∃ wanted, code.Has (exprCode p wanted e)

theorem hasExpr_exprCode (wanted : Wanted) (e : Expr) : HasExpr p (exprCode p wanted e) e :=
  ⟨wanted, .refl _⟩

theorem everywhere_of_has {e : Expr} (h : code.Has part) (he : e.Everywhere (HasExpr p part)) :
    e.Everywhere (HasExpr p code) :=
  he.mono fun _ ⟨wanted, hpart⟩ => ⟨wanted, h.trans hpart⟩

theorem has_valueOnly (wanted : Wanted) (code : Code) : (valueOnly wanted code).Has code := by
  cases wanted with
  | value => exact .refl code
  | address => exact fun _ hl => hl.not_broken.elim

theorem has_exprsCode : ∀ {es : List Expr}, ∀ e ∈ es, (exprsCode p es).Has (exprCode p .value e)
  | [], _, he => absurd he List.not_mem_nil
  | e :: es, e', he' => by
    rw [exprsCode]
    rcases List.mem_cons.mp he' with rfl | he'
    · exact (Code.Has.refl _).left
    · exact (has_exprsCode e' he').right

/-- **Each part of an expression has its lines** in the expression's code. -/
theorem exprCode_everywhere (e : Expr) :
    ∀ wanted, e.Everywhere (HasExpr p (exprCode p wanted e)) := by
  induction e with
  | num => exact fun wanted => .num (hasExpr_exprCode wanted _)
  | str => exact fun wanted => .str (hasExpr_exprCode wanted _)
  | var => exact fun wanted => .var (hasExpr_exprCode wanted _)
  | addr operand ty loc ih =>
    intro wanted
    refine .addr (hasExpr_exprCode wanted _) ?_
    rw [exprCode]
    exact everywhere_of_has (has_valueOnly wanted _) (ih .address)
  | deref operand ty loc ih =>
    intro wanted
    refine .deref (hasExpr_exprCode wanted _) ?_
    rw [exprCode]
    exact everywhere_of_has (Code.Has.refl _).left (ih .value)
  | binary op lhs rhs ty loc ihl ihr =>
    intro wanted
    refine .binary (hasExpr_exprCode wanted _) ?_ ?_ <;> rw [exprCode]
    · exact everywhere_of_has ((has_valueOnly wanted _).trans (Code.Has.refl _).left.left) (ihl .value)
    · exact everywhere_of_has ((has_valueOnly wanted _).trans (Code.Has.refl _).right.left) (ihr .value)
  | index base position ty loc ihb ihp =>
    intro wanted
    refine .index (hasExpr_exprCode wanted _) ?_ ?_ <;> rw [exprCode]
    · refine everywhere_of_has (Code.Has.refl _).left.left.left ?_
      split
      · exact ihb .address
      · exact everywhere_of_has (Code.Has.refl _).left (ihb .address)
      · exact ihb .value
    · exact everywhere_of_has (Code.Has.refl _).right.left.left (ihp .value)
  | call name args ty loc ih =>
    intro wanted
    refine .call (hasExpr_exprCode wanted _) fun arg harg => ?_
    rw [exprCode]
    exact everywhere_of_has ((has_valueOnly wanted _).trans (has_exprsCode arg harg).left.left.left)
      (ih arg harg .value)

/-- What gives the value of an index **gives its address first**. -/
theorem has_address (base position : Expr) (ty : Ty) (loc : Nat) (wanted : Wanted) :
    (exprCode p wanted (.index base position ty loc)).Has
      (exprCode p .address (.index base position ty loc)) := by
  rw [exprCode, exprCode]
  intro l hl
  obtain ⟨a, b, ⟨height, ha⟩, -, rfl⟩ := hl.append
  exact ⟨a, ⟨height, Code.append_eq_ok_iff.mpr ⟨a, [], ha, rfl, (List.append_nil a).symm⟩⟩,
    (List.prefix_append a b).isInfix⟩

/-! ## Statements -/

theorem stmt_everywhere_of_has {st : Stmt} (h : code.Has part)
    (hst : st.Everywhere (HasExpr p part) fun _ => True) :
    st.Everywhere (HasExpr p code) fun _ => True :=
  hst.mono (fun _ ⟨wanted, hpart⟩ => ⟨wanted, h.trans hpart⟩) fun _ h => h

theorem has_stmtsCode (exit : Label) : ∀ {stmts : List Stmt} (base : Nat), ∀ st ∈ stmts,
    ∃ base', (stmtsCode p exit base stmts).Has (stmtCode p exit base' st)
  | [], _, _, hst => absurd hst List.not_mem_nil
  | st :: stmts, base, st', hst' => by
    rw [stmtsCode]
    rcases List.mem_cons.mp hst' with rfl | hst'
    · exact ⟨base, (Code.Has.refl _).left⟩
    · obtain ⟨base', h⟩ := has_stmtsCode exit (base + st.labelCount) st' hst'
      exact ⟨base', h.right⟩

theorem has_storesCode : ∀ {targets : List Expr}, ∀ target ∈ targets,
    (storesCode p targets).Has (exprCode p .address target)
  | [], _, ht => absurd ht List.not_mem_nil
  | target :: targets, target', ht' => by
    rw [storesCode]
    rcases List.mem_cons.mp ht' with rfl | ht'
    · exact (Code.Has.refl _).left.left.right
    · exact (has_storesCode target' ht').left

theorem has_printsCode {printer : Printer} : ∀ {args : List Expr}, ∀ arg ∈ args,
    (printsCode p printer args).Has (exprCode p .value arg)
  | [], _, ha => absurd ha List.not_mem_nil
  | arg :: args, arg', ha' => by
    rw [printsCode]
    rcases List.mem_cons.mp ha' with rfl | ha'
    · exact (Code.Has.refl _).left.right.left
    · exact (has_printsCode arg' ha').right

theorem has_printingCode {printer : Printer} {args : List Expr} {arg : Expr} (h : arg ∈ args) :
    (printingCode p printer args).Has (exprCode p .value arg) := by
  unfold printingCode
  refine Code.Has.left ?_
  cases args with
  | nil => cases h
  | cons first args =>
    rcases List.mem_cons.mp h with rfl | h
    · exact (Code.Has.refl _).left.left
    · exact (has_printsCode arg h).right

/-- **Each expression in a statement has its lines** in the statement's code. -/
theorem stmtCode_everywhere (exit : Label) (st : Stmt) :
    ∀ base, st.Everywhere (HasExpr p (stmtCode p exit base st)) fun _ => True := by
  have hpart {code : Code} {wanted : Wanted} {e : Expr} (h : code.Has (exprCode p wanted e)) :
      e.Everywhere (HasExpr p code) :=
    everywhere_of_has h (exprCode_everywhere e wanted)
  induction st with
  | expr value =>
    intro base
    rw [stmtCode]
    exact .expr trivial (hpart (Code.Has.refl _).left)
  | ret value loc =>
    intro base
    refine .ret trivial fun e he => ?_
    cases he
    exact hpart (Code.Has.refl _).left
  | block body ih =>
    intro base
    refine .block trivial fun st hst => ?_
    obtain ⟨base', h⟩ := has_stmtsCode (p := p) exit base st hst
    rw [stmtCode]
    exact stmt_everywhere_of_has h (ih st hst base')
  | branch init cond body otherwise ihi ihb iho =>
    intro base
    rw [stmtCode]
    refine .branch trivial ?_ ?_ (fun st hst => ?_) ?_
    · exact stmt_everywhere_of_has (Code.Has.refl _).left.left.left.left.left.left (ihi base)
    · exact hpart (Code.Has.refl _).left.right.left.left.left.left.left
    · obtain ⟨base', h⟩ := has_stmtsCode (p := p) exit (base + init.labelCount + 1) st hst
      exact stmt_everywhere_of_has h.right.left.left.left.left (ihb st hst base')
    · exact stmt_everywhere_of_has (Code.Has.refl _).right.left (iho _)
  | loop init cond post body loc ihi ihp ihb =>
    intro base
    rw [stmtCode]
    refine .loop trivial ?_ (fun e he => ?_) ?_ fun st hst => ?_
    · exact stmt_everywhere_of_has (Code.Has.refl _).left.left.left.left.left.left (ihi base)
    · cases he
      exact hpart (Code.Has.refl _).left.right.left.left.left.left
    · exact stmt_everywhere_of_has (Code.Has.refl _).right.left.left (ihp _)
    · obtain ⟨base', h⟩ := has_stmtsCode (p := p) exit (base + init.labelCount + 1) st hst
      exact stmt_everywhere_of_has h.right.left.left.left (ihb st hst base')
  | assign targets values loc =>
    intro base
    rw [stmtCode]
    exact .assign trivial (fun e he => hpart (has_storesCode e he).right)
      fun e he => hpart (has_exprsCode e he).left
  | print printer args loc =>
    intro base
    rw [stmtCode]
    exact .print trivial fun e he => hpart (has_printingCode he)
  | empty => exact fun base => .empty trivial

end Lowering

end StackCompiler
