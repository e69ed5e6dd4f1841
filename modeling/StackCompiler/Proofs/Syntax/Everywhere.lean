import StackCompiler.Syntax.Program

/-!
# Proofs/Syntax/Everywhere — what holds of every node of a tree

Rules about trees speak of **one node at a time**: of its type, and of the types of the nodes right
under it.  `Expr.Everywhere` and `Stmt.Everywhere` say that such a rule holds of a node and of all
below it.
-/

namespace StackCompiler

/-! ## Expressions -/

/-- Induction over expressions, with **one hypothesis for each argument** of a call. -/
@[elab_as_elim, induction_eliminator]
theorem Expr.induction {motive : Expr → Prop}
    (num : ∀ value ty loc, motive (.num value ty loc))
    (str : ∀ string ty loc, motive (.str string ty loc))
    (var : ∀ id ty loc, motive (.var id ty loc))
    (addr : ∀ operand ty loc, motive operand → motive (.addr operand ty loc))
    (deref : ∀ operand ty loc, motive operand → motive (.deref operand ty loc))
    (binary : ∀ op lhs rhs ty loc, motive lhs → motive rhs → motive (.binary op lhs rhs ty loc))
    (index : ∀ base position ty loc, motive base → motive position →
      motive (.index base position ty loc))
    (call : ∀ name args ty loc, (∀ arg ∈ args, motive arg) → motive (.call name args ty loc))
    (e : Expr) : motive e :=
  Expr.rec (motive_2 := fun es => ∀ e ∈ es, motive e) num str var addr deref binary index call
    (fun _ h => absurd h List.not_mem_nil)
    (fun _ _ he hes => List.forall_mem_cons.mpr ⟨he, hes⟩) e

/-- The rule holds of the expression and of all that it is built from. -/
inductive Expr.Everywhere (P : Expr → Prop) : Expr → Prop
  | num {value ty loc} : P (.num value ty loc) → Everywhere P (.num value ty loc)
  | str {string ty loc} : P (.str string ty loc) → Everywhere P (.str string ty loc)
  | var {id ty loc} : P (.var id ty loc) → Everywhere P (.var id ty loc)
  | addr {operand ty loc} : P (.addr operand ty loc) → Everywhere P operand →
      Everywhere P (.addr operand ty loc)
  | deref {operand ty loc} : P (.deref operand ty loc) → Everywhere P operand →
      Everywhere P (.deref operand ty loc)
  | binary {op lhs rhs ty loc} : P (.binary op lhs rhs ty loc) → Everywhere P lhs →
      Everywhere P rhs → Everywhere P (.binary op lhs rhs ty loc)
  | index {base position ty loc} : P (.index base position ty loc) → Everywhere P base →
      Everywhere P position → Everywhere P (.index base position ty loc)
  | call {name args ty loc} : P (.call name args ty loc) → (∀ arg ∈ args, Everywhere P arg) →
      Everywhere P (.call name args ty loc)

namespace Expr.Everywhere

variable {P P' : Expr → Prop} {e : Expr}

/-- The rule holds of the expression itself. -/
theorem here (h : e.Everywhere P) : P e := by
  cases h <;> assumption

/-- A weaker rule holds wherever a stronger one does. -/
theorem mono (hP : ∀ e, P e → P' e) (h : e.Everywhere P) : e.Everywhere P' := by
  induction h with
  | num h => exact .num (hP _ h)
  | str h => exact .str (hP _ h)
  | var h => exact .var (hP _ h)
  | addr h _ ih => exact .addr (hP _ h) ih
  | deref h _ ih => exact .deref (hP _ h) ih
  | binary h _ _ ihl ihr => exact .binary (hP _ h) ihl ihr
  | index h _ _ ihb ihp => exact .index (hP _ h) ihb ihp
  | call h _ ih => exact .call (hP _ h) ih

/-- What holds everywhere holds everywhere **below each node**. -/
theorem throughout (h : e.Everywhere P) : e.Everywhere fun e => e.Everywhere P := by
  induction h with
  | num h => exact .num (.num h)
  | str h => exact .str (.str h)
  | var h => exact .var (.var h)
  | addr h he ih => exact .addr (.addr h he) ih
  | deref h he ih => exact .deref (.deref h he) ih
  | binary h hl hr ihl ihr => exact .binary (.binary h hl hr) ihl ihr
  | index h hb hp ihb ihp => exact .index (.index h hb hp) ihb ihp
  | call h ha ih => exact .call (.call h ha) ih

/-- Two rules that hold everywhere hold **together**. -/
theorem and (h : e.Everywhere P) (h' : e.Everywhere P') :
    e.Everywhere fun e => P e ∧ P' e := by
  induction h with
  | num h => exact .num ⟨h, h'.here⟩
  | str h => exact .str ⟨h, h'.here⟩
  | var h => exact .var ⟨h, h'.here⟩
  | addr h _ ih => cases h' with | addr h' he => exact .addr ⟨h, h'⟩ (ih he)
  | deref h _ ih => cases h' with | deref h' he => exact .deref ⟨h, h'⟩ (ih he)
  | binary h _ _ ihl ihr =>
    cases h' with | binary h' hl hr => exact .binary ⟨h, h'⟩ (ihl hl) (ihr hr)
  | index h _ _ ihb ihp =>
    cases h' with | index h' hb hp => exact .index ⟨h, h'⟩ (ihb hb) (ihp hp)
  | call h _ ih =>
    cases h' with | call h' ha => exact .call ⟨h, h'⟩ fun arg harg => ih arg harg (ha arg harg)

end Expr.Everywhere

/-- A rule of all expressions holds **everywhere**. -/
theorem Expr.everywhere_of_forall {P : Expr → Prop} (h : ∀ e, P e) (e : Expr) : e.Everywhere P := by
  induction e with
  | num => exact .num (h _)
  | str => exact .str (h _)
  | var => exact .var (h _)
  | addr _ _ _ ih => exact .addr (h _) ih
  | deref _ _ _ ih => exact .deref (h _) ih
  | binary _ _ _ _ _ ihl ihr => exact .binary (h _) ihl ihr
  | index _ _ _ _ ihb ihp => exact .index (h _) ihb ihp
  | call _ _ _ _ ih => exact .call (h _) ih

/-! ## Statements -/

/-- Induction over statements, with **one hypothesis for each statement** of a body. -/
@[elab_as_elim, induction_eliminator]
theorem Stmt.induction {motive : Stmt → Prop}
    (expr : ∀ value, motive (.expr value))
    (ret : ∀ value loc, motive (.ret value loc))
    (block : ∀ body, (∀ stmt ∈ body, motive stmt) → motive (.block body))
    (branch : ∀ init cond body otherwise, motive init → (∀ stmt ∈ body, motive stmt) →
      motive otherwise → motive (.branch init cond body otherwise))
    (loop : ∀ init cond post body loc, motive init → motive post → (∀ stmt ∈ body, motive stmt) →
      motive (.loop init cond post body loc))
    (assign : ∀ targets values loc, motive (.assign targets values loc))
    (print : ∀ printer args loc, motive (.print printer args loc))
    (empty : motive .empty) (s : Stmt) : motive s :=
  Stmt.rec (motive_2 := fun ss => ∀ s ∈ ss, motive s) expr ret block
    (fun init cond body otherwise hi hb ho => branch init cond body otherwise hi hb ho)
    (fun init cond post body loc hi hp hb => loop init cond post body loc hi hp hb)
    assign print empty
    (fun _ h => absurd h List.not_mem_nil)
    (fun _ _ hs hss => List.forall_mem_cons.mpr ⟨hs, hss⟩) s

/-- The one rule holds of the statement and of all that it holds, the other of every expression
in it. -/
inductive Stmt.Everywhere (P : Expr → Prop) (Q : Stmt → Prop) : Stmt → Prop
  | expr {value} : Q (.expr value) → value.Everywhere P → Everywhere P Q (.expr value)
  | ret {value loc} : Q (.ret value loc) → (∀ e ∈ value, Expr.Everywhere P e) →
      Everywhere P Q (.ret value loc)
  | block {body} : Q (.block body) → (∀ stmt ∈ body, Everywhere P Q stmt) →
      Everywhere P Q (.block body)
  | branch {init cond body otherwise} : Q (.branch init cond body otherwise) →
      Everywhere P Q init → cond.Everywhere P → (∀ stmt ∈ body, Everywhere P Q stmt) →
      Everywhere P Q otherwise → Everywhere P Q (.branch init cond body otherwise)
  | loop {init cond post body loc} : Q (.loop init cond post body loc) → Everywhere P Q init →
      (∀ e ∈ cond, Expr.Everywhere P e) → Everywhere P Q post →
      (∀ stmt ∈ body, Everywhere P Q stmt) → Everywhere P Q (.loop init cond post body loc)
  | assign {targets values loc} : Q (.assign targets values loc) →
      (∀ e ∈ targets, Expr.Everywhere P e) → (∀ e ∈ values, Expr.Everywhere P e) →
      Everywhere P Q (.assign targets values loc)
  | print {printer args loc} : Q (.print printer args loc) →
      (∀ e ∈ args, Expr.Everywhere P e) → Everywhere P Q (.print printer args loc)
  | empty : Q .empty → Everywhere P Q .empty

namespace Stmt.Everywhere

variable {P P' : Expr → Prop} {Q Q' : Stmt → Prop} {s : Stmt}

theorem here (h : s.Everywhere P Q) : Q s := by
  cases h <;> assumption

/-- Weaker rules hold wherever stronger ones do. -/
theorem mono (hP : ∀ e, P e → P' e) (hQ : ∀ s, Q s → Q' s) (h : s.Everywhere P Q) :
    s.Everywhere P' Q' := by
  induction h with
  | expr h he => exact .expr (hQ _ h) (he.mono hP)
  | ret h he => exact .ret (hQ _ h) fun e hm => (he e hm).mono hP
  | block h _ ih => exact .block (hQ _ h) ih
  | branch h _ hc _ _ ihi ihb iho => exact .branch (hQ _ h) ihi (hc.mono hP) ihb iho
  | loop h _ hc _ _ ihi ihp ihb =>
    exact .loop (hQ _ h) ihi (fun e hm => (hc e hm).mono hP) ihp ihb
  | assign h ht hv =>
    exact .assign (hQ _ h) (fun e hm => (ht e hm).mono hP) fun e hm => (hv e hm).mono hP
  | print h ha => exact .print (hQ _ h) fun e hm => (ha e hm).mono hP
  | empty h => exact .empty (hQ _ h)

/-- What holds of every expression holds everywhere **below each**. -/
theorem throughout (h : s.Everywhere P Q) : s.Everywhere (Expr.Everywhere P) Q := by
  induction h with
  | expr h he => exact .expr h he.throughout
  | ret h he => exact .ret h fun e hm => (he e hm).throughout
  | block h _ ih => exact .block h ih
  | branch h _ hc _ _ ihi ihb iho => exact .branch h ihi hc.throughout ihb iho
  | loop h _ hc _ _ ihi ihp ihb =>
    exact .loop h ihi (fun e hm => (hc e hm).throughout) ihp ihb
  | assign h ht hv =>
    exact .assign h (fun e hm => (ht e hm).throughout) fun e hm => (hv e hm).throughout
  | print h ha => exact .print h fun e hm => (ha e hm).throughout
  | empty h => exact .empty h

/-- What holds everywhere holds everywhere **below each statement**. -/
theorem at_parts (h : s.Everywhere P Q) : s.Everywhere P fun s => s.Everywhere P Q := by
  induction h with
  | expr h he => exact .expr (.expr h he) he
  | ret h he => exact .ret (.ret h he) he
  | block h hb ih => exact .block (.block h hb) ih
  | branch h hi hc hb ho ihi ihb iho => exact .branch (.branch h hi hc hb ho) ihi hc ihb iho
  | loop h hi hc hp hb ihi ihp ihb => exact .loop (.loop h hi hc hp hb) ihi hc ihp ihb
  | assign h ht hv => exact .assign (.assign h ht hv) ht hv
  | print h ha => exact .print (.print h ha) ha
  | empty h => exact .empty (.empty h)

/-- Two rules that hold everywhere hold **together**. -/
theorem and (h : s.Everywhere P Q) (h' : s.Everywhere P' Q') :
    s.Everywhere (fun e => P e ∧ P' e) fun s => Q s ∧ Q' s := by
  induction h with
  | expr h he => cases h' with | expr h' he' => exact .expr ⟨h, h'⟩ (he.and he')
  | ret h he => cases h' with | ret h' he' => exact .ret ⟨h, h'⟩ fun e hm => (he e hm).and (he' e hm)
  | block h _ ih =>
    cases h' with | block h' hb => exact .block ⟨h, h'⟩ fun s hs => ih s hs (hb s hs)
  | branch h _ hc _ _ ihi ihb iho =>
    cases h' with
    | branch h' hi hc' hb ho =>
      exact .branch ⟨h, h'⟩ (ihi hi) (hc.and hc') (fun s hs => ihb s hs (hb s hs)) (iho ho)
  | loop h _ hc _ _ ihi ihp ihb =>
    cases h' with
    | loop h' hi hc' hp hb =>
      exact .loop ⟨h, h'⟩ (ihi hi) (fun e hm => (hc e hm).and (hc' e hm)) (ihp hp)
        fun s hs => ihb s hs (hb s hs)
  | assign h ht hv =>
    cases h' with
    | assign h' ht' hv' =>
      exact .assign ⟨h, h'⟩ (fun e hm => (ht e hm).and (ht' e hm)) fun e hm => (hv e hm).and (hv' e hm)
  | print h ha =>
    cases h' with | print h' ha' => exact .print ⟨h, h'⟩ fun e hm => (ha e hm).and (ha' e hm)
  | empty h => exact .empty ⟨h, h'.here⟩

end Stmt.Everywhere

theorem Stmt.everywhere_of_forall {P : Expr → Prop} {Q : Stmt → Prop} (hP : ∀ e, P e)
    (hQ : ∀ s, Q s) (s : Stmt) : s.Everywhere P Q := by
  have hexpr := Expr.everywhere_of_forall hP
  induction s with
  | expr => exact .expr (hQ _) (hexpr _)
  | ret => exact .ret (hQ _) fun e _ => hexpr e
  | block _ ih => exact .block (hQ _) ih
  | branch _ _ _ _ ihi ihb iho => exact .branch (hQ _) ihi (hexpr _) ihb iho
  | loop _ _ _ _ _ ihi ihp ihb => exact .loop (hQ _) ihi (fun e _ => hexpr e) ihp ihb
  | assign => exact .assign (hQ _) (fun e _ => hexpr e) fun e _ => hexpr e
  | print => exact .print (hQ _) fun e _ => hexpr e
  | empty => exact .empty (hQ _)

end StackCompiler
