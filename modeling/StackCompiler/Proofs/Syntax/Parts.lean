import StackCompiler.Proofs.Syntax.Everywhere

/-!
# Proofs/Syntax/Parts — what a tree is built of

The expressions and statements **right below** a node (`Expr.parts`, `Stmt.exprs`, `Stmt.parts`) are what it
is built of; what holds everywhere in them and of the node holds everywhere in the tree.  From them
come the strings of a tree (`Expr.literals`), each with its place and its number in the table, and the
statements inside of a statement (`Stmt.Within`).
-/

namespace StackCompiler

/-! ## Parts -/

/-- The expressions right below an expression. -/
def Expr.parts : Expr → List Expr
  | .num .. | .str .. | .var .. => []
  | .addr operand _ _ | .deref operand _ _ => [operand]
  | .binary _ lhs rhs _ _ => [lhs, rhs]
  | .index base position _ _ => [base, position]
  | .call _ args _ _ => args

/-- The expressions right below a statement, but not in the statements that it holds. -/
def Stmt.exprs : Stmt → List Expr
  | .expr value => [value]
  | .ret value _ => value.toList
  | .branch _ cond _ _ => [cond]
  | .loop _ cond _ _ _ => cond.toList
  | .assign targets values _ => targets ++ values
  | .print _ args _ => args
  | .block _ | .empty => []

/-- The statements right below a statement, **in the order of the source**. -/
def Stmt.parts : Stmt → List Stmt
  | .block body => body
  | .branch init _ body otherwise => init :: (body ++ [otherwise])
  | .loop init _ post body _ => init :: post :: body
  | _ => []

section Everywhere

variable {P : Expr → Prop} {Q : Stmt → Prop}

/-- Induction over expressions **by their parts**, where the kinds of nodes make no difference. -/
theorem Expr.induction_parts {motive : Expr → Prop}
    (step : ∀ e : Expr, (∀ part ∈ e.parts, motive part) → motive e) (e : Expr) : motive e := by
  induction e with
  | num | str | var => exact step _ nofun
  | addr _ _ _ ih | deref _ _ _ ih => exact step _ (List.forall_mem_singleton.mpr ih)
  | binary _ _ _ _ _ ihl ihr =>
    exact step _ (List.forall_mem_cons.mpr ⟨ihl, List.forall_mem_singleton.mpr ihr⟩)
  | index _ _ _ _ ihb ihp =>
    exact step _ (List.forall_mem_cons.mpr ⟨ihb, List.forall_mem_singleton.mpr ihp⟩)
  | call _ _ _ _ ih => exact step _ ih

theorem Stmt.induction_parts {motive : Stmt → Prop}
    (step : ∀ s : Stmt, (∀ part ∈ s.parts, motive part) → motive s) (s : Stmt) : motive s := by
  induction s with
  | block _ ih => exact step _ ih
  | branch _ _ _ _ ihi ihb iho =>
    exact step _ (List.forall_mem_cons.mpr ⟨ihi, List.forall_mem_append.mpr
      ⟨ihb, List.forall_mem_singleton.mpr iho⟩⟩)
  | loop _ _ _ _ _ ihi ihp ihb =>
    exact step _ (List.forall_mem_cons.mpr ⟨ihi, List.forall_mem_cons.mpr ⟨ihp, ihb⟩⟩)
  | expr | ret | assign | print | empty => exact step _ nofun

/-- A rule holds everywhere in a tree if it holds of the node, and **everywhere in its parts**. -/
theorem Expr.everywhere_iff_parts {e : Expr} :
    e.Everywhere P ↔ P e ∧ ∀ part ∈ e.parts, part.Everywhere P := by
  constructor
  · intro h
    refine ⟨h.here, ?_⟩
    cases h with
    | num | str | var => exact nofun
    | addr _ h | deref _ h => exact List.forall_mem_singleton.mpr h
    | binary _ h h' | index _ h h' =>
      exact List.forall_mem_cons.mpr ⟨h, List.forall_mem_singleton.mpr h'⟩
    | call _ h => exact h
  · rintro ⟨h, hparts⟩
    cases e with
    | num => exact .num h
    | str => exact .str h
    | var => exact .var h
    | addr => exact .addr h (List.forall_mem_singleton.mp hparts)
    | deref => exact .deref h (List.forall_mem_singleton.mp hparts)
    | binary =>
      obtain ⟨hlhs, hrhs⟩ := List.forall_mem_cons.mp hparts
      exact .binary h hlhs (List.forall_mem_singleton.mp hrhs)
    | index =>
      obtain ⟨hbase, hposition⟩ := List.forall_mem_cons.mp hparts
      exact .index h hbase (List.forall_mem_singleton.mp hposition)
    | call => exact .call h hparts

theorem Stmt.everywhere_iff_parts {s : Stmt} :
    s.Everywhere P Q ↔ Q s ∧ (∀ e ∈ s.exprs, e.Everywhere P) ∧
      ∀ part ∈ s.parts, part.Everywhere P Q := by
  constructor
  · intro h
    refine ⟨h.here, ?_⟩
    cases h with
    | expr _ he => exact ⟨List.forall_mem_singleton.mpr he, nofun⟩
    | ret _ he => exact ⟨fun e h => he e (Option.mem_toList.mp h), nofun⟩
    | block _ hb => exact ⟨nofun, hb⟩
    | branch _ hi hc hb ho =>
      exact ⟨List.forall_mem_singleton.mpr hc, List.forall_mem_cons.mpr ⟨hi,
        List.forall_mem_append.mpr ⟨hb, List.forall_mem_singleton.mpr ho⟩⟩⟩
    | loop _ hi hc hp hb =>
      exact ⟨fun e h => hc e (Option.mem_toList.mp h),
        List.forall_mem_cons.mpr ⟨hi, List.forall_mem_cons.mpr ⟨hp, hb⟩⟩⟩
    | assign _ ht hv => exact ⟨List.forall_mem_append.mpr ⟨ht, hv⟩, nofun⟩
    | print _ ha => exact ⟨ha, nofun⟩
    | empty => exact ⟨nofun, nofun⟩
  · rintro ⟨h, hexprs, hparts⟩
    cases s with
    | expr => exact .expr h (List.forall_mem_singleton.mp hexprs)
    | ret => exact .ret h fun e he => hexprs e (Option.mem_toList.mpr he)
    | block => exact .block h hparts
    | branch =>
      obtain ⟨hinit, hrest⟩ := List.forall_mem_cons.mp hparts
      obtain ⟨hbody, hotherwise⟩ := List.forall_mem_append.mp hrest
      exact .branch h hinit (List.forall_mem_singleton.mp hexprs) hbody
        (List.forall_mem_singleton.mp hotherwise)
    | loop =>
      obtain ⟨hinit, hrest⟩ := List.forall_mem_cons.mp hparts
      obtain ⟨hpost, hbody⟩ := List.forall_mem_cons.mp hrest
      exact .loop h hinit (fun e he => hexprs e (Option.mem_toList.mpr he)) hpost hbody
    | assign =>
      obtain ⟨htargets, hvalues⟩ := List.forall_mem_append.mp hexprs
      exact .assign h htargets hvalues
    | print => exact .print h hexprs
    | empty => exact .empty h

end Everywhere

/-! ## Strings -/

/-- Whether the node is a string. -/
def Expr.isStr : Expr → Bool
  | .str .. => true
  | _ => false

mutual

/-- The strings of an expression: **where each stands**, and its number in the table. -/
def Expr.literals : Expr → List (Nat × Nat)
  | .str string _ loc => [(loc, string)]
  | .num .. | .var .. => []
  | .addr operand _ _ | .deref operand _ _ => operand.literals
  | .binary _ lhs rhs _ _ => lhs.literals ++ rhs.literals
  | .index base position _ _ => base.literals ++ position.literals
  | .call _ args _ _ => Expr.literalsOf args

def Expr.literalsOf : List Expr → List (Nat × Nat)
  | [] => []
  | e :: es => e.literals ++ Expr.literalsOf es

end

theorem Expr.literalsOf_eq (es : List Expr) : Expr.literalsOf es = es.flatMap Expr.literals := by
  induction es with
  | nil => rfl
  | cons e es ih => rw [literalsOf, ih, List.flatMap_cons]

/-- The strings of a node that is none are **those of its parts**. -/
theorem Expr.literals_eq {e : Expr} (h : e.isStr = false) :
    e.literals = e.parts.flatMap Expr.literals := by
  cases e with
  | str => cases h
  | num | var => rfl
  | addr | deref => simp [literals, parts]
  | binary | index => simp [literals, parts]
  | call name args => exact Expr.literalsOf_eq args

mutual

/-- The strings of a statement, those of its own expressions first. -/
def Stmt.literals (s : Stmt) : List (Nat × Nat) :=
  s.exprs.flatMap Expr.literals ++
    match s with
    | .block body => Stmt.literalsOf body
    | .branch init _ body otherwise => init.literals ++ (Stmt.literalsOf body ++ otherwise.literals)
    | .loop init _ post body _ => init.literals ++ (post.literals ++ Stmt.literalsOf body)
    | .expr _ | .ret .. | .assign .. | .print .. | .empty => []

def Stmt.literalsOf : List Stmt → List (Nat × Nat)
  | [] => []
  | s :: ss => s.literals ++ Stmt.literalsOf ss

end

theorem Stmt.literalsOf_eq (ss : List Stmt) : Stmt.literalsOf ss = ss.flatMap Stmt.literals := by
  induction ss with
  | nil => rfl
  | cons s ss ih => rw [literalsOf, ih, List.flatMap_cons]

/-- The strings of a statement are those of **its expressions and its parts**. -/
theorem Stmt.literals_eq (s : Stmt) :
    s.literals = s.exprs.flatMap Expr.literals ++ s.parts.flatMap Stmt.literals := by
  cases s <;> simp [literals, literalsOf_eq, parts]

/-- The strings of a program: where each stands, and its number in the table. -/
def Program.literals (p : Program) : List (Nat × Nat) :=
  p.funcs.flatMap fun f => f.body.flatMap Stmt.literals

theorem Program.literals_eq (p : Program) :
    p.literals = (p.funcs.flatMap (·.body)).flatMap Stmt.literals :=
  List.flatMap_assoc.symm

/-! ## Statements inside of statements -/

/-- The statement stands in the other one, or is it. -/
inductive Stmt.Within (s : Stmt) : Stmt → Prop
  | self : Within s s
  | part {whole part : Stmt} (hpart : part ∈ whole.parts) (h : Within s part) : Within s whole

end StackCompiler
