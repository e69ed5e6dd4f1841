import StackCompiler.Proofs.Syntax.Everywhere

/-!
# Proofs/Syntax/Tally — how many nodes of a tree are of a kind

`Expr.tally` and `Stmt.tally` count the nodes of a tree that a test picks out, **each node once**.
-/

namespace StackCompiler

/-! ## Expressions -/

mutual

/-- The nodes of an expression that pass the test. -/
def Expr.tally (P : Expr → Bool) (e : Expr) : Nat :=
  (P e).toNat +
    match e with
    | .num .. | .str .. | .var .. => 0
    | .addr operand _ _ | .deref operand _ _ => operand.tally P
    | .binary _ lhs rhs _ _ => lhs.tally P + rhs.tally P
    | .index base position _ _ => base.tally P + position.tally P
    | .call _ args _ _ => Expr.tallies P args

/-- The nodes of expressions that pass the test. -/
def Expr.tallies (P : Expr → Bool) : List Expr → Nat
  | [] => 0
  | e :: es => e.tally P + Expr.tallies P es

end

theorem Expr.tally_eq_zero_of_mem {P : Expr → Bool} {es : List Expr} (h : Expr.tallies P es = 0)
    {e : Expr} (he : e ∈ es) : e.tally P = 0 := by
  induction es with
  | nil => cases he
  | cons e' es ih =>
    rw [tallies, Nat.add_eq_zero_iff] at h
    rcases List.mem_cons.mp he with rfl | he
    · exact h.1
    · exact ih h.2 he

/-- Where a tree has no node that passes, **no tree below it** has one. -/
theorem Expr.everywhere_of_tally {P : Expr → Bool} {e : Expr} (h : e.tally P = 0) :
    e.Everywhere fun e => e.tally P = 0 := by
  have hparts := h
  induction e with
  | num => exact .num h
  | str => exact .str h
  | var => exact .var h
  | addr operand ty loc ih =>
    rw [tally, Nat.add_eq_zero_iff] at hparts
    exact .addr h (ih hparts.2 hparts.2)
  | deref operand ty loc ih =>
    rw [tally, Nat.add_eq_zero_iff] at hparts
    exact .deref h (ih hparts.2 hparts.2)
  | binary op lhs rhs ty loc ihl ihr =>
    rw [tally, Nat.add_eq_zero_iff, Nat.add_eq_zero_iff] at hparts
    obtain ⟨-, hl, hr⟩ := hparts
    exact .binary h (ihl hl hl) (ihr hr hr)
  | index base position ty loc ihb ihp =>
    rw [tally, Nat.add_eq_zero_iff, Nat.add_eq_zero_iff] at hparts
    obtain ⟨-, hb, hp⟩ := hparts
    exact .index h (ihb hb hb) (ihp hp hp)
  | call name args ty loc ih =>
    rw [tally, Nat.add_eq_zero_iff] at hparts
    refine .call h fun arg harg => ?_
    have harg' := tally_eq_zero_of_mem hparts.2 harg
    exact ih arg harg harg' harg'

/-! ## Statements -/

mutual

/-- The nodes of a statement that pass a test, one for its expressions and one for itself and the
statements in it. -/
def Stmt.tally (P : Expr → Bool) (Q : Stmt → Bool) (s : Stmt) : Nat :=
  (Q s).toNat +
    match s with
    | .expr value => value.tally P
    | .ret value _ => value.elim 0 (Expr.tally P)
    | .block body => Stmt.tallies P Q body
    | .branch init cond body otherwise =>
      init.tally P Q + cond.tally P + Stmt.tallies P Q body + otherwise.tally P Q
    | .loop init cond post body _ =>
      init.tally P Q + cond.elim 0 (Expr.tally P) + Stmt.tallies P Q body + post.tally P Q
    | .assign targets values _ => Expr.tallies P values + Expr.tallies P targets
    | .print _ args _ => Expr.tallies P args
    | .empty => 0

/-- The nodes of statements that pass the tests. -/
def Stmt.tallies (P : Expr → Bool) (Q : Stmt → Bool) : List Stmt → Nat
  | [] => 0
  | s :: ss => s.tally P Q + Stmt.tallies P Q ss

end

theorem Stmt.tally_eq_zero_of_mem {P : Expr → Bool} {Q : Stmt → Bool} {ss : List Stmt}
    (h : Stmt.tallies P Q ss = 0) {s : Stmt} (hs : s ∈ ss) : s.tally P Q = 0 := by
  induction ss with
  | nil => cases hs
  | cons s' ss ih =>
    rw [tallies, Nat.add_eq_zero_iff] at h
    rcases List.mem_cons.mp hs with rfl | hs
    · exact h.1
    · exact ih h.2 hs

/-- Where a statement has no node that passes, **no expression in it** has one. -/
theorem Stmt.everywhere_of_tally {P : Expr → Bool} {Q : Stmt → Bool} {s : Stmt}
    (h : s.tally P Q = 0) : s.Everywhere (fun e => e.tally P = 0) fun _ => True := by
  have hoptional {value : Option Expr} (hvalue : value.elim 0 (Expr.tally P) = 0) :
      ∀ e ∈ value, e.Everywhere fun e => e.tally P = 0 := fun e he => by
    cases he
    exact Expr.everywhere_of_tally hvalue
  have hlist {es : List Expr} (hes : Expr.tallies P es = 0) :
      ∀ e ∈ es, e.Everywhere fun e => e.tally P = 0 := fun e he =>
    Expr.everywhere_of_tally (Expr.tally_eq_zero_of_mem hes he)
  induction s with
  | expr value =>
    rw [tally, Nat.add_eq_zero_iff] at h
    exact .expr trivial (Expr.everywhere_of_tally h.2)
  | ret value loc =>
    rw [tally, Nat.add_eq_zero_iff] at h
    exact .ret trivial (hoptional h.2)
  | block body ih =>
    rw [tally, Nat.add_eq_zero_iff] at h
    exact .block trivial fun s hs => ih s hs (tally_eq_zero_of_mem h.2 hs)
  | branch init cond body otherwise ihi ihb iho =>
    simp only [tally, Nat.add_eq_zero_iff] at h
    obtain ⟨-, ⟨⟨hi, hc⟩, hb⟩, ho⟩ := h
    exact .branch trivial (ihi hi) (Expr.everywhere_of_tally hc)
      (fun s hs => ihb s hs (tally_eq_zero_of_mem hb hs)) (iho ho)
  | loop init cond post body loc ihi ihp ihb =>
    simp only [tally, Nat.add_eq_zero_iff] at h
    obtain ⟨-, ⟨⟨hi, hc⟩, hb⟩, hp⟩ := h
    exact .loop trivial (ihi hi) (hoptional hc) (ihp hp)
      fun s hs => ihb s hs (tally_eq_zero_of_mem hb hs)
  | assign targets values loc =>
    simp only [tally, Nat.add_eq_zero_iff] at h
    exact .assign trivial (hlist h.2.2) (hlist h.2.1)
  | print printer args loc =>
    rw [tally, Nat.add_eq_zero_iff] at h
    exact .print trivial (hlist h.2)
  | empty => exact .empty trivial

end StackCompiler
