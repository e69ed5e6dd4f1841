import Mathlib.Logic.Function.Basic
import StackCompiler.Syntax.Program
import StackCompiler.Typing.Package

/-!
# Proofs/Meaning/Running — what functions over integers do

The part of the language that computes with words alone is run here **on the tree itself**: an
expression has a value, and a statement ends by going on with a new store or by returning a value.
A division by zero or one that overflows has no result, and a loop is given a number of `turns`: a
statement runs to its end if it does so in enough of them.
-/

namespace StackCompiler

/-! ## Expressions -/

/-- The number that a comparison gives. -/
def truth (b : Bool) : Int64 :=
  if b then 1 else 0

/-- The result of an operation on words, going around where it overflows; a division has **none by
zero**, and none of the least number by -1. -/
def BinaryOp.apply : BinaryOp → Int64 → Int64 → Option Int64
  | add, a, b => some (a + b)
  | sub, a, b => some (a - b)
  | mul, a, b => some (a * b)
  | div, a, b => if b = 0 ∨ (a = Int64.minValue ∧ b = -1) then none else some (a / b)
  | eq, a, b => some (truth (a == b))
  | ne, a, b => some (truth (a != b))
  | lt, a, b => some (truth (decide (a < b)))
  | le, a, b => some (truth (decide (a ≤ b)))

/-- What the variables hold. -/
abbrev Store := VarId → Int64

namespace Expr

/-- Whether the expression is built from numbers and these variables. -/
def isArithmetic (locals : List VarId) : Expr → Bool
  | num .. => true
  | var id _ _ => locals.contains id
  | binary _ lhs rhs _ _ => lhs.isArithmetic locals && rhs.isArithmetic locals
  | _ => false

/-- The value of an expression of numbers and variables. -/
def value (σ : Store) : Expr → Option Int64
  | num v _ _ => some v
  | var id _ _ => some (σ id)
  | binary op lhs rhs _ _ => (lhs.value σ).bind fun a => (rhs.value σ).bind (op.apply a)
  | _ => none

/-- The variable that an expression is. -/
def ownVariable : Expr → Option VarId
  | var id _ _ => some id
  | _ => none

end Expr

/-! ## Statements -/

/-- The store after assignments, one after the other. -/
def Store.assign (σ : Store) : List (VarId × Int64) → Store
  | [] => σ
  | (id, v) :: pairs => Store.assign (Function.update σ id v) pairs

/-- Where each variable is assigned to **only once**, the first assignment may as well be the
last. -/
theorem Store.assign_cons_of_notMem {id : VarId} {v : Int64} {pairs : List (VarId × Int64)}
    (h : id ∉ pairs.map Prod.fst) (σ : Store) :
    σ.assign ((id, v) :: pairs) = Function.update (σ.assign pairs) id v := by
  rw [assign]
  induction pairs generalizing σ with
  | nil => rfl
  | cons pair pairs ih =>
    obtain ⟨hne, hnot⟩ := not_or.mp (mt List.mem_cons.mpr h)
    rw [assign, assign, Function.update_comm hne]
    exact ih hnot _

/-- How a statement ends. -/
inductive Ending where
  | next (σ : Store)
  | returned (value : Int64)

/-- Goes on from where something ends, unless it returned. -/
def Ending.andThen (x : Option Ending) (next : Store → Option Ending) : Option Ending :=
  match x with
  | some (.next σ) => next σ
  | x => x

/-- Takes turns while the test is not zero, **at most so many tests**. -/
def takeTurns (test : Store → Option Int64) (turn : Store → Option Ending) :
    Nat → Store → Option Ending
  | 0, _ => none
  | turns + 1, σ => (test σ).bind fun v =>
    if v = 0 then some (.next σ) else Ending.andThen (turn σ) (takeTurns test turn turns)

namespace Stmt

mutual

/-- Whether the statement computes with words alone, and assigns to **distinct variables** of these
at a time. -/
def isArithmetic (locals : List VarId) : Stmt → Bool
  | expr value => value.isArithmetic locals
  | ret value _ => value.any (Expr.isArithmetic locals)
  | block body => areArithmetic locals body
  | branch init cond body otherwise =>
    init.isArithmetic locals && cond.isArithmetic locals && areArithmetic locals body &&
      otherwise.isArithmetic locals
  | loop init cond post body _ =>
    init.isArithmetic locals && cond.all (Expr.isArithmetic locals) &&
      areArithmetic locals body && post.isArithmetic locals
  | assign targets values _ =>
    targets.all (fun target => target.ownVariable.any locals.contains) &&
      decide (targets.filterMap Expr.ownVariable).Nodup && values.all (Expr.isArithmetic locals)
  | print _ _ _ => false
  | empty => true

def areArithmetic (locals : List VarId) : List Stmt → Bool
  | [] => true
  | stmt :: stmts => stmt.isArithmetic locals && areArithmetic locals stmts

end

mutual

/-- What a statement does, if each loop in it ends in so many turns. -/
def run (turns : Nat) : Stmt → Store → Option Ending
  | expr value, σ => (value.value σ).map fun _ => .next σ
  | ret value _, σ => value.bind fun value => (value.value σ).map .returned
  | block body, σ => runAll turns body σ
  | branch init cond body otherwise, σ =>
    Ending.andThen (run turns init σ) fun σ => (cond.value σ).bind fun v =>
      if v = 0 then run turns otherwise σ else runAll turns body σ
  | loop init cond post body _, σ =>
    Ending.andThen (run turns init σ)
      (takeTurns (fun σ => cond.elim (some 1) (Expr.value σ))
        (fun σ => Ending.andThen (runAll turns body σ) (run turns post)) turns)
  | assign targets values _, σ =>
    (values.mapM (Expr.value σ)).map fun vs =>
      .next (σ.assign ((targets.filterMap Expr.ownVariable).zip vs))
  | print _ _ _, _ => none
  | empty, σ => some (.next σ)

/-- What statements do, one after the other. -/
def runAll (turns : Nat) : List Stmt → Store → Option Ending
  | [], σ => some (.next σ)
  | stmt :: stmts, σ => Ending.andThen (run turns stmt σ) (runAll turns stmts)

end

end Stmt

/-! ## Functions -/

/-- Whether the function computes with words alone: its locals are all of type `int`, and so is what
it does with them. -/
def Function.isArithmetic (p : Program) (f : Function) : Bool :=
  f.locals.all (fun id => Typing.tyOf p.vars id == .int) && Stmt.areArithmetic f.locals f.body

/-- What a function returns; **at the end of its body** that is 0. -/
def Ending.result : Ending → Int64
  | next _ => 0
  | returned value => value

end StackCompiler
