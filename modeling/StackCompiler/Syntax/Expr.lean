import StackCompiler.Syntax.Operator
import StackCompiler.Ty.Basic

/-!
# Syntax/Expr — expressions

Every node carries its type, `unknown` until it has been given one, and the byte offset of the
token it stems from.  Variables are named by their number in the program's arena and strings by
their number in its table, so **a tree holds no names** but those of the functions it calls.
-/

namespace StackCompiler

/-- The number of a variable in the arena. -/
abbrev VarId := Nat

inductive Expr where
  | num (value : Int64) (ty : Ty) (loc : Nat)
  | str (string : Nat) (ty : Ty) (loc : Nat)
  | var (id : VarId) (ty : Ty) (loc : Nat)
  | addr (operand : Expr) (ty : Ty) (loc : Nat)
  | deref (operand : Expr) (ty : Ty) (loc : Nat)
  | binary (op : BinaryOp) (lhs rhs : Expr) (ty : Ty) (loc : Nat)
  | index (base position : Expr) (ty : Ty) (loc : Nat)
  | call (name : String) (args : List Expr) (ty : Ty) (loc : Nat)
deriving Repr, Inhabited

namespace Expr

/-- The type of the expression's value. -/
@[simp] def ty : Expr → Ty
  | num _ t _ | str _ t _ | var _ t _ | addr _ t _ | deref _ t _ | binary _ _ _ t _
  | index _ _ t _ | call _ _ t _ => t

/-- Where the expression stands in the source. -/
@[simp] def loc : Expr → Nat
  | num _ _ l | str _ _ l | var _ _ l | addr _ _ l | deref _ _ l | binary _ _ _ _ l
  | index _ _ _ l | call _ _ _ l => l

/-- Whether the expression denotes a place that holds a value. -/
def isLvalue : Expr → Bool
  | var .. | deref .. | index .. => true
  | _ => false

/-- The variable that holds the place which the expression denotes, **looking through indexing**. -/
def root? : Expr → Option VarId
  | var id _ _ => some id
  | index base _ _ _ => base.root?
  | _ => none

end Expr

end StackCompiler
