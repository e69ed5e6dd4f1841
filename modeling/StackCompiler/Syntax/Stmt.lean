import StackCompiler.Syntax.Expr

/-!
# Syntax/Stmt — statements

A declaration is no statement of its own: it is an **assignment** to the variable that it declares,
or `empty` where it assigns nothing.
-/

namespace StackCompiler

/-- The printing statements of the language. -/
inductive Printer where
  | print | println
deriving DecidableEq, Repr, Inhabited

namespace Printer

def name : Printer → String
  | print => "print"
  | println => "println"

def ofName? (name : String) : Option Printer :=
  if name = "print" then some print else if name = "println" then some println else none

end Printer

inductive Stmt where
  | expr (value : Expr)
  | ret (value : Option Expr) (loc : Nat)
  | block (body : List Stmt)
  | branch (init : Stmt) (cond : Expr) (body : List Stmt) (otherwise : Stmt)
  | loop (init : Stmt) (cond : Option Expr) (post : Stmt) (body : List Stmt) (loc : Nat)
  /-- Targets and values in pairs; all values are computed before any is stored. -/
  | assign (targets values : List Expr) (loc : Nat)
  | print (printer : Printer) (args : List Expr) (loc : Nat)
  | empty
deriving Repr, Inhabited

/-- Whether the statement does nothing, not even name a block. -/
def Stmt.isEmpty : Stmt → Bool
  | empty => true
  | _ => false

end StackCompiler
