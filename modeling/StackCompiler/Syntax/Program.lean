import StackCompiler.Syntax.Stmt

/-!
# Syntax/Program — a package as a whole

A program owns the arena of variables: package-level ones, the locals of all its functions, and
**placeholders** for names that were read before they were declared.  Its first function is
implicit: it runs the initial assignments of the package and then calls the user's `main`.
-/

namespace StackCompiler

structure Variable where
  name : String
  /-- How far below the frame's base the variable ends; 0 until it has a slot. -/
  offset : Int
  isLocal : Bool
  ty : Ty
  loc : Nat
  /-- Whether the variable stands for a name that was not declared when it was read. -/
  isPlaceholder : Bool
deriving DecidableEq, Repr

structure Function where
  name : String
  params : List VarId
  /-- The locals in the order of their declaration, parameters included. -/
  locals : List VarId
  body : List Stmt
  /-- The bytes of the function's frame. -/
  frame : Int
  isImplicit : Bool
  loc : Nat
deriving Repr

structure Program where
  package : String
  vars : List Variable
  globals : List VarId
  strings : List String
  funcs : List Function
deriving Repr

/-! ## Symbols -/

/-- The names that a listing gives to functions and to package-level variables. -/
inductive Symbol where
  /-- The place where a run begins. -/
  | entry
  | member (package name : String)
deriving DecidableEq, Repr

/-- The symbol as it is written. -/
def Symbol.text : Symbol → String
  | entry => "main"
  | member package name => package ++ "." ++ name

namespace Program

/-- The symbol of a name of the package; functions and variables **share these names**. -/
def symbol (p : Program) (name : String) : Symbol :=
  .member p.package name

def functionSymbol (p : Program) (f : Function) : Symbol :=
  if f.isImplicit then .entry else p.symbol f.name

/-- The functions that the source declares. -/
def declared (p : Program) : List Function :=
  p.funcs.filter fun f => !f.isImplicit

end Program

end StackCompiler
