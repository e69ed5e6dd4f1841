import StackCompiler.Diagnostic.Failure
import StackCompiler.Syntax.Program

/-!
# Typing/Binding — what a name refers to

A placeholder is bound to the local of the function that has its name, and else to the global that
has it, **wherever these were declared**.  What a call needs to know of a function is its
`Signature`.
-/

namespace StackCompiler.Typing

/-- What a call has to agree with. -/
structure Signature where
  name : String
  params : List Ty
deriving DecidableEq, Repr

/-- What the names in the body of a function can refer to. -/
structure Surroundings where
  locals : List VarId
  globals : List VarId
  signatures : List Signature
deriving Repr

def refuse {α : Type} (cause : Cause) (loc : Nat) : Except Failure α :=
  .error (.refused ⟨cause, loc⟩)

/-- The variable of that number. -/
def variableOf (vars : List Variable) (id : VarId) : Except Failure Variable :=
  vars[id]?.elim (.error (.broken .noSuchVariable)) .ok

/-- Whether the variable of that number has that name. -/
def isNamed (vars : List Variable) (name : String) (id : VarId) : Bool :=
  vars[id]?.any (·.name == name)

namespace Surroundings

/-- The declared variable of a name: **a local first**. -/
def find? (s : Surroundings) (vars : List Variable) (name : String) : Option VarId :=
  (s.locals ++ s.globals).find? (isNamed vars name)

/-- What a variable that was read at `loc` refers to: itself, unless it is a placeholder. -/
def bind (s : Surroundings) (vars : List Variable) (id : VarId) (loc : Nat) :
    Except Failure VarId := do
  let v ← variableOf vars id
  if v.isPlaceholder then
    match s.find? vars v.name with
    | some bound => return bound
    | none => refuse (.undefined v.name) loc
  else
    return id

/-- The signature of the function of that name. -/
def signature? (s : Surroundings) (name : String) : Option Signature :=
  s.signatures.find? (·.name == name)

end Surroundings

end StackCompiler.Typing
