import StackCompiler.Grammar.Repetition

/-!
# Grammar/Types — reading a type

    type  =  "*" type  |  "[" number "]" type  |  type name

An array has a **positive length**, and its size has to fit a machine word.
-/

namespace StackCompiler.Grammar

/-- Whether a type starts at the next token. -/
def typeAhead : Parser Bool :=
  return (← ahead "*") || (← ahead "[") || (← aheadKind .typeName)

/-- The array of a length that was written at `loc`. -/
def arrayType (base : Ty) (len : Int64) (loc : Nat) : Parser Ty :=
  let ty := Ty.array base len.toInt
  if ty.checkedSize.isSome then return ty else refuse (.arrayTooLarge len) loc

/-- Takes the name of a type. -/
def namedType : Parser Ty := do
  match ← peek with
  | some token =>
    match token.kind, Ty.ofName? token.text with
    | .typeName, some ty =>
      advance
      return ty
    | _, _ => unexpected .type
  | none => unexpected .type

def typeTo : Nat → Parser Ty
  | 0 => broken .stalled
  | depth + 1 => do
    if ← accept "*" then
      return .ptr (← typeTo depth)
    else if ← accept "[" then
      let (len, loc) ← number
      if len ≤ 0 then refuse (.arrayLength len) loc
      let _ ← expect "]"
      arrayType (← typeTo depth) len loc
    else
      namedType

/-- Reads a type. -/
def type : Parser Ty :=
  bounded typeTo

end StackCompiler.Grammar
