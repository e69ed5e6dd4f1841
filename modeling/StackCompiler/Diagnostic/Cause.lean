import StackCompiler.Syntax.Operator
import StackCompiler.Ty.Basic

/-!
# Diagnostic/Cause — why a source is refused

A cause says what is wrong with a source in the source's own terms.  Its category and its wording
are **functions of the cause**, so two causes can be told apart before they are put into words.
-/

namespace StackCompiler

/-- What kind of rule a source breaks. -/
inductive Category where
  | lexical | grammar | name | type | bounds
deriving DecidableEq, Repr, Inhabited

def Category.text : Category → String
  | lexical => "lex"
  | grammar => "parse"
  | name => "name"
  | type => "type"
  | bounds => "bounds"

/-- What the grammar asks for at a place. -/
inductive Expected where
  | token (text : String)
  | declaration
  | type
  | identifier
  | number
  | expression
  | assignment
deriving DecidableEq, Repr

def Expected.wording : Expected → String
  | token text => "\"" ++ text ++ "\""
  | declaration => "\"func\" or \"var\""
  | type => "a type"
  | identifier => "an identifier"
  | number => "a number"
  | expression => "an expression"
  | assignment => "\"=\" or \":=\""

/-- The reasons for which a source is refused. -/
inductive Cause where
  | unterminatedString
  | malformedCharacter
  | invalidCharacter (c : Char)
  | unexpected (expected : Expected) (got : String)
  | endOfInput
  | numberWithoutValue
  | arrayParameter
  | arrayLength (len : Int64)
  | conditionMissing (keyword : String)
  | typeOrInitializerMissing (name : String)
  | arrayLiteralWithoutArray
  | unknownStdlibCall
  | notAssignable
  | notAddressable
  | functionRedeclared (name : String)
  | redeclared (name : String)
  | undefined (name : String)
  | arrayTooLarge (len : Int64)
  | parameterWords (name : String) (words : Nat)
  | frameTooLarge (name : String)
  | slotTooLarge (name : String)
  | uninferable (name : String)
  | assignmentCount (targets values : Nat)
  | untypedValue
  | arrayAssigned (target : Ty)
  | valueWords (value target : Ty)
  | operandKinds (lhs rhs : Ty) (op : BinaryOp)
  | operatorUndefined (op : BinaryOp) (operand : Ty)
  | argumentCount (name : String) (given wanted : Nat)
  | argumentWords (argument parameter : Ty) (name : String)
  | indexOutOfBounds (index : Int64) (name : String) (len : Int)
deriving DecidableEq, Repr

/-- The words of argument registers that a call can use. -/
def maxArgumentWords : Nat := 6

namespace Cause

def category : Cause → Category
  | unterminatedString | malformedCharacter | invalidCharacter _ => .lexical
  | unexpected _ _ | endOfInput | numberWithoutValue | arrayParameter | arrayLength _
  | conditionMissing _ | typeOrInitializerMissing _ | arrayLiteralWithoutArray
  | unknownStdlibCall | notAssignable | notAddressable => .grammar
  | functionRedeclared _ | redeclared _ | undefined _ => .name
  | arrayTooLarge _ | parameterWords _ _ | frameTooLarge _ | slotTooLarge _ | uninferable _
  | assignmentCount _ _ | untypedValue | arrayAssigned _ | valueWords _ _ | operandKinds _ _ _
  | operatorUndefined _ _ | argumentCount _ _ _ | argumentWords _ _ _ => .type
  | indexOutOfBounds _ _ _ => .bounds

def message : Cause → String
  | unterminatedString => "unterminated string literal"
  | malformedCharacter => "character literal must hold exactly one character"
  | invalidCharacter c => "invalid character '" ++ String.ofList [c] ++ "'"
  | unexpected expected got => "expected " ++ expected.wording ++ ", but got \"" ++ got ++ "\""
  | endOfInput => "unexpected end of input"
  | numberWithoutValue => "internal error: numeric token missing value"
  | arrayParameter => "array parameters are not supported"
  | arrayLength len => "array length must be positive, got " ++ toString len.toInt
  | conditionMissing keyword => "expected a condition after \"" ++ keyword ++ "\""
  | typeOrInitializerMissing name => "missing type or initializer for " ++ name
  | arrayLiteralWithoutArray => "array literal requires an array type"
  | unknownStdlibCall => "unknown standard-library call"
  | notAssignable => "left-hand side is not assignable"
  | notAddressable => "cannot take the address of this expression"
  | functionRedeclared name => "function " ++ name ++ " already declared"
  | redeclared name => name ++ " already declared"
  | undefined name => "undefined: " ++ name
  | arrayTooLarge len => "array of " ++ toString len.toInt ++ " elements is too large"
  | parameterWords name words =>
    "parameters of " ++ name ++ " need " ++ toString words ++ " argument registers, at most " ++
      toString maxArgumentWords ++ " are available"
  | frameTooLarge name => "stack frame of " ++ name ++ " is too large"
  | slotTooLarge name => name ++ " does not fit in the stack frame"
  | uninferable name => "cannot infer type of " ++ name
  | assignmentCount targets values =>
    "assignment mismatch: " ++ toString targets ++ " variables but " ++ toString values ++ " values"
  | untypedValue => "value is used before its type is known"
  | arrayAssigned target => "cannot assign to array of type " ++ target.text
  | valueWords value target => "cannot assign " ++ value.text ++ " to " ++ target.text
  | operandKinds lhs rhs op =>
    "mismatched types " ++ lhs.text ++ " and " ++ rhs.text ++ " in " ++ op.symbol
  | operatorUndefined op operand =>
    "operator " ++ op.symbol ++ " not defined on " ++ operand.text
  | argumentCount name given wanted =>
    "wrong argument count in call to " ++ name ++ ": have " ++ toString given ++ ", want " ++
      toString wanted
  | argumentWords argument parameter name =>
    "cannot use " ++ argument.text ++ " as " ++ parameter.text ++ " argument to " ++ name
  | indexOutOfBounds index name len =>
    "index " ++ toString index.toInt ++ " out of bounds for " ++ name ++ " (length " ++
      toString len ++ ")"

end Cause

end StackCompiler
