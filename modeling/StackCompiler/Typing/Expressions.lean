import StackCompiler.Typing.Binding

/-!
# Typing/Expressions — the type of an expression

Types are given **from the leaves up**, and a node that has a type keeps it.  Variables are left as
they are: a variable without a type gives its readers none.  The right operand of an operator comes
before the left one, which shows where both are refused.
-/

namespace StackCompiler.Typing

/-! ## The types of the forms -/

/-- The type of what an operand points at; a number is an **address of an `int`**. -/
def pointeeTy : Ty → Ty
  | .ptr base => base
  | _ => .int

/-- The type of an element; what is no array is indexed by **bytes**. -/
def elementTy : Ty → Ty
  | .array base _ => base
  | _ => .int8

/-- The type of an operation on operands of these types, at `loc`. -/
def operationTy (op : BinaryOp) (lhs rhs : Ty) (loc : Nat) : Except Failure Ty :=
  if lhs.kind ≠ rhs.kind then
    refuse (.operandKinds lhs rhs op) loc
  else if !lhs.isResolved || lhs.isString || lhs.isArray then
    refuse (.operatorUndefined op lhs) loc
  else
    return if op.isComparison then .bool else lhs

/-- Checks that the arguments take the words of the parameters, one by one. -/
def checkArguments (name : String) : List Expr → List Ty → Except Failure Unit
  | arg :: args, param :: params =>
    if arg.ty.words ≠ param.words then refuse (.argumentWords arg.ty param name) arg.loc
    else checkArguments name args params
  | _, _ => return

/-- Checks a call at `loc` against the function of that name. -/
def checkCall (s : Surroundings) (name : String) (args : List Expr) (loc : Nat) :
    Except Failure Unit :=
  match s.signature? name with
  | none => refuse (.undefined name) loc
  | some signature =>
    if signature.params.length ≠ args.length then
      refuse (.argumentCount name args.length signature.params.length) loc
    else
      checkArguments name args signature.params

/-! ## Expressions -/

mutual

/-- The expression with its types, and with its placeholders bound. -/
def typed (s : Surroundings) (vars : List Variable) (e : Expr) : Except Failure Expr :=
  if e.ty.isResolved then return e
  else
    match e with
    | .num value _ loc => return .num value .int loc
    | .str string _ loc => return .str string .string loc
    | .var id _ loc => do
      let id ← s.bind vars id loc
      return .var id (← variableOf vars id).ty loc
    | .addr operand _ loc => do
      let operand ← typed s vars operand
      return .addr operand (.ptr operand.ty) loc
    | .deref operand _ loc => do
      let operand ← typed s vars operand
      return .deref operand (pointeeTy operand.ty) loc
    | .binary op lhs rhs _ loc => do
      let rhs ← typed s vars rhs
      let lhs ← typed s vars lhs
      return .binary op lhs rhs (← operationTy op lhs.ty rhs.ty loc) loc
    | .index base position _ loc => do
      let base ← typed s vars base
      let position ← typed s vars position
      return .index base position (elementTy base.ty) loc
    | .call name args _ loc => do
      let args ← typedAll s vars args
      checkCall s name args loc
      return .call name args .int loc

/-- The expressions with their types. -/
def typedAll (s : Surroundings) (vars : List Variable) : List Expr → Except Failure (List Expr)
  | [] => return []
  | e :: es => do
    let e ← typed s vars e
    return e :: (← typedAll s vars es)

end

end StackCompiler.Typing
