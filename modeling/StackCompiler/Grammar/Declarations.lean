import StackCompiler.Grammar.Expressions
import StackCompiler.Grammar.Types

/-!
# Grammar/Declarations — reading the declaration of a variable

A declaration turns into the assignment of its initial value: of a value that is given, of the
elements of an array **one by one**, or of the zero value of its type.  A package-level variable and
an array start out zeroed, so without a value there is nothing to assign.
-/

namespace StackCompiler.Grammar

/-! ## Ends -/

/-- Whether nothing of a statement is left. -/
def atStatementEnd : Parser Bool :=
  return (← ahead ";") || (← ahead "\x7d") || (← atEnd)

/-- Takes the `;` that ends a statement, unless a brace or the end of the source does. -/
def endStatement : Parser Unit := do
  if ← accept ";" then return
  if (← ahead "\x7d") || (← atEnd) then return
  let _ ← expect ";"

/-! ## Declarations -/

/-- What a declared variable starts with. -/
inductive Initial where
  | zero
  | value (value : Expr)
  | elements (elements : List Expr)
deriving Inhabited

/-- Reads what follows the name and type of a declared variable. -/
def initial : Parser Initial := do
  if ← accept "=" then
    if ← accept "\x7b" then return .elements (← listUntil "\x7d" expression)
    else return .value (← expression)
  else
    return .zero

/-- Takes the end of a declaration.  A line does not end with a token after a brace, so after a
list of elements a **line break** is end enough. -/
def endDeclaration (init : Initial) : Parser Unit := do
  match init with
  | .elements _ => if ← atLineStart then return else endStatement
  | _ => endStatement

/-- The zero value of a type, at `loc`. -/
def zeroValue (ty : Ty) (loc : Nat) : Parser Expr := do
  if ty.isString then return .str (← intern "") .unknown loc
  else return .num 0 ty loc

/-- One assignment of all the elements of an array, and **none of no elements**. -/
def elementwise (target : Expr) (elements : List Expr) (loc : Nat) : Parser Stmt := do
  if elements.isEmpty then return .empty
  let targets ← elements.zipIdx.mapM fun (element, i) =>
    indexed target (.num (Int64.ofNat i) .unknown element.loc) element.loc
  return .assign targets elements loc

/-- The assignment that a declaration of the type stands for. -/
def initialAssignment (id : VarId) (ty : Ty) (isGlobal : Bool) (loc : Nat) : Initial → Parser Stmt
  | .value value => return .assign [.var id .unknown loc] [value] loc
  | .elements elements =>
    if ty.isArray then elementwise (.var id .unknown loc) elements loc
    else refuse .arrayLiteralWithoutArray loc
  | .zero => do
    if isGlobal || ty.isArray then return .empty
    return .assign [.var id .unknown loc] [← zeroValue ty loc] loc

/-- Reads a declaration of one variable. -/
def declaration : Parser Stmt := do
  let _ ← expect "var"
  let (name, loc) ← identifier
  let ty ← if ← typeAhead then type else pure .unknown
  let init ← initial
  endDeclaration init
  if let (.unknown, .zero) := (ty, init) then refuse (.typeOrInitializerMissing name) loc
  let isGlobal := (← get).scope.isNone
  let id ← declare name ty loc
  initialAssignment id ty isGlobal loc init

end StackCompiler.Grammar
