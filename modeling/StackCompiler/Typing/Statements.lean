import StackCompiler.Typing.Slots

/-!
# Typing/Statements — types and slots in a body

A body is walked in the order in which it runs, so a loop's last clause comes **after its body**.
An assignment takes its pairs one by one: the value is typed, a variable without a type takes the
value's, the target is typed, and a local gets its slot.
-/

namespace StackCompiler.Typing

/-! ## Assignments -/

/-- The target, bound and with a type if it is a variable that had none. -/
def inferred (s : Surroundings) (target : Expr) (ty : Ty) : Layout Expr := do
  match target with
  | .var id t loc =>
    let id ← s.bind (← get).vars id loc
    giveType id ty
    return .var id t loc
  | _ => return target

/-- Checks that a value can be stored in a target. -/
def checkStore (target value : Expr) : Except Failure Unit :=
  if target.ty.isArray then
    refuse (.arrayAssigned target.ty) target.loc
  else if target.ty.words ≠ value.ty.words then
    refuse (.valueWords value.ty target.ty) value.loc
  else
    return

/-- One pair of an assignment. -/
def typedPair (s : Surroundings) (pair : Expr × Expr) : Layout (Expr × Expr) := do
  let value ← typedHere s pair.2
  if !value.ty.isResolved then refuse .untypedValue value.loc
  let target ← inferred s pair.1 value.ty
  let target ← typedHere s target
  checkStore target value
  if let some id := target.root? then place id
  return (target, value)

/-- An assignment, which has **as many values as targets**. -/
def typedAssignment (s : Surroundings) (targets values : List Expr) (loc : Nat) :
    Layout Stmt := do
  if targets.length ≠ values.length then
    refuse (.assignmentCount targets.length values.length) loc
  let pairs ← (targets.zip values).mapM (typedPair s)
  return .assign (pairs.map (·.1)) (pairs.map (·.2)) loc

/-! ## Statements -/

mutual

/-- The statement with its types; its locals get their slots. -/
def typedStmt (s : Surroundings) : Stmt → Layout Stmt
  | .expr value => return .expr (← typedHere s value)
  | .ret value loc => return .ret (← value.mapM (typedHere s)) loc
  | .block body => return .block (← typedStmts s body)
  | .branch init cond body otherwise => do
    let init ← typedStmt s init
    let cond ← typedHere s cond
    let body ← typedStmts s body
    return .branch init cond body (← typedStmt s otherwise)
  | .loop init cond post body loc => do
    let init ← typedStmt s init
    let cond ← cond.mapM (typedHere s)
    let body ← typedStmts s body
    return .loop init cond (← typedStmt s post) body loc
  | .assign targets values loc => typedAssignment s targets values loc
  | .print printer args loc => return .print printer (← args.mapM (typedHere s)) loc
  | .empty => return .empty

/-- The statements with their types. -/
def typedStmts (s : Surroundings) : List Stmt → Layout (List Stmt)
  | [] => return []
  | stmt :: stmts => do
    let stmt ← typedStmt s stmt
    return stmt :: (← typedStmts s stmts)

end

end StackCompiler.Typing
