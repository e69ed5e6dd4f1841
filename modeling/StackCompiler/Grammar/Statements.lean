import StackCompiler.Grammar.Declarations

/-!
# Grammar/Statements — reading a statement

A statement starts with a keyword, a brace, or an expression, and what it starts with **decides**
what it is; only a short declaration takes a look at the tokens ahead.
-/

namespace StackCompiler.Grammar

/-! ## Simple statements -/

/-- Whether the tokens start with names, commas between them, and `:=`. -/
def isShortDeclaration : List Token → Bool
  | name :: next :: rest =>
    name.kind == .ident && (next.is ":=" || (next.is "," && isShortDeclaration rest))
  | _ => false

/-- Reads a declaration that takes its types from the values; **the values come first**, so they
do not see the names. -/
def shortDeclaration : Parser Stmt := do
  let names ← commaList identifier
  let loc ← expect ":="
  let values ← commaList expression
  let targets ← names.mapM fun (name, nameLoc) =>
    return .var (← declare name .unknown nameLoc) .unknown nameLoc
  return .assign targets values loc

/-- Refuses what cannot be assigned to. -/
def checkTarget (target : Expr) : Parser Unit := do
  if let .var id _ loc := target then
    let v ← variableOf id
    if v.isPlaceholder then refuse (.undefined v.name) loc
  if !target.isLvalue then refuse .notAssignable target.loc

/-- Reads an assignment or an expression that stands alone. -/
def assignmentOrExpression : Parser Stmt := do
  let targets ← commaList expression
  if ← ahead "=" then
    let loc ← expect "="
    targets.forM checkTarget
    return .assign targets (← commaList expression) loc
  match targets with
  | [value] => return .expr value
  | _ => unexpected .assignment

/-- Reads a statement that holds no others. -/
def simple : Parser Stmt := do
  if isShortDeclaration (← get).rest then shortDeclaration else assignmentOrExpression

/-- Reads a printing statement. -/
def printing : Parser Stmt := do
  let loc ← here
  match (← peek).bind fun token => Printer.ofName? token.text with
  | none => refuse .unknownStdlibCall loc
  | some printer =>
    advance
    let _ ← expect "("
    return .print printer (← listUntil ")" expression) loc

/-! ## Statements that hold others -/

/-- Statements between braces. -/
def braced (statement : Parser Stmt) : Parser (List Stmt) := do
  let _ ← expect "\x7b"
  iterate (fun body => do
    if ← accept "\x7d" then return .done body
    if ← accept ";" then return .again body
    return .again (body ++ [← statement])) []

/-- Reads what follows `if`, with what comes before the condition. -/
def branchHead (loc : Nat) : Parser (Stmt × Expr) := do
  let first ← simple
  if ← accept ";" then return (first, ← expression)
  match first with
  | .expr cond => return (.empty, cond)
  | _ => refuse (.conditionMissing "if") loc

def branchTo (block : Parser (List Stmt)) (loc : Nat) : Nat → Parser Stmt
  | 0 => broken .stalled
  | depth + 1 => do
    let (init, cond) ← branchHead loc
    let body ← block
    if ← accept "else" then
      let elseLoc ← here
      if ← accept "if" then
        return .branch init cond body (← branchTo block elseLoc depth)
      else
        return .branch init cond body (.block (← block))
    else
      return .branch init cond body .empty

/-- Reads what follows the `if` at `loc`. -/
def branch (block : Parser (List Stmt)) (loc : Nat) : Parser Stmt :=
  bounded (branchTo block loc)

/-- Reads the three clauses of a loop, each of which **may be left out**. -/
def loopHead (loc : Nat) : Parser (Stmt × Option Expr × Stmt) := do
  if ← ahead "\x7b" then return (.empty, none, .empty)
  let first ← if ← ahead ";" then pure .empty else simple
  if ← accept ";" then
    let cond ← if ← ahead ";" then pure none else some <$> expression
    let _ ← expect ";"
    let post ← if ← ahead "\x7b" then pure .empty else simple
    return (first, cond, post)
  match first with
  | .expr cond => return (.empty, some cond, .empty)
  | _ => refuse (.conditionMissing "for") loc

/-- Reads what follows the `for` at `loc`. -/
def loop (block : Parser (List Stmt)) (loc : Nat) : Parser Stmt := do
  let (init, cond, post) ← loopHead loc
  return .loop init cond post (← block) loc

def statementTo : Nat → Parser Stmt
  | 0 => broken .stalled
  | depth + 1 => do
    let loc ← here
    if ← accept "return" then
      let value ← if ← atStatementEnd then pure none else some <$> expression
      endStatement
      return .ret value loc
    if ← ahead "\x7b" then return .block (← braced (statementTo depth))
    if ← accept "if" then return ← branch (braced (statementTo depth)) loc
    if ← accept "for" then return ← loop (braced (statementTo depth)) loc
    if ← ahead "var" then return ← declaration
    let statement ← if ← aheadKind .stdlib then printing else simple
    endStatement
    return statement

/-- Reads statements between braces. -/
def block : Parser (List Stmt) :=
  bounded fun depth => braced (statementTo depth)

end StackCompiler.Grammar
