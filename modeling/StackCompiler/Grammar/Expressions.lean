import StackCompiler.Grammar.Names
import StackCompiler.Grammar.Repetition

/-!
# Grammar/Expressions — reading an expression

    expression  =  operands of a level, joined by the level's operators from left to right
    operand     =  ("+" | "-" | "&" | "*") operand  |  primary { "[" expression "]" }
    primary     =  "(" expression ")"  |  literal  |  name  |  name "(" arguments ")"

The levels are equality, relation, addition and multiplication, **the loosest first**.
-/

namespace StackCompiler.Grammar

/-! ## Operators with two operands -/

/-- An operator as it is written, and the operator that stands for it in the tree. -/
structure LevelOperator where
  text : String
  op : BinaryOp
  /-- Whether the operands change places. -/
  exchanged : Bool
deriving DecidableEq, Repr

def LevelOperator.join (o : LevelOperator) (lhs rhs : Expr) (loc : Nat) : Expr :=
  if o.exchanged then .binary o.op rhs lhs .unknown loc else .binary o.op lhs rhs .unknown loc

/-- Operators that bind equally tight. -/
abbrev Level := List LevelOperator

/-- The levels of the language, the loosest first. -/
def levels : List Level :=
  [[⟨"==", .eq, false⟩, ⟨"!=", .ne, false⟩],
   [⟨"<", .lt, false⟩, ⟨"<=", .le, false⟩, ⟨">", .lt, true⟩, ⟨">=", .le, true⟩],
   [⟨"+", .add, false⟩, ⟨"-", .sub, false⟩],
   [⟨"*", .mul, false⟩, ⟨"/", .div, false⟩]]

/-- Takes an operator of the level, if one comes next. -/
def acceptOperator (level : Level) : Parser (Option LevelOperator) := do
  match (← peek).bind fun token => level.find? fun o => token.is o.text with
  | none => return none
  | some o =>
    advance
    return some o

/-- Operands joined by the operators of a level, **from left to right**. -/
def leftAssociated (level : Level) (operand : Parser Expr) : Parser Expr := do
  iterate (fun lhs => do
    let loc ← here
    match ← acceptOperator level with
    | none => return .done lhs
    | some o => return .again (o.join lhs (← operand) loc)) (← operand)

/-- An expression over the given operands. -/
def expressionOver (operand : Parser Expr) : Parser Expr :=
  levels.foldr leftAssociated operand

/-! ## Operands -/

/-- An element of `base`, which must be declared; a literal position has to lie **inside a declared
array**. -/
def indexed (base position : Expr) (loc : Nat) : Parser Expr := do
  if let .var id _ baseLoc := base then
    let v ← variableOf id
    if v.isPlaceholder then refuse (.undefined v.name) baseLoc
    if let (.array _ len, .num value _ at_) := (v.ty, position) then
      if value.toInt < 0 || len ≤ value.toInt then
        refuse (.indexOutOfBounds value v.name len) at_
  return .index base position .unknown loc

/-- A name, or a call of the function of that name. -/
def nameOrCall (expression : Parser Expr) : Parser Expr := do
  let (name, loc) ← identifier
  if ← accept "(" then
    return .call name (← listUntil ")" expression) .unknown loc
  else
    readName name loc

/-- A literal, a name, a call, or an expression in parentheses. -/
def primary (expression : Parser Expr) : Parser Expr := do
  if ← accept "(" then
    let inner ← expression
    let _ ← expect ")"
    return inner
  match ← peek with
  | none => refuse .endOfInput (← here)
  | some token =>
    match token.kind with
    | .num =>
      let (value, loc) ← number
      return .num value (if token.isCharLiteral then .int8 else .unknown) loc
    | .str =>
      advance
      return .str (← intern token.body) .unknown token.loc
    | .ident => nameOrCall expression
    | _ => unexpected .expression

/-- A primary with the positions that follow it in brackets. -/
def postfixed (expression : Parser Expr) : Parser Expr := do
  iterate (fun base => do
    let loc ← here
    if ← accept "[" then
      let position ← expression
      let _ ← expect "]"
      return .again (← indexed base position loc)
    else
      return .done base) (← primary expression)

def operandTo : Nat → Parser Expr
  | 0 => broken .stalled
  | depth + 1 => do
    let loc ← here
    if ← accept "+" then
      operandTo depth
    else if ← accept "-" then
      return .binary .sub (.num 0 .unknown loc) (← operandTo depth) .unknown loc
    else if ← accept "&" then
      let operand ← operandTo depth
      if operand.isLvalue then return .addr operand .unknown loc
      else refuse .notAddressable operand.loc
    else if ← accept "*" then
      return .deref (← operandTo depth) .unknown loc
    else
      postfixed (expressionOver (operandTo depth))

/-- Reads an expression. -/
def expression : Parser Expr :=
  bounded fun depth => expressionOver (operandTo depth)

end StackCompiler.Grammar
