import StackCompiler.Syntax.Program
import StackCompiler.Token.Basic
import StackCompiler.Diagnostic.Failure

/-!
# Grammar/Reading — taking tokens one by one

A `Parser` takes tokens from the front of a list and collects variables and strings on its way; it
stops at the first problem.  Nothing goes back: a token once taken **stays taken**.
-/

namespace StackCompiler.Grammar

/-- What a parser works on: the tokens that are left, and the tables it fills. -/
structure Reading where
  source : List Char
  /-- The token that was taken last. -/
  previous : Option Token
  rest : List Token
  vars : List Variable
  globals : List VarId
  /-- The locals of the function that is being read, if one is. -/
  scope : Option (List VarId)
  strings : List String

/-- The start of a token list. -/
def Reading.start (source : List Char) (tokens : List Token) : Reading where
  source := source
  previous := none
  rest := tokens
  vars := []
  globals := []
  scope := none
  strings := []

abbrev Parser := StateT Reading (Except Failure)

/-! ## Giving up -/

def broken {α : Type} (fault : Fault) : Parser α :=
  throw (.broken fault)

def refuse {α : Type} (cause : Cause) (loc : Nat) : Parser α :=
  throw (.refused ⟨cause, loc⟩)

/-! ## The next token -/

/-- The next token; the list **may lack** a token for the end of the source. -/
def peek : Parser (Option Token) :=
  return (← get).rest.head?

/-- Where the next token stands, or where the source ends. -/
def here : Parser Nat := do
  let reading ← get
  return match reading.rest with
    | [] => Text.byteLength reading.source
    | token :: _ => token.loc

/-- Whether the next token is the punctuator of that text. -/
def ahead (text : String) : Parser Bool :=
  return (← peek).any (·.is text)

/-- Whether the next token has that kind. -/
def aheadKind (kind : Token.Kind) : Parser Bool :=
  return (← peek).any (·.kind == kind)

/-- Whether no token is left but the end of the source. -/
def atEnd : Parser Bool :=
  return (← peek).all (·.kind == .eof)

/-- Takes the next token, if there is one. -/
def advance : Parser Unit :=
  modify fun reading =>
    match reading.rest with
    | [] => reading
    | token :: rest => { reading with previous := some token, rest := rest }

/-- Takes the next token if it is the punctuator of that text. -/
def accept (text : String) : Parser Bool := do
  if ← ahead text then
    advance
    return true
  else
    return false

/-- Refuses the next token. -/
def unexpected {α : Type} (expected : Expected) : Parser α := do
  refuse (.unexpected expected (Token.describe (← peek))) (← here)

/-- Takes the punctuator of that text, and tells where it stood. -/
def expect (text : String) : Parser Nat := do
  let loc ← here
  if ← accept text then return loc else unexpected (.token text)

/-- Takes an identifier, with its place. -/
def identifier : Parser (String × Nat) := do
  match ← peek with
  | some ⟨.ident, text, _, loc, _⟩ =>
    advance
    return (text, loc)
  | _ => unexpected .identifier

/-- Takes a number, with its place. -/
def number : Parser (Int64 × Nat) := do
  match ← peek with
  | some ⟨.num, _, some value, loc, _⟩ =>
    advance
    return (value, loc)
  | some ⟨.num, _, none, loc, _⟩ => refuse .numberWithoutValue loc
  | _ => unexpected .number

/-- Places in a source are numbers below this one. -/
def placeLimit : Nat := 18446744073709551616

/-- Whether a line break stands between the next token and the one before it. -/
def atLineStart : Parser Bool := do
  let reading ← get
  match reading.previous with
  | none => return false
  | some token =>
    let start := token.loc + token.len
    let stop ← here
    if placeLimit ≤ start then broken .noSuchPlace
    else if stop < start then return false
    else
      match Text.slice? start stop reading.source with
      | none => broken .noSuchPlace
      | some gap => return gap.contains '\n'

end StackCompiler.Grammar
