import StackCompiler.Diagnostic.Report
import StackCompiler.Token.Basic

/-!
# Token/Lexeme — what stands at the start of a text

The first lexeme of a text is fixed by its **first character**: a letter begins a word, which is
the whole run of word characters, a digit begins a number, a quotation mark a string, and so on.
`Lexeme.first` reads it, or says why none can start there.
-/

namespace StackCompiler

/-! ## Characters -/

namespace Lexeme

/-- The characters that only separate; a newline is more than that. -/
def isBlank (c : Char) : Bool :=
  c == ' ' || c == '\t' || c == '\r'

def isWordStart (c : Char) : Bool :=
  c.isAlpha || c == '_'

def isWordChar (c : Char) : Bool :=
  c.isAlphanum || c == '_'

/-- The characters that a character literal can hold: ASCII without its controls. -/
def isLiteralChar (c : Char) : Bool :=
  0x20 ≤ c.toNat && c.toNat ≤ 0x7e

/-! ## Words and operators -/

def stdlibNames : List String := ["println", "print"]

def typeNames : List String := ["int64", "int32", "int8", "int", "byte", "bool", "string"]

def keywords : List String := ["package", "func", "var", "return", "if", "else", "for"]

/-- The kind of a whole word. -/
def wordKind (word : String) : Token.Kind :=
  if word ∈ stdlibNames then .stdlib
  else if word ∈ typeNames then .typeName
  else if word ∈ keywords then .punctuator
  else .ident

/-- Operators of two characters; **they win** over those of one. -/
def isOperatorPair (c d : Char) : Bool :=
  d == '=' && (c == '=' || c == '!' || c == '<' || c == '>' || c == ':')

def isPunctuation (c : Char) : Bool :=
  ['+', '-', '*', '/', '(', ')', '<', '>', ';', '=', '\x7b', '\x7d', '[', ']', ',', '&'].contains c

end Lexeme

/-! ## Lexemes -/

/-- The pieces that a source is read in. -/
inductive Lexeme where
  | blank
  | newline
  | comment (text : List Char)
  | token (kind : Token.Kind) (text : List Char) (value : Option Int64)
deriving DecidableEq, Repr

namespace Lexeme

/-- The value of a run of decimal digits, **modulo 2 ^ 64**. -/
def decimalValue (digits : List Char) : Int64 :=
  digits.foldl (fun value digit => value * 10 + Int64.ofNat (digit.toNat - '0'.toNat)) 0

/-- The word that starts with `c`. -/
def word (c : Char) (cs : List Char) : Lexeme :=
  let text := c :: cs.takeWhile isWordChar
  .token (wordKind (String.ofList text)) text none

/-- The number that starts with the digit `c`. -/
def number (c : Char) (cs : List Char) : Lexeme :=
  let text := c :: cs.takeWhile Char.isDigit
  .token .num text (some (decimalValue text))

/-- The string whose opening quotation mark stands before `cs`; it may **span lines**. -/
def string (cs : List Char) : Except Cause Lexeme :=
  if '"' ∈ cs then .ok (.token .str ('"' :: cs.takeWhile (· != '"') ++ ['"']) none)
  else .error .unterminatedString

/-- The character literal whose opening quote stands before `cs`. -/
def character : List Char → Except Cause Lexeme
  | c :: '\'' :: _ =>
    if isLiteralChar c then
      .ok (.token .num ['\'', c, '\''] (some (Int64.ofNat c.toNat)))
    else .error .malformedCharacter
  | _ => .error .malformedCharacter

/-- The operator or bracket that starts with `c`. -/
def operator (c : Char) (cs : List Char) : Except Cause Lexeme :=
  if isOperatorPair c (cs.headD ' ') then .ok (.token .punctuator [c, '='] none)
  else if isPunctuation c then .ok (.token .punctuator [c] none)
  else .error (.invalidCharacter c)

/-- The first lexeme of the text `c :: cs`. -/
def first (c : Char) (cs : List Char) : Except Cause Lexeme :=
  if isBlank c then .ok .blank
  else if c = '\n' then .ok .newline
  else if c = '/' ∧ cs.head? = some '/' then .ok (.comment (c :: Text.firstLine cs))
  else if isWordStart c then .ok (word c cs)
  else if c.isDigit then .ok (number c cs)
  else if c = '"' then string cs
  else if c = '\'' then character cs
  else operator c cs

example : (first '<' ['=', '1']).toOption = some (.token .punctuator ['<', '='] none) := by
  decide +kernel

example : (first 'i' ['n', 't', '8', ' ']).toOption =
    some (.token .typeName ['i', 'n', 't', '8'] none) := by
  decide +kernel

end Lexeme

end StackCompiler
