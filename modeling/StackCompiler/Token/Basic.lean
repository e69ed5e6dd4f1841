/-!
# Token/Basic — the words of a source

A token is a piece of the source with its kind, the text it was read from, the value of a literal,
and its place in bytes.  Keywords and operators are both **punctuators**; a statement that ends
with its line is closed by a punctuator `;` of length zero.
-/

namespace StackCompiler

inductive Token.Kind where
  | punctuator | ident | typeName | num | str | stdlib | eof
deriving DecidableEq, Repr, Inhabited

structure Token where
  kind : Token.Kind
  text : String
  /-- The value of a number or character literal. -/
  value : Option Int64
  /-- The byte offset at which the token starts. -/
  loc : Nat
  /-- The bytes of the source that it takes. -/
  len : Nat
deriving DecidableEq, Repr

namespace Token

/-- The punctuator that ends a statement at the end of its line. -/
def lineEnd (loc : Nat) : Token := ⟨.punctuator, ";", none, loc, 0⟩

/-- The end of the source. -/
def sourceEnd (loc : Nat) : Token := ⟨.eof, "", none, loc, 0⟩

/-- Whether the token is the punctuator of that text. -/
def is (t : Token) (text : String) : Bool :=
  t.kind == .punctuator && t.text == text

/-- Whether a newline after the token ends a statement: not after a brace, nor after `;`. -/
def closesLine (t : Token) : Bool :=
  !(t.is "\x7b" || t.is "\x7d" || t.is ";")

/-- What a diagnostic calls the next token, if there is one. -/
def describe : Option Token → String
  | none => "EOF"
  | some t =>
    if t.kind = .eof then "EOF"
    else if t.text = ";" ∧ t.len = 0 then "newline"
    else t.text

/-- The text of a string literal without its quotation marks, or the whole text if they are not
both there. -/
def body (t : Token) : String :=
  match t.text.toList with
  | '"' :: rest => if rest.getLast? = some '"' then String.ofList rest.dropLast else t.text
  | _ => t.text

/-- Whether the number was written as a character. -/
def isCharLiteral (t : Token) : Bool :=
  t.kind == .num && t.text.toList.head? == some '\''

theorem is_iff {t : Token} {text : String} :
    t.is text = true ↔ t.kind = .punctuator ∧ t.text = text := by
  simp [is]

end Token

end StackCompiler
