import StackCompiler.Text.Blanks
import StackCompiler.Text.Quoted
import StackCompiler.Token.Basic

/-!
# Outline/Tokens — a token list in print

One line a token: its kind in a column, its text between quotation marks, a note where the token
**ends a line**, and its value if it has one.
-/

namespace StackCompiler

namespace Token

def Kind.name : Kind → String
  | punctuator => "Punctuator"
  | ident => "Ident"
  | typeName => "TypeName"
  | num => "Num"
  | str => "Str"
  | stdlib => "Stdlib"
  | eof => "Eof"

/-- The token in print. -/
def outline (t : Token) : String :=
  Text.padded 10 t.kind.name ++ " " ++ Text.quote t.text ++
    (if t.kind = .punctuator ∧ t.len = 0 then " (newline)" else "") ++
    (t.value.elim "" fun value => " = " ++ toString value.toInt)

end Token

/-- The tokens in print, one on a line. -/
def outlineTokens (tokens : List Token) : String :=
  String.intercalate "\n" (tokens.map Token.outline)

end StackCompiler
