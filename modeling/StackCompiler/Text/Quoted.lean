import StackCompiler.Text.Extending
import StackCompiler.Text.Graphic

/-!
# Text/Quoted — text between quotation marks

Quoted text is safe to print on one line: the quotation mark, the backslash and the usual controls
are written with a backslash, and every other character that shows **no mark of its own** is
written by its number in hexadecimal.
-/

namespace StackCompiler.Text

/-- The digits of a number in base 16, in lower case and without leading zeros. -/
def hexDigits (n : Nat) : List Char :=
  Nat.toDigits 16 n

/-- A character by its number. -/
def numbered (c : Char) : List Char :=
  ['\\', 'u', '\x7b'] ++ hexDigits c.toNat ++ ['\x7d']

/-- The character as it stands between quotation marks. -/
def quoteChar (c : Char) : List Char :=
  if c = '\x00' then ['\\', '0']
  else if c = '\t' then ['\\', 't']
  else if c = '\r' then ['\\', 'r']
  else if c = '\n' then ['\\', 'n']
  else if c = '\\' then ['\\', '\\']
  else if c = '"' then ['\\', '"']
  else if isExtending c || !isGraphic c then numbered c
  else [c]

/-- The text between quotation marks. -/
def quote (s : String) : String :=
  String.ofList ('"' :: s.toList.flatMap quoteChar ++ ['"'])

example : quote "a\"b" = "\"a\\\"b\"" := by decide +kernel

end StackCompiler.Text
