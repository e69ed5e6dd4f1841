import StackCompiler.Text.Blanks
import StackCompiler.Text.Bytes

/-!
# Text/Location — where a byte offset stands

A `Location` is what a reader is told about an offset: the line and column, the text of that line,
and a marker under the place.  Lines end **before** a newline, columns count characters, and an
offset past the end stands at the end.
-/

namespace StackCompiler.Text

/-- The place of a byte offset in a text; `line` and `column` are counted from 1. -/
structure Location where
  offset : Nat
  line : Nat
  column : Nat
  /-- The line that holds the offset, without its newline. -/
  snippet : String
deriving DecidableEq, Repr

/-- The part of the text that follows its last newline. -/
def lastLine (cs : List Char) : List Char :=
  (cs.reverse.takeWhile (· != '\n')).reverse

/-- The part of the text that stands before its first newline. -/
def firstLine (cs : List Char) : List Char :=
  cs.takeWhile (· != '\n')

namespace Location

/-- The place between what stands `before` an offset and what comes `after` it. -/
def between (before after : List Char) : Location where
  offset := byteLength before
  line := before.count '\n' + 1
  column := (lastLine before).length + 1
  snippet := String.ofList (lastLine before ++ firstLine after)

/-- The place of an offset, clamped to the text; `none` **inside a character**. -/
def ofOffset? (source : List Char) (offset : Nat) : Option Location :=
  (splitAt? (min offset (byteLength source)) source).map fun (before, after) =>
    between before after

/-- A caret under the column. -/
def marker (l : Location) : String :=
  blanks (l.column - 1) ++ "^"

/-- The line with the caret under it. -/
def excerpt (l : Location) : String :=
  l.snippet ++ "\n" ++ l.marker

theorem ofOffset?_byteLength (before after : List Char) :
    ofOffset? (before ++ after) (byteLength before) = some (between before after) := by
  simp [ofOffset?, splitAt?_byteLength_append]

end Location

end StackCompiler.Text
