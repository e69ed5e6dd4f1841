import StackCompiler.Diagnostic.Cause
import StackCompiler.Text.Location

/-!
# Diagnostic/Report — what a reader is told

A diagnostic is a cause at a byte offset; a report adds the **place in the source**, and is what is
printed: the place, the wording, and the line with a caret.
-/

namespace StackCompiler

/-- A cause at a byte offset of the source. -/
structure Diagnostic where
  cause : Cause
  offset : Nat
deriving DecidableEq, Repr

/-- A problem as a reader is told of it. -/
structure Report where
  category : Category
  message : String
  place : Text.Location
deriving DecidableEq, Repr

namespace Report

/-- A report at an offset of the source; `none` if the offset is **inside a character**. -/
def at? (source : List Char) (category : Category) (offset : Nat) (message : String) :
    Option Report :=
  (Text.Location.ofOffset? source offset).map fun place => ⟨category, message, place⟩

/-- The report as it is printed: its place and wording, then the line with a caret. -/
def render (r : Report) : String :=
  toString r.place.line ++ ":" ++ toString r.place.column ++ ": " ++ r.category.text ++
    " error: " ++ r.message ++ "\n" ++ r.place.excerpt

end Report

def Diagnostic.report? (d : Diagnostic) (source : List Char) : Option Report :=
  Report.at? source d.cause.category d.offset d.cause.message

end StackCompiler
