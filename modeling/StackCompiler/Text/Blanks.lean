/-!
# Text/Blanks — runs of blanks

Blanks under a line, before one, or after a word that does not fill its column.
-/

namespace StackCompiler.Text

/-- So many blanks. -/
def blanks (count : Nat) : String :=
  String.ofList (List.replicate count ' ')

/-- The text filled up with blanks on its right, **never cut**. -/
def padded (width : Nat) (s : String) : String :=
  s ++ blanks (width - s.length)

end StackCompiler.Text
