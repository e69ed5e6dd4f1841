import StackCompiler.Syntax.Program

/-!
# Machine/Label — the names of places in a listing

A label names a place that a listing jumps to, calls, or reads data from.  Those that only the
listing itself uses start with `.L`; control flow is labelled by **numbers**, of which each
statement takes its own.
-/

namespace StackCompiler

/-- The routines that print. -/
inductive Routine where
  | printInt | printString | printSpace | printNewline
deriving DecidableEq, Repr, Inhabited

def Routine.text : Routine → String
  | printInt => "__rgoc.printint"
  | printString => "__rgoc.printstring"
  | printSpace => "__rgoc.printsp"
  | printNewline => "__rgoc.printnl"

inductive Label where
  | symbol (s : Symbol)
  | routine (r : Routine)
  /-- The end of a function, where all its returns meet. -/
  | returnOf (s : Symbol)
  | elseOf (n : Nat)
  | beginOf (n : Nat)
  | endOf (n : Nat)
  /-- The bytes of a string. -/
  | string (index : Nat)
  /-- The address and the length of a string, side by side. -/
  | descriptor (index : Nat)
  | newline
  | space
  | digits
  | write
deriving DecidableEq, Repr

/-- The label as it is written. -/
def Label.text : Label → String
  | symbol s => s.text
  | routine r => r.text
  | returnOf s => ".L.return." ++ s.text
  | elseOf n => ".L.else." ++ toString n
  | beginOf n => ".L.begin." ++ toString n
  | endOf n => ".L.end." ++ toString n
  | string i => ".L.str." ++ toString i
  | descriptor i => ".L.str." ++ toString i ++ ".desc"
  | newline => ".L.rgoc.nl"
  | space => ".L.rgoc.sp"
  | digits => ".L.rgoc.printint.digits"
  | write => ".L.rgoc.printint.write"

end StackCompiler
