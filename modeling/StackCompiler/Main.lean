import StackCompiler.CommandLine.Run

/-!
# Main — the program

Runs the command line on the files of the system.
-/

namespace StackCompiler.CommandLine

/-- The number of an error of the system; some come with their sign turned. -/
def systemCode (code : UInt32) : Nat :=
  if code.toNat < 2147483648 then code.toNat else 4294967296 - code.toNat

/-- What is told of an error of the system. -/
def FileError.ofSystem (e : IO.Error) : FileError :=
  match e with
  | .noFileOrDirectory .. => .missing
  | .inappropriateType _ code text =>
    if systemCode code = 20 then .notDirectory
    else if systemCode code = 21 then .isDirectory
    else .system (systemCode code) text
  | .permissionDenied _ code _ => .system (systemCode code) "Permission denied"
  | .resourceExhausted _ code text | .invalidArgument _ code text | .otherError code text =>
    if systemCode code = 36 then .nameTooLong else .system (systemCode code) text
  | e => .system 0 (toString e)

/-- An action, with its error as a value. -/
def attempt {α : Type} (action : IO α) : IO (Except FileError α) := do
  match ← action.toBaseIO with
  | .ok a => return .ok a
  | .error e => return .error (.ofSystem e)

/-- The files of the system. -/
def systemFiles : Files IO where
  read path := do
    match ← attempt (IO.FS.readBinFile path) with
    | .error e => return .error e
    | .ok bytes => return (String.fromUTF8? bytes).elim (.error .notText) .ok
  write path text := attempt (IO.FS.writeFile path text)

end StackCompiler.CommandLine

/-- Runs the compiler. -/
def main (args : List String) : IO UInt32 := do
  let outcome ← StackCompiler.CommandLine.run StackCompiler.CommandLine.systemFiles args
  IO.print outcome.output
  IO.eprint outcome.errors
  return outcome.status.toUInt32
