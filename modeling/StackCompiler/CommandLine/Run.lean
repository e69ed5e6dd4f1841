import StackCompiler.CommandLine.Files
import StackCompiler.CommandLine.Options
import StackCompiler.Compilation
import StackCompiler.Outline.Tokens
import StackCompiler.Outline.Tree

/-!
# CommandLine/Run — one run of the program

A run reads its source, compiles it and writes the assembly to a file or to the standard output.
Problems go to the standard error output; **the exit status tells their kind**.
-/

namespace StackCompiler.CommandLine

/-- What a run leaves: its exit status and what it printed. -/
structure Outcome where
  status : Nat
  output : String
  errors : String
deriving DecidableEq, Repr

/-! ## Texts -/

def versionText : String := "rgoc 0.1.0\n"

def usageLine : String := "Usage: rgoc [OPTIONS] <--in <SOURCE>|--build <FILE>>\n"

def helpText : String :=
  "Compile a small Go-flavoured package into x86-64 assembly\n\n" ++
  usageLine ++
  "\nOptions:\n" ++
  "      --in <SOURCE>    Compile this source text directly\n" ++
  "      --build <FILE>   Compile the source file at this path\n" ++
  "  -o, --output <FILE>  Write the assembly here instead of stdout\n" ++
  "      --dev            Dump tokens and the typed tree to stderr\n" ++
  "  -h, --help           Print help\n" ++
  "  -V, --version        Print version\n"

/-- The tokens and the tree, for those who work on the compiler. -/
def devText (c : Compilation) : String :=
  outlineTokens c.tokens ++ "\n" ++ c.program.outline

/-! ## Outcomes -/

namespace Outcome

def misused : Outcome := ⟨2, "", usageLine⟩

/-- A run that ends with a problem, after printing something for the developer. -/
def failed (dev message : String) : Outcome := ⟨1, "", dev ++ message ++ "\n"⟩

/-- A run that a fault breaks off. -/
def crashed (fault : Fault) : Outcome := ⟨101, "", fault.message?.getD "" ++ "\n"⟩

def ofFailure (source : List Char) (failure : Failure) : Outcome :=
  match failure.report source with
  | .ok report => failed "" report.render
  | .error fault => crashed fault

def ofStop : Stop → Outcome
  | .help => ⟨0, helpText, ""⟩
  | .version => ⟨0, versionText, ""⟩
  | .misuse => misused

end Outcome

/-! ## Runs -/

variable {m : Type → Type} [Monad m]

/-- The text of a source. -/
def sourceOf (files : Files m) : Origin → m (Except String String)
  | .text source => return .ok source
  | .file path => do
    match ← files.read path with
    | .ok source => return .ok source
    | .error e => return .error ("cannot read " ++ path ++ ": " ++ e.message)

/-- Hands the assembly over. -/
def deliver (files : Files m) (order : Order) (c : Compilation) : m Outcome := do
  let dev := if order.dev then devText c else ""
  match order.output with
  | none => return ⟨0, c.assembly.text, dev⟩
  | some path =>
    match ← files.write path c.assembly.text with
    | .ok () => return ⟨0, "", dev⟩
    | .error e => return .failed dev ("cannot write " ++ path ++ ": " ++ e.message)

/-- Does what an order says. -/
def obey (files : Files m) (order : Order) : m Outcome := do
  match ← sourceOf files order.origin with
  | .error message => return .failed "" message
  | .ok source =>
    match compile source.toList with
    | .ok c => deliver files order c
    | .error failure => return .ofFailure source.toList failure

/-- A run with these arguments. -/
def run (files : Files m) (args : List String) : m Outcome :=
  match Order.ofArguments args with
  | .ok order => obey files order
  | .error stop => return .ofStop stop

/-- A run on the files of a directory, with the directory after it.  What went to a standard stream
by way of a device **counts as printed**. -/
def runIn (d : Directory) (args : List String) : Outcome × Directory :=
  let (outcome, after) := run Directory.access args d
  (⟨outcome.status, outcome.output ++ after.output, outcome.errors ++ after.errors⟩, after)

end StackCompiler.CommandLine
