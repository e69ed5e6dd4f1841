import StackCompiler.Grammar.Package
import StackCompiler.Lowering.Package
import StackCompiler.Token.Scan
import StackCompiler.Typing.Package

/-!
# Compilation — from a source to its assembly

A source is cut into tokens, read as a program, given types and frames, and lowered; the **first
failure** of these ends it.
-/

namespace StackCompiler

/-- What a source has been turned into on its way. -/
structure Compilation where
  tokens : List Token
  program : Program
  assembly : Assembly

/-- The tokens of a source, or the failure that ends a run. -/
def tokensOf (source : List Char) : Except Failure (List Token) :=
  (tokenize source).mapError .refused

/-- The assembly of a typed program, or the failure that ends a run. -/
def assemblyOf (p : Program) : Except Failure Assembly :=
  p.assemble.mapError .broken

/-- Takes a source through all the stages. -/
def compile (source : List Char) : Except Failure Compilation := do
  let tokens ← tokensOf source
  let read ← Program.ofTokens source tokens
  let program ← read.resolve
  return ⟨tokens, program, ← assemblyOf program⟩

end StackCompiler
