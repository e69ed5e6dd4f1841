import StackCompiler.Diagnostic.Report

/-!
# Diagnostic/Failure — why a stage ends without a result

Every stage stops at the first problem.  Either the source is refused, for a cause, or a step has no
result at all: such a `Fault` **leaves nothing to report**.
-/

namespace StackCompiler

/-- A step that has no result. -/
inductive Fault where
  /-- A place in the source that is inside a character or past its end. -/
  | noSuchPlace
  /-- A variable that the arena does not hold. -/
  | noSuchVariable
  /-- A string that the program does not hold. -/
  | noSuchString
  /-- An address was asked of what has none. -/
  | noAddress
  /-- A call or function with more argument words than there are registers. -/
  | noRegister
  /-- A function whose pushed and popped words differ. -/
  | unbalanced (symbol : String) (height : Int)
  /-- A repetition that made no progress. -/
  | stalled
deriving DecidableEq, Repr

/-- The wording of the faults that have one of their own. -/
def Fault.message? : Fault → Option String
  | noAddress => some "not an lvalue"
  | unbalanced symbol height =>
    some ("assertion `left == right` failed: unbalanced stack in " ++ symbol ++ "\n  left: " ++
      toString height ++ "\n right: 0")
  | _ => none

/-- Why a stage ends without a result. -/
inductive Failure where
  | refused (diagnostic : Diagnostic)
  | broken (fault : Fault)
deriving DecidableEq, Repr

/-- What is told of a failure: a report, or the fault that leaves **nothing to report**. -/
def Failure.report (source : List Char) : Failure → Except Fault Report
  | refused d => (d.report? source).elim (.error .noSuchPlace) .ok
  | broken fault => .error fault

end StackCompiler
