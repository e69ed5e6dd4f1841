/-!
# Syntax/Operator — operators with two operands

The operators that a tree holds.  **There is no "greater"**: such a comparison is read with its
operands exchanged.
-/

namespace StackCompiler

inductive BinaryOp where
  | add | sub | mul | div | eq | ne | lt | le
deriving DecidableEq, Repr, Inhabited

namespace BinaryOp

def isComparison : BinaryOp → Bool
  | eq | ne | lt | le => true
  | add | sub | mul | div => false

def symbol : BinaryOp → String
  | add => "+"
  | sub => "-"
  | mul => "*"
  | div => "/"
  | eq => "=="
  | ne => "!="
  | lt => "<"
  | le => "<="

end BinaryOp

end StackCompiler
