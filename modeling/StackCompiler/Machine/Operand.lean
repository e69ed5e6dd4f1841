import StackCompiler.Machine.Label

/-!
# Machine/Operand — registers and addresses

What instructions work on: registers, of which the **low byte** has a name of its own, and places in
memory.
-/

namespace StackCompiler

inductive Reg where
  | rax | rcx | rdx | rsi | rdi | rsp | rbp | r8 | r9
deriving DecidableEq, Repr, Inhabited

namespace Reg

def text : Reg → String
  | rax => "rax"
  | rcx => "rcx"
  | rdx => "rdx"
  | rsi => "rsi"
  | rdi => "rdi"
  | rsp => "rsp"
  | rbp => "rbp"
  | r8 => "r8"
  | r9 => "r9"

/-- The name of the register's low byte. -/
def lowText : Reg → String
  | rax => "al"
  | rcx => "cl"
  | rdx => "dl"
  | rsi => "sil"
  | rdi => "dil"
  | rsp => "spl"
  | rbp => "bpl"
  | r8 => "r8b"
  | r9 => "r9b"

end Reg

/-- Places in memory. -/
inductive Address where
  /-- So many bytes below the frame's base. -/
  | frame (offset : Int)
  /-- So many bytes above the address in a register. -/
  | above (base : Reg) (bytes : Nat)
  | data (label : Label)
deriving DecidableEq, Repr

def Address.text : Address → String
  | frame offset => "[rbp - " ++ toString offset ++ "]"
  | above base 0 => "[" ++ base.text ++ "]"
  | above base bytes => "[" ++ base.text ++ " + " ++ toString bytes ++ "]"
  | data label => "[rip + " ++ label.text ++ "]"

end StackCompiler
