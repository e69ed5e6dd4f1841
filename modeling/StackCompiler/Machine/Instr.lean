import StackCompiler.Machine.Operand

/-!
# Machine/Instr — the instructions of a listing

The part of the x86-64 instruction set that listings use.  An instruction is data; `Instr.text`
writes it in the Intel way, the **destination first**.
-/

namespace StackCompiler

/-- What a comparison is asked for. -/
inductive Relation where
  | equal | notEqual | less | lessEqual
deriving DecidableEq, Repr, Inhabited

def Relation.text : Relation → String
  | equal => "e"
  | notEqual => "ne"
  | less => "l"
  | lessEqual => "le"

/-- What a jump depends on. -/
inductive Condition where
  /-- The values that were compared are equal. -/
  | equal
  | zero
  | notZero
  | notNegative
deriving DecidableEq, Repr, Inhabited

def Condition.text : Condition → String
  | equal => "je"
  | zero => "jz"
  | notZero => "jnz"
  | notNegative => "jns"

inductive Instr where
  | push (r : Reg)
  /-- Pushes the word at an address. -/
  | pushAt (a : Address)
  | pop (r : Reg)
  | move (dst src : Reg)
  | set (dst : Reg) (value : Int64)
  | load (dst : Reg) (a : Address)
  | store (a : Address) (src : Reg)
  /-- Loads a byte with its sign. -/
  | loadSigned (dst : Reg) (a : Address)
  /-- Loads a byte and clears the rest of the register. -/
  | loadByte (dst : Reg) (a : Address)
  /-- Stores the low byte of a register. -/
  | storeByte (a : Address) (src : Reg)
  | setByte (a : Address) (value : Nat)
  | address (dst : Reg) (a : Address)
  | add (dst src : Reg)
  | sub (dst src : Reg)
  | mul (dst src : Reg)
  /-- Multiplies a register by a constant. -/
  | scale (r : Reg) (factor : Int)
  | addConst (r : Reg) (value : Int)
  | subConst (r : Reg) (value : Int)
  /-- Adds to the low byte of a register. -/
  | addLow (r : Reg) (value : Nat)
  /-- Spreads the sign of `rax` over `rdx`. -/
  | spreadSign
  /-- Divides `rdx` and `rax` by a register, with signs. -/
  | divSigned (r : Reg)
  | divUnsigned (r : Reg)
  | negate (r : Reg)
  | increment (r : Reg)
  | decrement (r : Reg)
  | xor (dst src : Reg)
  | compare (a b : Reg)
  | compareConst (r : Reg) (value : Int)
  | test (a b : Reg)
  /-- Sets the low byte of a register to whether the comparison came out so. -/
  | setIf (relation : Relation) (r : Reg)
  /-- Clears a register but for its low byte. -/
  | widen (r : Reg)
  | jump (target : Label)
  | jumpIf (condition : Condition) (target : Label)
  | call (target : Label)
  | syscall
  | ret
deriving DecidableEq, Repr

namespace Instr

/-- An operation with its operands. -/
def written (operation : String) (operands : List String) : String :=
  operation ++ " " ++ String.intercalate ", " operands

/-- The instruction as it is written. -/
def text : Instr → String
  | push r => written "push" [r.text]
  | pushAt a => written "push" ["qword ptr " ++ a.text]
  | pop r => written "pop" [r.text]
  | move dst src => written "mov" [dst.text, src.text]
  | set dst value => written "mov" [dst.text, toString value.toInt]
  | load dst a => written "mov" [dst.text, a.text]
  | store a src => written "mov" [a.text, src.text]
  | loadSigned dst a => written "movsx" [dst.text, "byte ptr " ++ a.text]
  | loadByte dst a => written "movzx" [dst.text, "byte ptr " ++ a.text]
  | storeByte a src => written "mov" [a.text, src.lowText]
  | setByte a value => written "mov" ["byte ptr " ++ a.text, toString value]
  | address dst a => written "lea" [dst.text, a.text]
  | add dst src => written "add" [dst.text, src.text]
  | sub dst src => written "sub" [dst.text, src.text]
  | mul dst src => written "imul" [dst.text, src.text]
  | scale r factor => written "imul" [r.text, r.text, toString factor]
  | addConst r value => written "add" [r.text, toString value]
  | subConst r value => written "sub" [r.text, toString value]
  | addLow r value => written "add" [r.lowText, toString value]
  | spreadSign => "cqo"
  | divSigned r => written "idiv" [r.text]
  | divUnsigned r => written "div" [r.text]
  | negate r => written "neg" [r.text]
  | increment r => written "inc" [r.text]
  | decrement r => written "dec" [r.text]
  | xor dst src => written "xor" [dst.text, src.text]
  | compare a b => written "cmp" [a.text, b.text]
  | compareConst r value => written "cmp" [r.text, toString value]
  | test a b => written "test" [a.text, b.text]
  | setIf relation r => written ("set" ++ relation.text) [r.lowText]
  | widen r => written "movzx" [r.text, r.lowText]
  | jump target => written "jmp" [target.text]
  | jumpIf condition target => written condition.text [target.text]
  | call target => written "call" [target.text]
  | syscall => "syscall"
  | ret => "ret"

/-- The words by which the instruction makes the stack grow, unless it **replaces** the stack's
register as a whole. -/
def growth : Instr → Int
  | push _ | pushAt _ => 1
  | pop _ => -1
  | addConst .rsp bytes => -(bytes / 8)
  | subConst .rsp bytes => bytes / 8
  | _ => 0

end Instr

end StackCompiler
