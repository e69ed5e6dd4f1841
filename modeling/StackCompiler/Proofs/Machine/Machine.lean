import Mathlib.Logic.Function.Basic
import StackCompiler.Machine.Listing
import StackCompiler.Proofs.Machine.Memory
import StackCompiler.Word

/-!
# Proofs/Machine/Machine — what the instructions mean

A `Machine` has registers and a memory of bytes, the flags of the last comparison, and keeps what the
kernel was asked to write.  `Instr.exec` is the meaning of an instruction that goes on to the next
line: the one that a 64-bit processor gives it.  It has **no result** where a processor faults, and
where an instruction would depend on flags that the last one left undefined.
-/

namespace StackCompiler

/-! ## Flags -/

/-- What the last comparison or operation has told about its result. -/
structure Flags where
  zero : Bool
  sign : Bool
  overflow : Bool
deriving DecidableEq, Repr

namespace Flags

/-- The flags of a subtraction, which are those of a comparison. -/
def ofSub (a b : Int64) : Flags :=
  ⟨a - b == 0, decide (a - b < 0), !Word.fits (a.toInt - b.toInt)⟩

def ofAdd (a b : Int64) : Flags :=
  ⟨a + b == 0, decide (a + b < 0), !Word.fits (a.toInt + b.toInt)⟩

/-- The flags of an operation on bits. -/
def ofBits (v : Int64) : Flags :=
  ⟨v == 0, decide (v < 0), false⟩

/-- Whether the comparison came out so. -/
def tells (f : Flags) : Relation → Bool
  | .equal => f.zero
  | .notEqual => !f.zero
  | .less => f.sign != f.overflow
  | .lessEqual => f.zero || f.sign != f.overflow

/-- Whether a jump is taken. -/
def allows (f : Flags) : Condition → Bool
  | .equal | .zero => f.zero
  | .notZero => !f.zero
  | .notNegative => !f.sign

end Flags

/-- Whether the relation holds of signed numbers. -/
def Relation.holds : Relation → Int64 → Int64 → Bool
  | .equal, a, b => a == b
  | .notEqual, a, b => a != b
  | .less, a, b => decide (a < b)
  | .lessEqual, a, b => decide (a ≤ b)

theorem toInt_bounds (a : Int64) : Word.least ≤ a.toInt ∧ a.toInt ≤ Word.greatest :=
  ⟨a.le_toInt, a.toInt_le⟩

theorem sub_eq_zero_iff (a b : Int64) : a - b = 0 ↔ a = b :=
  ⟨fun h => by grind, fun h => by grind⟩

/-- The sign of a difference, turned **where it overflows**, tells which number is less. -/
theorem sign_ne_overflow (a b : Int64) :
    ((Flags.ofSub a b).sign != (Flags.ofSub a b).overflow) = decide (a < b) := by
  obtain ⟨ha₁, ha₂⟩ := toInt_bounds a
  obtain ⟨hb₁, hb₂⟩ := toInt_bounds b
  have hsub : (a - b).toInt = (a.toInt - b.toInt).bmod (2 ^ 64) := Int64.toInt_sub a b
  unfold Word.least Word.greatest at *
  have hsign : decide (a - b < 0) = decide ((a.toInt - b.toInt).bmod (2 ^ 64) < 0) := by
    rw [← hsub]
    exact decide_eq_decide.mpr Int64.lt_iff_toInt_lt
  have hless : decide (a < b) = decide (a.toInt < b.toInt) :=
    decide_eq_decide.mpr Int64.lt_iff_toInt_lt
  have hbmod : (a.toInt - b.toInt).bmod (2 ^ 64) < 0 ↔
      (a.toInt < b.toInt ∧ -9223372036854775808 ≤ a.toInt - b.toInt) ∨
        9223372036854775807 < a.toInt - b.toInt := by
    rw [Int.bmod_def]
    split <;> omega
  have hfits : Word.fits (a.toInt - b.toInt) = true ↔
      -9223372036854775808 ≤ a.toInt - b.toInt ∧ a.toInt - b.toInt ≤ 9223372036854775807 :=
    Word.fits_iff
  rw [Flags.ofSub, hsign, hless]
  cases hf : Word.fits (a.toInt - b.toInt) with
  | true =>
    have := hfits.mp hf
    rw [Bool.not_true, Bool.bne_false, decide_eq_decide, hbmod]
    omega
  | false =>
    have := mt hfits.mpr (by rw [hf]; exact Bool.false_ne_true)
    rw [Bool.not_false, Bool.bne_true, ← decide_not, decide_eq_decide, hbmod]
    omega

/-- **A comparison tells what holds of the numbers that it compared.** -/
theorem Flags.tells_ofSub (relation : Relation) (a b : Int64) :
    (Flags.ofSub a b).tells relation = relation.holds a b := by
  have hzero : (Flags.ofSub a b).zero = (a == b) := by
    rw [Bool.eq_iff_iff, beq_iff_eq]
    exact beq_iff_eq.trans (sub_eq_zero_iff a b)
  cases relation with
  | equal => exact hzero
  | notEqual => rw [tells, hzero]; rfl
  | less => exact sign_ne_overflow a b
  | lessEqual =>
    rw [tells, sign_ne_overflow, hzero, Relation.holds, Bool.eq_iff_iff]
    simp only [Bool.or_eq_true, beq_iff_eq, decide_eq_true_eq, ← Int64.toInt_inj,
      Int64.lt_iff_toInt_lt, Int64.le_iff_toInt_le]
    omega

/-! ## Low bytes -/

/-- The low byte of a word. -/
def lowByte (v : Int64) : UInt8 :=
  .ofNat v.toBitVec.toNat

/-- The word with another low byte. -/
def withLowByte (v : Int64) (b : UInt8) : Int64 :=
  .ofNat (v.toBitVec.toNat / 256 * 256 + b.toNat)

@[simp] theorem lowByte_withLowByte (v : Int64) (b : UInt8) : lowByte (withLowByte v b) = b := by
  have hv := v.toBitVec.isLt
  have hb := b.toNat_lt
  apply UInt8.toNat_inj.mp
  rw [lowByte, withLowByte, Int64.toBitVec_ofNat', BitVec.toNat_ofNat, UInt8.toNat_ofNat']
  omega

/-! ## Machines -/

structure Machine where
  regs : Reg → Int64
  memory : Memory
  /-- The flags, unless the last instruction left them undefined. -/
  flags : Option Flags
  /-- What the kernel was asked to write, and to which descriptor. -/
  written : List (Int64 × List UInt8)

/-- What is around a machine: where labels stand, and what the kernel leaves in `rcx`. -/
structure Environment where
  address : Label → Int64
  kernelRcx : Int64

namespace Machine

/-- The machine with a register changed. -/
def put (m : Machine) (r : Reg) (v : Int64) : Machine :=
  { m with regs := Function.update m.regs r v }

/-- The machine with flags as they are after that. -/
def flagged (m : Machine) (flags : Option Flags) : Machine :=
  { m with flags := flags }

/-- The machine with a word stored in its memory. -/
def setWord (m : Machine) (a v : Int64) : Machine :=
  { m with memory := m.memory.setWord a v }

/-- The machine with bytes stored in its memory. -/
def store (m : Machine) (a : Int64) (bytes : List UInt8) : Machine :=
  { m with memory := m.memory.store a bytes }

/-- Where an address of the listing is. -/
def locate (env : Environment) (m : Machine) : Address → Int64
  | .frame offset => m.regs .rbp - Int64.ofInt offset
  | .above base bytes => m.regs base + Int64.ofNat bytes
  | .data label => env.address label

/-- The machine with a word on its stack. -/
def pushWord (m : Machine) (v : Int64) : Machine :=
  (m.put .rsp (m.regs .rsp - 8)).setWord (m.regs .rsp - 8) v

/-- Divides the number of 128 bits in `rdx` and `rax`; **faults** if the quotient has no word. -/
def divideSigned (m : Machine) (divisor : Int64) : Option Machine :=
  let dividend := (m.regs .rdx).toInt * 2 ^ 64 + (m.regs .rax).toBitVec.toNat
  let quotient := dividend.tdiv divisor.toInt
  if divisor = 0 ∨ Word.fits quotient = false then none
  else some (((m.put .rax (.ofInt quotient)).put .rdx
    (.ofInt (dividend.tmod divisor.toInt))).flagged none)

/-- The same without signs. -/
def divideUnsigned (m : Machine) (divisor : Int64) : Option Machine :=
  let dividend := (m.regs .rdx).toBitVec.toNat * 2 ^ 64 + (m.regs .rax).toBitVec.toNat
  let quotient := dividend / divisor.toBitVec.toNat
  if divisor = 0 ∨ 2 ^ 64 ≤ quotient then none
  else some (((m.put .rax (.ofNat quotient)).put .rdx
    (.ofNat (dividend % divisor.toBitVec.toNat))).flagged none)

/-- Asks the kernel for its service, of which only **writing** is known here. -/
def askKernel (env : Environment) (m : Machine) : Option Machine :=
  if m.regs .rax = 1 then
    some { (m.put .rax (m.regs .rdx)).put .rcx env.kernelRcx with
      written := m.written ++
        [(m.regs .rdi, m.memory.load (m.regs .rsi) (m.regs .rdx).toBitVec.toNat)] }
  else none

end Machine

/-! ## Instructions -/

/-- The meaning of an instruction that goes on to the next line. -/
def Instr.exec (env : Environment) (m : Machine) : Instr → Option Machine
  | push r => some (m.pushWord (m.regs r))
  | pushAt a => some (m.pushWord (m.memory.word (m.locate env a)))
  | pop r => some ((m.put .rsp (m.regs .rsp + 8)).put r (m.memory.word (m.regs .rsp)))
  | move dst src => some (m.put dst (m.regs src))
  | set dst value => some (m.put dst value)
  | load dst a => some (m.put dst (m.memory.word (m.locate env a)))
  | store a src => some (m.setWord (m.locate env a) (m.regs src))
  | loadSigned dst a => some (m.put dst (m.memory (m.locate env a)).toInt8.toInt64)
  | loadByte dst a => some (m.put dst (.ofNat (m.memory (m.locate env a)).toNat))
  | storeByte a src => some (m.store (m.locate env a) [lowByte (m.regs src)])
  | setByte a value => some (m.store (m.locate env a) [.ofNat value])
  | address dst a => some (m.put dst (m.locate env a))
  | add dst src => some ((m.put dst (m.regs dst + m.regs src)).flagged
      (some (.ofAdd (m.regs dst) (m.regs src))))
  | sub dst src => some ((m.put dst (m.regs dst - m.regs src)).flagged
      (some (.ofSub (m.regs dst) (m.regs src))))
  | mul dst src => some ((m.put dst (m.regs dst * m.regs src)).flagged none)
  | scale r factor => some ((m.put r (m.regs r * .ofInt factor)).flagged none)
  | addConst r value => some ((m.put r (m.regs r + .ofInt value)).flagged
      (some (.ofAdd (m.regs r) (.ofInt value))))
  | subConst r value => some ((m.put r (m.regs r - .ofInt value)).flagged
      (some (.ofSub (m.regs r) (.ofInt value))))
  | addLow r value =>
    some ((m.put r (withLowByte (m.regs r) (lowByte (m.regs r) + .ofNat value))).flagged none)
  | spreadSign => some (m.put .rdx (if m.regs .rax < 0 then -1 else 0))
  | divSigned r => m.divideSigned (m.regs r)
  | divUnsigned r => m.divideUnsigned (m.regs r)
  | negate r => some ((m.put r (0 - m.regs r)).flagged (some (.ofSub 0 (m.regs r))))
  | increment r => some ((m.put r (m.regs r + 1)).flagged (some (.ofAdd (m.regs r) 1)))
  | decrement r => some ((m.put r (m.regs r - 1)).flagged (some (.ofSub (m.regs r) 1)))
  | xor dst src => some ((m.put dst (m.regs dst ^^^ m.regs src)).flagged
      (some (.ofBits (m.regs dst ^^^ m.regs src))))
  | compare a b => some (m.flagged (some (.ofSub (m.regs a) (m.regs b))))
  | compareConst r value => some (m.flagged (some (.ofSub (m.regs r) (.ofInt value))))
  | test a b => some (m.flagged (some (.ofBits (m.regs a &&& m.regs b))))
  | setIf relation r => m.flags.map fun flags =>
      m.put r (withLowByte (m.regs r) (if flags.tells relation then 1 else 0))
  | widen r => some (m.put r (.ofNat (lowByte (m.regs r)).toNat))
  | syscall => m.askKernel env
  | jump _ | jumpIf _ _ | call _ | ret => none

end StackCompiler
