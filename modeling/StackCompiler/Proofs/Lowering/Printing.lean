import StackCompiler.Lowering.Package
import StackCompiler.Machine.Routines
import StackCompiler.Proofs.Machine.Stack

/-!
# Proofs/Lowering/Printing — the routine that prints a number

The routine lays the digits of a number down **backwards** from the base of its frame.  `Printing`
is what holds between its rounds: which bytes are laid, where `rsi` points, and that nothing outside
the frame has been touched.  One round (`runs_digitRound`) takes one digit off and lays it in front
of the others, so the rounds lay the number as it is written (`runs_digits`).

The whole run is `printInt_writes_decimal`: for every number, the least one as well, the kernel is
asked once, for the number in decimal, and **whatever it answers** the routine goes back.
-/

namespace StackCompiler

/-! ## Numbers in decimal -/

/-- The bytes of a natural number as it is written. -/
def digitBytes (n : Nat) : List UInt8 :=
  Lowering.utf8 (toString n)

theorem utf8_digit : ∀ d < 10, String.utf8EncodeChar d.digitChar = [UInt8.ofNat (48 + d)] := by
  decide

theorem digitBytes_of_lt {n : Nat} (h : n < 10) : digitBytes n = [UInt8.ofNat (48 + n)] := by
  have hrepr : (toString n).toList = [n.digitChar] := by
    rw [Nat.toString_eq_repr, Nat.toList_repr, Nat.toDigits_of_lt_base h]
  rw [digitBytes, Lowering.utf8, hrepr, List.flatMap_singleton, utf8_digit n h]

/-- The last digit is **the remainder**, and the others are those of the quotient. -/
theorem digitBytes_of_le {n : Nat} (h : 10 ≤ n) :
    digitBytes n = digitBytes (n / 10) ++ [UInt8.ofNat (48 + n % 10)] := by
  have hrepr : (toString n).toList = (toString (n / 10)).toList ++ [(n % 10).digitChar] := by
    simp only [Nat.toString_eq_repr, Nat.toList_repr]
    exact Nat.toDigits_of_base_le (by decide) h
  rw [digitBytes, digitBytes, Lowering.utf8, Lowering.utf8, hrepr, List.flatMap_append,
    List.flatMap_singleton, utf8_digit _ (Nat.mod_lt n (by decide))]

theorem length_digitBytes_le {n k : Nat} (h : n < 10 ^ (k + 1)) :
    (digitBytes n).length ≤ k + 1 := by
  induction k generalizing n with
  | zero =>
    rw [digitBytes_of_lt (by simpa using h)]
    exact Nat.le_refl 1
  | succ k ih =>
    by_cases hn : n < 10
    · rw [digitBytes_of_lt hn, List.length_singleton]
      omega
    · have hrest := ih (n := n / 10) (by rw [pow_succ] at h; omega)
      rw [digitBytes_of_le (by omega), List.length_append, List.length_singleton]
      omega

/-- The digits of a word **fit the frame** of the routine, with room for a sign. -/
theorem length_digitBytes_toInt (v : Int64) : (digitBytes v.toInt.natAbs).length ≤ 19 := by
  obtain ⟨hlow, hhigh⟩ := toInt_bounds v
  unfold Word.least Word.greatest at *
  exact length_digitBytes_le (by omega)

/-- An integer is its digits, **behind a sign** if it is below zero. -/
theorem utf8_toString (v : Int) : Lowering.utf8 (toString v) =
    if v < 0 then 45 :: digitBytes v.natAbs else digitBytes v.natAbs := by
  rw [Int.toString_eq_repr, Int.repr_eq_if]
  by_cases h : v < 0
  · have habs : (-v).toNat = v.natAbs := by omega
    have hminus : String.utf8EncodeChar '-' = [45] := by decide
    rw [if_neg (by omega), if_pos h, habs]
    simp [Lowering.utf8, digitBytes, hminus]
  · have habs : v.toNat = v.natAbs := by omega
    rw [if_pos (by omega), if_neg h, habs]
    rfl

/-! ## Words as numbers without sign -/

theorem toNat_ofNat {n : Nat} (h : n < 2 ^ 64) : (Int64.ofNat n).toBitVec.toNat = n := by
  rw [Int64.toBitVec_ofNat', BitVec.toNat_ofNat, Nat.mod_eq_of_lt h]

theorem ofNat_eq_zero_iff {n : Nat} (h : n < 2 ^ 64) : Int64.ofNat n = 0 ↔ n = 0 := by
  rw [← Int64.toBitVec_inj, ← BitVec.toNat_inj, toNat_ofNat h]
  rfl

theorem lowByte_ofNat (d : Nat) : lowByte (.ofNat d) = UInt8.ofNat d := by
  rw [lowByte, Int64.toBitVec_ofNat', BitVec.toNat_ofNat]
  apply UInt8.toNat_inj.mp
  simp

/-- The size of a number is what its negation **wraps around to**, for the least number as well. -/
theorem natAbs_toInt (v : Int64) :
    (if v < 0 then 0 - v else v).toBitVec.toNat = v.toInt.natAbs := by
  have hlt := v.toBitVec.isLt
  have hint := BitVec.toInt_eq_toNat_cond v.toBitVec
  have hneg : v < 0 ↔ v.toInt < 0 := by rw [Int64.lt_iff_toInt_lt, Int64.toInt_zero]
  rw [Int64.toInt_toBitVec] at hint
  by_cases h : v < 0
  · have := hneg.mp h
    rw [if_pos h, Int64.zero_sub, Int64.toBitVec_neg, BitVec.toNat_neg]
    omega
  · have := mt hneg.mpr h
    rw [if_neg h]
    omega

/-! ## Bytes below the frame's base -/

namespace Machine

variable {m m' : Machine} {bytes : List UInt8} {b : UInt8}

/-- These bytes lie right below the frame's base, and `rsi` points **in front of** them. -/
structure Laid (bytes : List UInt8) (m : Machine) : Prop where
  next : m.regs .rsi = m.regs .rbp - .ofNat (bytes.length + 1)
  there : m.memory.load (m.regs .rbp - .ofNat bytes.length) bytes.length = bytes

/-- The place in front of the first byte is one before it. -/
theorem Laid.first (h : m.Laid bytes) :
    m.regs .rsi + 1 = m.regs .rbp - .ofNat bytes.length := by
  rw [h.next, Int64.ofNat_add]
  grind

/-- One more byte is laid **in front of the others**. -/
theorem Laid.cons (h : m.Laid bytes) (hroom : bytes.length < 32)
    (hmemory : m'.memory = m.memory.store (m.regs .rsi) [b])
    (hrsi : m'.regs .rsi = m.regs .rsi - 1) (hrbp : m'.regs .rbp = m.regs .rbp) :
    m'.Laid (b :: bytes) ∧ Memory.SameBut (m.regs .rbp) 32 m.memory m'.memory := by
  have hgap : Memory.gap (m.regs .rsi) (m.regs .rsi + 1) = 1 := by
    exact (Memory.gap_add (i := 1) (by rw [Memory.gap_self]; decide)).trans
      (by rw [Memory.gap_self])
  refine ⟨⟨?_, ?_⟩, ?_⟩
  · rw [hrsi, hrbp, h.next, List.length_cons, Int64.ofNat_add (bytes.length + 1)]
    grind
  · rw [hrbp, List.length_cons, ← h.next, Memory.load_succ, hmemory, Memory.store_singleton,
      Memory.load_store_apart _ (by rw [hgap]; rfl) (by rw [hgap]; omega), h.first, h.there]
  · rw [hmemory]
    refine Memory.SameBut.store (i := 31 - bytes.length) _ ?_
      (by rw [List.length_singleton]; omega) (by decide)
    have hsplit : Int64.ofNat 32 = .ofNat (31 - bytes.length) + .ofNat (bytes.length + 1) := by
      rw [← Int64.ofNat_add]
      congr 1
      omega
    rw [h.next, hsplit]
    grind

/-- The kernel has answered: it was given bytes to write, and `rax` and `rcx` are **whatever it
left in them**. -/
structure Answered (asked m : Machine) : Prop where
  regs : ∀ r, r ≠ .rax → r ≠ .rcx → m.regs r = asked.regs r
  memory : m.memory = asked.memory
  written : m.written = asked.written ++
    [(asked.regs .rdi, asked.memory.load (asked.regs .rsi) (asked.regs .rdx).toBitVec.toNat)]

/-- The kernel that is known here **is one that answers so**. -/
theorem exists_answered (env : Environment) (h : m.regs .rax = 1) :
    ∃ m', Instr.syscall.exec env m = some m' ∧ m.Answered m' := by
  refine ⟨_, if_pos h, fun r hrax hrcx => ?_, rfl, rfl⟩
  simp [hrax, hrcx]

theorem divideUnsigned_ten (m : Machine) (hrdx : m.regs .rdx = 0) :
    m.divideUnsigned 10 = some (((m.put .rax (.ofNat ((m.regs .rax).toBitVec.toNat / 10))).put .rdx
      (.ofNat ((m.regs .rax).toBitVec.toNat % 10))).flagged none) := by
  have hlt := (m.regs .rax).toBitVec.isLt
  have hten : (10 : Int64).toBitVec.toNat = 10 := by decide
  have hzero : (0 : Int64).toBitVec.toNat = 0 := by decide
  rw [divideUnsigned]
  simp only [hrdx, hten, hzero, Nat.zero_mul, Nat.zero_add]
  rw [if_neg]
  rintro (h | h)
  · exact absurd h (by decide)
  · omega

end Machine

namespace Routine

variable {env : Environment} {start m m' : Machine} {negative : Bool} {bytes : List UInt8}

/-! ## What the routine keeps

`start` is the machine that enters the routine: all that is said of a later one is said beside it. -/

/-- Between its rounds the routine, once it knows the sign, **has laid these bytes down**. -/
structure Printing (start : Machine) (negative : Bool) (bytes : List UInt8) (m : Machine) : Prop
    extends m.Laid bytes where
  base : m.regs .rbp = start.regs .rsp - 8
  ten : m.regs .rcx = 10
  sign : m.regs .r8 = if negative then 1 else 0
  written : m.written = start.written
  kept : Memory.SameBut (m.regs .rbp) 32
    (start.memory.setWord (start.regs .rsp - 8) (start.regs .rbp)) m.memory

/-- A byte more is laid down, and nothing else that the routine needs has changed. -/
theorem Printing.lay {b : UInt8} (h : Printing start negative bytes m)
    (hroom : bytes.length < 32) (hmemory : m'.memory = m.memory.store (m.regs .rsi) [b])
    (hrsi : m'.regs .rsi = m.regs .rsi - 1)
    (hregs : ∀ r ∈ [Reg.rbp, .rcx, .r8], m'.regs r = m.regs r) (hwritten : m'.written = m.written) :
    Printing start negative (b :: bytes) m' := by
  have hrbp := hregs .rbp (by decide)
  obtain ⟨hlaid, hsame⟩ := h.toLaid.cons hroom hmemory hrsi hrbp
  refine ⟨hlaid, hrbp.trans h.base, (hregs .rcx (by decide)).trans h.ten,
    (hregs .r8 (by decide)).trans h.sign, hwritten.trans h.written, ?_⟩
  rw [hrbp]
  exact h.kept.trans hsame

theorem place?_digits : printIntCode.place? .digits = some 12 := by
  decide

theorem place?_write : printIntCode.place? .write = some 24 := by
  decide

/-! ## Entering -/

/-- Room for the digits is made below the frame's base, and the number is taken. -/
def enter : List Instr :=
  [.push .rbp, .move .rbp .rsp, .subConst .rsp 32, .move .rax .rdi, .address .rsi (.frame 1),
    .set .rcx 10, .xor .r8 .r8, .test .rax .rax]

theorem exec_enter (env : Environment) (start : Machine) :
    ∃ m, execAll env enter start = some m ∧ Printing start false [] m ∧
      m.regs .rax = start.regs .rdi ∧ m.flags = some (.ofBits (start.regs .rdi)) := by
  refine ⟨_, rfl, ⟨⟨?_, rfl⟩, ?_, ?_, ?_, rfl, ?_⟩, ?_, ?_⟩
  · simp [Machine.pushWord, Machine.setWord, Machine.locate]
  · simp [Machine.pushWord, Machine.setWord]
  · simp [Machine.pushWord, Machine.setWord]
  · simp [Machine.pushWord, Machine.setWord]
  · simpa [Machine.pushWord, Machine.setWord] using Memory.SameBut.refl _ _ _
  · simp [Machine.pushWord, Machine.setWord]
  · simp [Machine.pushWord, Machine.setWord]

/-- A number below zero is turned round, and `r8` keeps that it was. -/
def turn : List Instr :=
  [.negate .rax, .set .r8 1]

theorem exec_turn (env : Environment) (h : Printing start false [] m) :
    ∃ m', execAll env turn m = some m' ∧ Printing start true [] m' ∧
      m'.regs .rax = 0 - m.regs .rax := by
  refine ⟨_, rfl, ⟨⟨?_, rfl⟩, ?_, ?_, ?_, h.written, ?_⟩, ?_⟩
  · simpa using h.next
  · simpa using h.base
  · simpa using h.ten
  · simp
  · simpa using h.kept
  · simp

/-- The digits are come to with **the size of the number** in `rax`. -/
theorem runs_enter (env : Environment) (start : Machine) :
    ∃ m, Runs env printIntCode ⟨0, start⟩ ⟨12, m⟩ ∧
      Printing start (decide (start.regs .rdi < 0)) [] m ∧
      (m.regs .rax).toBitVec.toNat = (start.regs .rdi).toInt.natAbs := by
  obtain ⟨m₁, hexec, hprinting, hrax, hflags⟩ := exec_enter env start
  have hlabel : Runs env printIntCode ⟨0, start⟩ ⟨1, start⟩ :=
    Runs.label (by decide : [] ++ [.label (.routine printInt)] <+: printIntCode) start
  have henter : Runs env printIntCode ⟨1, start⟩ ⟨9, m₁⟩ :=
    Runs.ofInstrs enter
      (by decide : printIntCode.take 1 ++ Listing.ofInstrs enter <+: printIntCode) hexec
  have hjump : Runs env printIntCode ⟨9, m₁⟩
      ⟨if (Flags.ofBits (start.regs .rdi)).allows .notNegative then 12 else 10, m₁⟩ :=
    Runs.jumpIf (by decide : printIntCode.take 9 ++ [.instr (.jumpIf .notNegative .digits)] <+:
      printIntCode) place?_digits hflags
  have hallows : (Flags.ofBits (start.regs .rdi)).allows .notNegative =
      !decide (start.regs .rdi < 0) := rfl
  have hsize := natAbs_toInt (start.regs .rdi)
  have hrun := (hlabel.trans henter).trans hjump
  rw [hallows] at hrun
  by_cases hneg : start.regs .rdi < 0
  · rw [decide_eq_true hneg] at hrun ⊢
    rw [if_pos hneg] at hsize
    obtain ⟨m₂, hturn, hprinting₂, hrax₂⟩ := exec_turn env hprinting
    have hlast : Runs env printIntCode ⟨10, m₁⟩ ⟨12, m₂⟩ := Runs.ofInstrs turn
      (by decide : printIntCode.take 10 ++ Listing.ofInstrs turn <+: printIntCode) hturn
    exact ⟨m₂, hrun.trans hlast, hprinting₂, by rw [hrax₂, hrax, hsize]⟩
  · rw [decide_eq_false hneg] at hrun ⊢
    rw [if_neg hneg] at hsize
    exact ⟨m₁, hrun, hprinting, by rw [hrax, hsize]⟩

/-! ## Digits -/

/-- One digit is split off and laid down. -/
def digitRound : List Instr :=
  [.xor .rdx .rdx, .divUnsigned .rcx, .addLow .rdx 48, .storeByte (.above .rsi 0) .rdx,
    .decrement .rsi, .test .rax .rax]

/-- The last digit of the number in `rax` is split off **into `rdx`**. -/
theorem exec_splitDigit (env : Environment) (m : Machine) (hten : m.regs .rcx = 10) :
    ∃ m', execAll env [.xor .rdx .rdx, .divUnsigned .rcx] m = some m' ∧
      m'.regs .rax = .ofNat ((m.regs .rax).toBitVec.toNat / 10) ∧
      m'.regs .rdx = .ofNat ((m.regs .rax).toBitVec.toNat % 10) ∧
      (∀ r, r ≠ .rax → r ≠ .rdx → m'.regs r = m.regs r) ∧
      m'.memory = m.memory ∧ m'.written = m.written := by
  obtain ⟨m₁, hm₁⟩ : ∃ m₁, m₁ = (m.put .rdx (m.regs .rdx ^^^ m.regs .rdx)).flagged
      (some (.ofBits (m.regs .rdx ^^^ m.regs .rdx))) := ⟨_, rfl⟩
  have hregs (r : Reg) (hr : r ≠ .rdx) : m₁.regs r = m.regs r := by simp [hm₁, hr]
  have hrcx : m₁.regs .rcx = 10 := (hregs .rcx (by decide)).trans hten
  have hdiv := m₁.divideUnsigned_ten (by simp [hm₁])
  rw [hregs .rax (by decide)] at hdiv
  have hexec : execAll env [.xor .rdx .rdx, .divUnsigned .rcx] m = m₁.divideUnsigned 10 := by
    rw [← hrcx, hm₁]
    exact Option.bind_fun_some _
  refine ⟨_, hexec.trans hdiv, ?_, ?_, fun r hrax hrdx => ?_, ?_, ?_⟩
  · simp
  · simp
  · simp [hrax, hrdx, hregs]
  · rw [hm₁]; rfl
  · rw [hm₁]; rfl

theorem exec_digitRound (env : Environment) (h : Printing start negative bytes m)
    (hroom : bytes.length < 32) :
    ∃ m', execAll env digitRound m = some m' ∧
      Printing start negative (.ofNat (48 + (m.regs .rax).toBitVec.toNat % 10) :: bytes) m' ∧
      m'.regs .rax = .ofNat ((m.regs .rax).toBitVec.toNat / 10) ∧
      m'.flags = some (.ofBits (m'.regs .rax)) := by
  obtain ⟨m₁, hexec, hrax, hrdx, hregs, hmemory, hwritten⟩ := exec_splitDigit env m h.ten
  generalize (m.regs .rax).toBitVec.toNat = n at hrax hrdx ⊢
  have hrsi : m₁.regs .rsi = m.regs .rsi := hregs _ (by decide) (by decide)
  have hbyte : lowByte (m₁.regs .rdx) + 48 = UInt8.ofNat (48 + n % 10) := by
    rw [hrdx, lowByte_ofNat, UInt8.add_comm, UInt8.ofNat_add]
    rfl
  refine ⟨_, (execAll_append env [.xor .rdx .rdx, .divUnsigned .rcx] _ m).trans
    (by rw [hexec]; rfl), ?_, ?_, ?_⟩
  · refine h.lay hroom ?_ ?_ ?_ hwritten
    · simp [Machine.store, Machine.locate, hrsi, hmemory, hbyte]
    · simp [Machine.store, hrsi]
    · simp [Machine.store, hregs]
  · simp [Machine.store, hrax]
  · simp [Machine.store]

/-- **One round** lays the last digit in front of the others, and goes back for more unless nothing
is left. -/
theorem runs_digitRound (env : Environment) (h : Printing start negative bytes m)
    (hroom : bytes.length < 32) {n : Nat} (hn : (m.regs .rax).toBitVec.toNat = n) :
    ∃ m', Runs env printIntCode ⟨12, m⟩ ⟨if n / 10 = 0 then 20 else 12, m'⟩ ∧
      Printing start negative (.ofNat (48 + n % 10) :: bytes) m' ∧
      (m'.regs .rax).toBitVec.toNat = n / 10 := by
  obtain ⟨m', hexec, hprinting, hrax, hflags⟩ := exec_digitRound env h hroom
  rw [hn] at hprinting hrax
  have hlt : n / 10 < 2 ^ 64 := by
    have := (m.regs .rax).toBitVec.isLt
    omega
  have hlabel : Runs env printIntCode ⟨12, m⟩ ⟨13, m⟩ :=
    Runs.label (by decide : printIntCode.take 12 ++ [.label .digits] <+: printIntCode) m
  have hround : Runs env printIntCode ⟨13, m⟩ ⟨19, m'⟩ :=
    Runs.ofInstrs digitRound
      (by decide : printIntCode.take 13 ++ Listing.ofInstrs digitRound <+: printIntCode) hexec
  have hjump : Runs env printIntCode ⟨19, m'⟩
      ⟨if (Flags.ofBits (m'.regs .rax)).allows .notZero then 12 else 20, m'⟩ :=
    Runs.jumpIf (by decide : printIntCode.take 19 ++ [.instr (.jumpIf .notZero .digits)] <+:
      printIntCode) place?_digits hflags
  have hallows : (Flags.ofBits (m'.regs .rax)).allows .notZero = !decide (n / 10 = 0) := by
    rw [hrax, Flags.allows, Flags.ofBits, ← decide_eq_decide.mpr (ofNat_eq_zero_iff hlt)]
    rfl
  refine ⟨m', (hlabel.trans hround).trans ?_, hprinting, ?_⟩
  · rw [hallows] at hjump
    by_cases hzero : n / 10 = 0 <;> simpa [hzero] using hjump
  · rw [hrax, toNat_ofNat hlt]

/-- **The rounds lay down the number as it is written**, from its last digit to its first. -/
theorem runs_digits (env : Environment) (n : Nat) : ∀ {bytes : List UInt8} {m : Machine},
    Printing start negative bytes m → (m.regs .rax).toBitVec.toNat = n →
    (digitBytes n).length + bytes.length ≤ 32 →
    ∃ m', Runs env printIntCode ⟨12, m⟩ ⟨20, m'⟩ ∧
      Printing start negative (digitBytes n ++ bytes) m' := by
  induction n using Nat.strongRecOn with
  | ind n ih =>
  intro bytes m h hn hroom
  by_cases hlast : n < 10
  · rw [digitBytes_of_lt hlast, List.length_singleton] at hroom
    obtain ⟨m', hrun, hprinting, -⟩ := runs_digitRound env h (by omega) hn
    rw [if_pos (by omega)] at hrun
    rw [Nat.mod_eq_of_lt hlast] at hprinting
    exact ⟨m', hrun, by rwa [digitBytes_of_lt hlast]⟩
  · rw [digitBytes_of_le (by omega), List.length_append, List.length_singleton] at hroom
    obtain ⟨m₁, hrun₁, hprinting₁, hrax⟩ := runs_digitRound env h (by omega) hn
    rw [if_neg (by omega)] at hrun₁
    obtain ⟨m', hrun, hprinting⟩ := ih (n / 10) (by omega) hprinting₁ hrax
      (by rw [List.length_cons]; omega)
    refine ⟨m', hrun₁.trans hrun, ?_⟩
    rwa [digitBytes_of_le (by omega), List.append_assoc]

/-- In front of the digits of a number below zero **its sign** is laid down. -/
theorem runs_sign (env : Environment) (h : Printing start negative bytes m)
    (hroom : bytes.length < 32) :
    ∃ m', Runs env printIntCode ⟨20, m⟩ ⟨24, m'⟩ ∧
      Printing start negative (if negative then 45 :: bytes else bytes) m' := by
  have htest : execAll env [.test .r8 .r8] m =
      some (m.flagged (some (.ofBits (if negative then 1 else 0)))) := by
    rw [← h.sign]
    simp [execAll, Instr.exec]
  have hrun : Runs env printIntCode ⟨20, m⟩ ⟨21, _⟩ := Runs.ofInstrs [.test .r8 .r8]
    (by decide : printIntCode.take 20 ++ Listing.ofInstrs [.test .r8 .r8] <+: printIntCode) htest
  have hjump : Runs env printIntCode ⟨21, m.flagged (some (.ofBits (if negative then 1 else 0)))⟩
      ⟨if (Flags.ofBits (if negative then 1 else 0)).allows .zero then 24 else 22, _⟩ :=
    Runs.jumpIf (by decide : printIntCode.take 21 ++ [.instr (.jumpIf .zero .write)] <+:
      printIntCode) place?_write rfl
  cases negative with
  | false =>
    exact ⟨_, hrun.trans hjump,
      ⟨⟨h.next, h.there⟩, h.base, h.ten, h.sign, h.written, h.kept⟩⟩
  | true =>
    have hlast : Runs env printIntCode ⟨22, m.flagged (some (.ofBits (if true then 1 else 0)))⟩
        ⟨24, _⟩ := Runs.ofInstrs [.setByte (.above .rsi 0) 45, .decrement .rsi]
      (by decide : printIntCode.take 22 ++
        Listing.ofInstrs [.setByte (.above .rsi 0) 45, .decrement .rsi] <+: printIntCode) rfl
    refine ⟨_, (hrun.trans hjump).trans hlast, h.lay hroom ?_ ?_ ?_ rfl⟩
    · simp [Machine.store, Machine.locate]
    · simp [Machine.store]
    · simp [Machine.store]

/-! ## Asking the kernel -/

/-- The kernel is asked to write these bytes **to the standard output**. -/
structure Asking (start : Machine) (bytes : List UInt8) (m : Machine) : Prop where
  service : m.regs .rax = 1
  descriptor : m.regs .rdi = 1
  bytes : m.memory.load (m.regs .rsi) (m.regs .rdx).toBitVec.toNat = bytes
  base : m.regs .rbp = start.regs .rsp - 8
  written : m.written = start.written
  kept : Memory.SameBut (m.regs .rbp) 32
    (start.memory.setWord (start.regs .rsp - 8) (start.regs .rbp)) m.memory

/-- The kernel is given what lies between the first byte and the frame's base. -/
def ask : List Instr :=
  [.increment .rsi, .move .rdx .rbp, .sub .rdx .rsi, .set .rdi 1, .set .rax 1]

theorem runs_ask (env : Environment) (h : Printing start negative bytes m)
    (hroom : bytes.length ≤ 32) :
    ∃ m', Runs env printIntCode ⟨24, m⟩ ⟨30, m'⟩ ∧ Asking start bytes m' := by
  have hlabel : Runs env printIntCode ⟨24, m⟩ ⟨25, m⟩ :=
    Runs.label (by decide : printIntCode.take 24 ++ [.label .write] <+: printIntCode) m
  have hask : Runs env printIntCode ⟨25, m⟩ ⟨30, _⟩ := Runs.ofInstrs ask
    (by decide : printIntCode.take 25 ++ Listing.ofInstrs ask <+: printIntCode) rfl
  have hcount : m.regs .rbp - (m.regs .rbp - .ofNat bytes.length) = .ofNat bytes.length := by
    grind
  have hmod : bytes.length % 18446744073709551616 = bytes.length := by omega
  refine ⟨_, hlabel.trans hask, ?_, ?_, ?_, ?_, h.written, ?_⟩
  · simp
  · simp
  · simpa [h.first, hcount, hmod] using h.there
  · simp [h.base]
  · simpa using h.kept

/-- The frame is given up, and `rbp` is taken **from where it was saved**. -/
theorem runs_leave (env : Environment) {asked answered : Machine} (h : Asking start bytes asked)
    (hkernel : asked.Answered answered) :
    ∃ done, Runs env printIntCode ⟨31, answered⟩ ⟨33, done⟩ ∧
      done.regs .rsp = start.regs .rsp ∧ done.regs .rbp = start.regs .rbp ∧
      done.memory = asked.memory ∧ done.written = answered.written := by
  have hrbp := (hkernel.regs .rbp (by decide) (by decide)).trans h.base
  have hsaved : answered.memory.word (start.regs .rsp - 8) = start.regs .rbp := by
    rw [hkernel.memory, ← Memory.word_setWord start.memory (start.regs .rsp - 8) (start.regs .rbp)]
    refine Memory.word_congr fun x hx => h.kept x ?_
    rw [← h.base] at hx
    have hframe := Memory.gap_top (asked.regs .rbp) (by decide : 32 < 2 ^ 64)
    have hvia := Memory.gap_via (asked.regs .rbp - .ofNat 32) (asked.regs .rbp) x
    omega
  have hleave : Runs env printIntCode ⟨31, answered⟩ ⟨33, _⟩ :=
    Runs.ofInstrs [.move .rsp .rbp, .pop .rbp]
      (by decide : printIntCode.take 31 ++ Listing.ofInstrs [.move .rsp .rbp, .pop .rbp] <+:
        printIntCode) rfl
  refine ⟨_, hleave, ?_, ?_, hkernel.memory, rfl⟩
  · simp [hrbp]
  · simp [hrbp, hsaved]

/-- The kernel is first asked when **the number as it is written** has been laid down. -/
theorem runs_to_ask (env : Environment) (start : Machine) :
    ∃ asked, Runs env printIntCode ⟨0, start⟩ ⟨30, asked⟩ ∧
      Asking start (Lowering.utf8 (toString (start.regs .rdi).toInt)) asked := by
  obtain ⟨v, hv⟩ : ∃ v, v = start.regs .rdi := ⟨_, rfl⟩
  have hroom := length_digitBytes_toInt v
  obtain ⟨m₁, henter, hprinting₁, hrax⟩ := runs_enter env start
  rw [← hv] at hprinting₁ hrax ⊢
  obtain ⟨m₂, hdigits, hprinting₂⟩ := runs_digits env _ hprinting₁ hrax
    (by rw [List.length_nil]; omega)
  rw [List.append_nil] at hprinting₂
  obtain ⟨m₃, hsign, hprinting₃⟩ := runs_sign env hprinting₂ (by omega)
  have htext : (if decide (v < 0) = true then 45 :: digitBytes v.toInt.natAbs
      else digitBytes v.toInt.natAbs) = Lowering.utf8 (toString v.toInt) := by
    rw [utf8_toString]
    exact if_congr (decide_eq_true_iff.trans Int64.lt_iff_toInt_lt) rfl rfl
  have hlength : (Lowering.utf8 (toString v.toInt)).length ≤ 32 := by
    rw [← htext]
    split
    · rw [List.length_cons]
      omega
    · omega
  rw [htext] at hprinting₃
  obtain ⟨asked, hask, hasking⟩ := runs_ask env hprinting₃ hlength
  exact ⟨asked, ((henter.trans hdigits).trans hsign).trans hask, hasking⟩

/-- **The routine writes its number in decimal, once, and goes back.**  From any machine it comes to
ask the kernel, before which nothing was written; and whatever the kernel answers, it goes on to its
return.  Then the decimal form of the number has been written to the standard output, the registers
of the stack are as at entry, and no byte of the memory has changed but the forty below `rsp`: the
saved `rbp` and the frame. -/
theorem printInt_writes_decimal (env : Environment) (start : Machine) :
    ∃ call asked, printIntCode[call]? = some (.instr .syscall) ∧
      Runs env printIntCode ⟨0, start⟩ ⟨call, asked⟩ ∧
      asked.regs .rax = 1 ∧ asked.written = start.written ∧
      (∃ answered, Instr.syscall.exec env asked = some answered ∧ asked.Answered answered) ∧
      ∀ answered, asked.Answered answered →
        ∃ back done, printIntCode[back]? = some (.instr .ret) ∧
          Runs env printIntCode ⟨call + 1, answered⟩ ⟨back, done⟩ ∧
          done.written = start.written ++
            [(1, Lowering.utf8 (toString (start.regs .rdi).toInt))] ∧
          Memory.SameBut (start.regs .rsp) 40 start.memory done.memory ∧
          done.regs .rsp = start.regs .rsp ∧ done.regs .rbp = start.regs .rbp := by
  obtain ⟨asked, hrun, hasking⟩ := runs_to_ask env start
  refine ⟨30, asked, by decide, hrun, hasking.service, hasking.written,
    Machine.exists_answered env hasking.service, fun answered hkernel => ?_⟩
  obtain ⟨done, hleave, hrsp, hrbp, hmemory, hwritten⟩ := runs_leave env hasking hkernel
  refine ⟨33, done, by decide, hleave, ?_, ?_, hrsp, hrbp⟩
  · rw [hwritten, hkernel.written, hasking.written, hasking.descriptor, hasking.bytes]
  · rw [hmemory]
    exact Memory.SameBut.withWord (hasking.base ▸ hasking.kept) (by decide)

end Routine

end StackCompiler
