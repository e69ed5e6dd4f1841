import Mathlib.Data.List.Basic
import Mathlib.Data.Nat.ModEq
import Mathlib.Tactic.Ring

/-!
# Proofs/Machine/Memory — bytes and words in memory

A memory has a byte at every address, and addresses **go around**: they are numbers of 64 bits.  A
word is eight bytes, the lowest first.  What was stored is what is loaded, and stores elsewhere do
not matter (`Memory.word_setWord`, `Memory.word_setWord_apart`).
-/

namespace StackCompiler

/-! ## Digits -/

/-- The lowest bytes of a number, the lowest first. -/
def toBytes : Nat → Nat → List UInt8
  | 0, _ => []
  | count + 1, n => UInt8.ofNat n :: toBytes count (n / 256)

/-- The number that bytes spell, the lowest first. -/
def ofBytes : List UInt8 → Nat
  | [] => 0
  | b :: bytes => b.toNat + 256 * ofBytes bytes

@[simp] theorem length_toBytes (count n : Nat) : (toBytes count n).length = count := by
  induction count generalizing n with
  | zero => rfl
  | succ count ih => rw [toBytes, List.length_cons, ih]

/-- Bytes spell the number that they are of, **up to the bytes that were left out**. -/
theorem ofBytes_toBytes (count n : Nat) : ofBytes (toBytes count n) = n % 256 ^ count := by
  induction count generalizing n with
  | zero => rw [toBytes, ofBytes, pow_zero, Nat.mod_one]
  | succ count ih =>
    have hpow : 256 ^ (count + 1) = 256 * 256 ^ count := pow_succ' 256 count
    rw [toBytes, ofBytes, ih, UInt8.toNat_ofNat', hpow, Nat.mod_mul]

/-! ## Memory -/

/-- The byte at each address. -/
abbrev Memory := Int64 → UInt8

namespace Memory

/-- How far an address is after another, **going around** at the end. -/
def gap (a x : Int64) : Nat :=
  (x - a).toBitVec.toNat

theorem gap_lt (a x : Int64) : gap a x < 2 ^ 64 :=
  (x - a).toBitVec.isLt

/-- What lies so many bytes further is so much further. -/
theorem gap_add {a x : Int64} {i : Nat} (h : gap a x + i < 2 ^ 64) :
    gap a (x + Int64.ofNat i) = gap a x + i := by
  have hring : x + Int64.ofNat i - a = (x - a) + Int64.ofNat i := by grind
  unfold gap at *
  rw [hring, Int64.toBitVec_add, Int64.toBitVec_ofNat', BitVec.toNat_add, BitVec.toNat_ofNat,
    Nat.mod_eq_of_lt (a := i) (by omega), Nat.mod_eq_of_lt h]

@[simp] theorem gap_self (a : Int64) : gap a a = 0 := by
  rw [gap, Int64.sub_self]
  rfl

/-- Two gaps one after the other are one, **up to the whole of the memory**. -/
theorem gap_via (a b x : Int64) : gap a x = (gap a b + gap b x) % 2 ^ 64 := by
  have hring : x - a = (b - a) + (x - b) := by grind
  rw [gap, hring, Int64.toBitVec_add, BitVec.toNat_add]
  rfl

/-- The memory with bytes stored from an address on. -/
def store (m : Memory) (a : Int64) (bytes : List UInt8) : Memory :=
  fun x => bytes.getD (gap a x) (m x)

/-- A byte that **lies apart** from what is stored stays as it is. -/
theorem store_apart (m : Memory) {a x : Int64} {bytes : List UInt8} (h : bytes.length ≤ gap a x) :
    m.store a bytes x = m x := by
  rw [store, List.getD_eq_getElem?_getD, List.getElem?_eq_none h]
  rfl

/-- A byte that is stored is there. -/
theorem store_singleton (m : Memory) (a : Int64) (b : UInt8) : m.store a [b] a = b := by
  rw [store, gap_self]
  rfl

/-- The bytes from an address on. -/
def load (m : Memory) (a : Int64) (count : Nat) : List UInt8 :=
  (List.range count).map fun i => m (a + Int64.ofNat i)

theorem load_succ (m : Memory) (a : Int64) (count : Nat) :
    m.load a (count + 1) = m a :: m.load (a + 1) count := by
  have hnext (i : Nat) : a + Int64.ofNat (i + 1) = a + 1 + Int64.ofNat i := by
    rw [Int64.ofNat_add]
    grind
  rw [load, load, List.range_succ_eq_map, List.map_cons, List.map_map]
  exact congrArg₂ _ (congrArg m (Int64.add_zero a))
    (List.map_congr_left fun i _ => congrArg m (hnext i))

/-- **What was stored is what is loaded.** -/
theorem load_store (m : Memory) (a : Int64) {bytes : List UInt8} (h : bytes.length ≤ 2 ^ 64) :
    (m.store a bytes).load a bytes.length = bytes := by
  refine List.ext_getElem (by simp [load]) fun i _ hi => ?_
  have hgap : gap a (a + Int64.ofNat i) = i := by
    rw [gap_add (by rw [gap_self]; omega), gap_self, Nat.zero_add]
  simp [load, store, hgap, hi]

/-- Bytes that **lie apart** from what is stored stay as they are. -/
theorem load_store_apart (m : Memory) {a b : Int64} {bytes : List UInt8} {count : Nat}
    (hafter : bytes.length ≤ gap a b) (hbefore : gap a b + count ≤ 2 ^ 64) :
    (m.store a bytes).load b count = m.load b count := by
  refine List.map_congr_left fun i hi => ?_
  have hi := List.mem_range.mp hi
  have hgap : gap a (b + Int64.ofNat i) = gap a b + i := gap_add (by omega)
  rw [store, hgap, List.getD_eq_getElem?_getD, List.getElem?_eq_none (by omega)]
  rfl

/-! ## Words -/

/-- The word at an address. -/
def word (m : Memory) (a : Int64) : Int64 :=
  .ofNat (ofBytes (m.load a 8))

/-- The memory with a word stored at an address. -/
def setWord (m : Memory) (a value : Int64) : Memory :=
  m.store a (toBytes 8 value.toBitVec.toNat)

@[simp] theorem word_setWord (m : Memory) (a value : Int64) : (m.setWord a value).word a = value := by
  have hbytes : (toBytes 8 value.toBitVec.toNat).length ≤ 2 ^ 64 := by simp
  have hload := m.load_store a hbytes
  rw [length_toBytes] at hload
  rw [word, setWord, hload, ofBytes_toBytes, ← Int64.toBitVec_inj, Int64.toBitVec_ofNat']
  apply BitVec.eq_of_toNat_eq
  rw [BitVec.toNat_ofNat, Nat.mod_mod_of_dvd _ (by decide), Nat.mod_eq_of_lt value.toBitVec.isLt]

/-- A word stays as it is when another is stored **that does not overlap it**. -/
theorem word_setWord_apart (m : Memory) {a b value : Int64} (hafter : 8 ≤ gap a b)
    (hbefore : gap a b + 8 ≤ 2 ^ 64) : (m.setWord a value).word b = m.word b := by
  rw [word, setWord, load_store_apart m (by rwa [length_toBytes]) hbefore]
  rfl

/-- A byte stays as it is when a word is stored **that it is not part of**. -/
theorem setWord_apart (m : Memory) {a x value : Int64} (h : 8 ≤ gap a x) :
    m.setWord a value x = m x :=
  m.store_apart (by rwa [length_toBytes])

theorem gap_next (a : Int64) : gap a (a + 8) = 8 := by
  have h : gap a (a + Int64.ofNat 8) = gap a a + 8 := gap_add (by rw [gap_self]; decide)
  rwa [gap_self] at h

/-- Two words **side by side** are both there, and no byte but theirs is changed. -/
theorem setWord_setWord (m : Memory) (a v w : Int64) :
    ((m.setWord a v).setWord (a + 8) w).word a = v ∧
      ((m.setWord a v).setWord (a + 8) w).word (a + 8) = w ∧
      ∀ x, 16 ≤ gap a x → (m.setWord a v).setWord (a + 8) w x = m x := by
  have hnext := gap_next a
  have hback : gap (a + 8) a = 2 ^ 64 - 8 := by
    have hvia := gap_via a (a + 8) a
    have hlt := gap_lt (a + 8) a
    rw [gap_self] at hvia
    omega
  refine ⟨?_, word_setWord _ _ _, fun x hx => ?_⟩
  · rw [word_setWord_apart _ (by omega) (by omega), word_setWord]
  · have hvia := gap_via a (a + 8) x
    have hlt := gap_lt (a + 8) x
    rw [setWord_apart _ (by omega), setWord_apart _ (by omega)]

/-- A word is told by its **eight bytes**. -/
theorem word_congr {m m' : Memory} {a : Int64} (h : ∀ x, gap a x < 8 → m' x = m x) :
    m'.word a = m.word a := by
  refine congrArg (Int64.ofNat ∘ ofBytes) (List.map_congr_left fun i hi => h _ ?_)
  have hi := List.mem_range.mp hi
  rw [gap_add (by rw [gap_self]; omega), gap_self]
  omega

/-! ## Room below an address -/

/-- The memories are the same but for so many bytes **below an address**. -/
def SameBut (top : Int64) (room : Nat) (m m' : Memory) : Prop :=
  ∀ x, room ≤ gap (top - .ofNat room) x → m' x = m x

variable {top : Int64} {room : Nat} {m m' m'' : Memory}

theorem SameBut.refl (top : Int64) (room : Nat) (m : Memory) : SameBut top room m m :=
  fun _ _ => rfl

theorem SameBut.trans (h : SameBut top room m m') (h' : SameBut top room m' m'') :
    SameBut top room m m'' :=
  fun x hx => (h' x hx).trans (h x hx)

theorem gap_top (top : Int64) (h : room < 2 ^ 64) : gap (top - .ofNat room) top = room := by
  have hgap := gap_add (a := top - .ofNat room) (x := top - .ofNat room) (i := room)
    (by rw [gap_self]; omega)
  rwa [gap_self, Nat.zero_add, Int64.sub_add_cancel] at hgap

/-- What is below a word and **the word itself** are together the room of both. -/
theorem SameBut.withWord {v : Int64} (h : SameBut (top - 8) room (m.setWord (top - 8) v) m')
    (hlt : room + 8 < 2 ^ 64) : SameBut top (room + 8) m m' := fun x hx => by
  have hbase : top - .ofNat (room + 8) = top - 8 - .ofNat room := by
    rw [Int64.ofNat_add]
    grind
  rw [hbase] at hx
  have hword := gap_top (top - 8) (by omega : room < 2 ^ 64)
  have hvia := gap_via (top - 8 - .ofNat room) (top - 8) x
  have hx' := gap_lt (top - 8) x
  rw [h x (by omega), m.setWord_apart (by omega)]

/-- Bytes stored below the address, **within the room**, change nothing else. -/
theorem SameBut.store (m : Memory) {a : Int64} {bytes : List UInt8} {i : Nat}
    (ha : a = top - .ofNat room + .ofNat i) (hroom : i + bytes.length ≤ room) (hlt : room < 2 ^ 64) :
    SameBut top room m (m.store a bytes) := fun x hx => by
  refine m.store_apart ?_
  have hat : gap (top - .ofNat room) a = i := by
    rw [ha, gap_add (by rw [gap_self]; omega), gap_self, Nat.zero_add]
  have hvia := gap_via (top - .ofNat room) a x
  have hlt' := gap_lt a x
  omega

end Memory

end StackCompiler
