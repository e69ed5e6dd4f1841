import StackCompiler.Proofs.Machine.Run

/-!
# Proofs/Machine/Stack — the frame and the words above it

The frame of a function and the stack above it are told by **how far below `rbp`** they lie: `cell d`
is the word that is `d` bytes below.  Pushing and popping, and storing in the frame, each change one
cell; all others stay, as long as the distances do not go around the whole of the memory.
-/

namespace StackCompiler

/-- How far one place below an address is after another. -/
theorem Memory.gap_below (base : Int64) (d x : Int) :
    gap (base - Int64.ofInt d) (base - Int64.ofInt x) = ((d - x) % 2 ^ 64).toNat := by
  have hring : base - Int64.ofInt x - (base - Int64.ofInt d) = Int64.ofInt (d - x) := by
    rw [Int64.ofInt_sub]
    grind
  rw [gap, hring, Int64.toBitVec_ofInt, BitVec.toNat_ofInt]
  rfl

namespace Machine

variable {m m' m'' : Machine} {d x : Int} {v : Int64} {r : Reg}

/-! ## Registers -/

@[simp] theorem regs_put_self (m : Machine) (r : Reg) (v : Int64) : (m.put r v).regs r = v := by
  simp [put]

@[simp] theorem regs_put_of_ne {r r' : Reg} (h : r' ≠ r) (m : Machine) (v : Int64) :
    (m.put r v).regs r' = m.regs r' := by
  simp [put, h]

@[simp] theorem memory_put (m : Machine) (r : Reg) (v : Int64) : (m.put r v).memory = m.memory := rfl

@[simp] theorem regs_flagged (m : Machine) (flags : Option Flags) :
    (m.flagged flags).regs = m.regs := rfl

@[simp] theorem memory_flagged (m : Machine) (flags : Option Flags) :
    (m.flagged flags).memory = m.memory := rfl

@[simp] theorem flags_flagged (m : Machine) (flags : Option Flags) :
    (m.flagged flags).flags = flags := rfl

@[simp] theorem regs_setWord (m : Machine) (a v : Int64) : (m.setWord a v).regs = m.regs := rfl

@[simp] theorem memory_setWord (m : Machine) (a v : Int64) :
    (m.setWord a v).memory = m.memory.setWord a v := rfl

/-! ## Cells -/

/-- The word that is so many bytes below the frame's base. -/
def cell (m : Machine) (d : Int) : Int64 :=
  m.memory.word (m.regs .rbp - Int64.ofInt d)

/-- The stack reaches down to so many bytes below the frame's base. -/
def IsDown (m : Machine) (d : Int) : Prop :=
  m.regs .rsp = m.regs .rbp - Int64.ofInt d

/-- The later machine has the frame's base of the earlier one, and **every cell down to there**. -/
structure Keeps (d : Int) (m m' : Machine) : Prop where
  base : m'.regs .rbp = m.regs .rbp
  cell : ∀ x, 0 ≤ x → x ≤ d → m'.cell x = m.cell x

theorem Keeps.refl (d : Int) (m : Machine) : Keeps d m m :=
  ⟨rfl, fun _ _ _ => rfl⟩

/-- Cells are told by **the memory and the frame's base**. -/
theorem Keeps.of_memory (hrbp : m'.regs .rbp = m.regs .rbp) (hmemory : m'.memory = m.memory) :
    Keeps d m m' :=
  ⟨hrbp, fun _ _ _ => by rw [Machine.cell, Machine.cell, hmemory, hrbp]⟩

theorem Keeps.trans (h : Keeps d m m') (h' : Keeps d m' m'') : Keeps d m m'' :=
  ⟨h'.base.trans h.base, fun x h₀ hx => (h'.cell x h₀ hx).trans (h.cell x h₀ hx)⟩

theorem Keeps.mono (h : Keeps d m m') (hx : x ≤ d) : Keeps x m m' :=
  ⟨h.base, fun y h₀ hy => h.cell y h₀ (hy.trans hx)⟩

/-- The later machine has **the stack of the earlier one**, whatever is in the other registers. -/
structure SameStack (m m' : Machine) : Prop where
  rsp : m'.regs .rsp = m.regs .rsp
  rbp : m'.regs .rbp = m.regs .rbp
  memory : m'.memory = m.memory

namespace SameStack

theorem trans (h : SameStack m m') (h' : SameStack m' m'') : SameStack m m'' :=
  ⟨h'.rsp.trans h.rsp, h'.rbp.trans h.rbp, h'.memory.trans h.memory⟩

theorem keeps (h : SameStack m m') : Keeps d m m' :=
  .of_memory h.rbp h.memory

theorem isDown (h : SameStack m m') (hm : m.IsDown d) : m'.IsDown d := by
  rw [IsDown, h.rsp, h.rbp]
  exact hm

theorem put (hr : r ≠ .rsp ∧ r ≠ .rbp) (m : Machine) (v : Int64) : SameStack m (m.put r v) :=
  ⟨regs_put_of_ne (Ne.symm hr.1) m v, regs_put_of_ne (Ne.symm hr.2) m v, rfl⟩

theorem flagged (m : Machine) (flags : Option Flags) : SameStack m (m.flagged flags) :=
  ⟨rfl, rfl, rfl⟩

end SameStack

theorem cell_setWord (m : Machine) (d : Int) (v : Int64) :
    (m.setWord (m.regs .rbp - Int64.ofInt d) v).cell d = v :=
  m.memory.word_setWord _ v

/-- A cell stays when a word is stored **at least a word away** from it. -/
theorem cell_setWord_apart (h : d + 8 ≤ x ∨ x + 8 ≤ d) (hd : 0 ≤ d ∧ d + 8 ≤ 2 ^ 64)
    (hx : 0 ≤ x ∧ x + 8 ≤ 2 ^ 64) (m : Machine) (v : Int64) :
    (m.setWord (m.regs .rbp - Int64.ofInt d) v).cell x = m.cell x := by
  have hgap := Memory.gap_below (m.regs .rbp) d x
  rw [cell, memory_setWord, regs_setWord]
  exact m.memory.word_setWord_apart (by omega) (by omega)

/-! ## Pushing and popping -/

/-- A word has been put **on top of the stack**, which reached down to there before. -/
structure Pushed (d : Int) (v : Int64) (m m' : Machine) : Prop extends Keeps d m m' where
  down : m'.IsDown (d + 8)
  top : m'.cell (d + 8) = v

theorem Pushed.of_keeps (h : Keeps d m m') (h' : Pushed d v m' m'') : Pushed d v m m'' :=
  ⟨h.trans h'.toKeeps, h'.down, h'.top⟩

theorem pushed_pushWord (hm : m.IsDown d) (hd : 0 ≤ d ∧ d + 16 ≤ 2 ^ 64) (v : Int64) :
    Pushed d v m (m.pushWord v) := by
  have hrsp : m.regs .rsp - 8 = m.regs .rbp - Int64.ofInt (d + 8) := by
    rw [hm, Int64.ofInt_add]
    grind
  have hcell (x : Int) : (m.pushWord v).cell x =
      (m.setWord (m.regs .rbp - Int64.ofInt (d + 8)) v).cell x := by
    rw [← hrsp]
    rfl
  refine ⟨⟨rfl, fun x h₀ hx => ?_⟩, hrsp, ?_⟩
  · rw [hcell, cell_setWord_apart (by omega) (by omega) (by omega)]
  · rw [hcell, cell_setWord]

/-- A word has been taken off the stack **into a register**. -/
structure Popped (d : Int) (r : Reg) (m m' : Machine) : Prop where
  value : m'.regs r = m.cell (d + 8)
  down : m'.IsDown d
  memory : m'.memory = m.memory
  rbp : m'.regs .rbp = m.regs .rbp
  regs : ∀ r', r' ≠ r → r' ≠ .rsp → m'.regs r' = m.regs r'

theorem exec_pop (env : Environment) (hm : m.IsDown (d + 8)) (hr : r ≠ .rsp ∧ r ≠ .rbp) :
    ∃ m', (Instr.pop r).exec env m = some m' ∧ Popped d r m m' := by
  have hne : Reg.rbp ≠ .rsp := by decide
  refine ⟨_, rfl, ?_, ?_, rfl, ?_, fun r' h h' => ?_⟩
  · rw [regs_put_self, hm]
    rfl
  · rw [IsDown, regs_put_of_ne (Ne.symm hr.1), regs_put_self, regs_put_of_ne (Ne.symm hr.2),
      regs_put_of_ne hne, hm, Int64.ofInt_add]
    grind
  · rw [regs_put_of_ne (Ne.symm hr.2), regs_put_of_ne hne]
  · rw [regs_put_of_ne h, regs_put_of_ne h']

theorem Popped.keeps (h : Popped d r m m') : Keeps x m m' :=
  .of_memory h.rbp h.memory

/-- A word is taken off the stack into no register. -/
theorem exec_discard (env : Environment) (hm : m.IsDown (d + 8)) :
    ∃ m', (Instr.addConst .rsp 8).exec env m = some m' ∧ m'.IsDown d ∧ ∀ x, Keeps x m m' := by
  have hne : Reg.rbp ≠ .rsp := by decide
  have hrbp : (m.put .rsp (m.regs .rsp + .ofInt 8)).regs .rbp = m.regs .rbp := regs_put_of_ne hne _ _
  refine ⟨_, rfl, ?_, fun x => .of_memory hrbp rfl⟩
  rw [IsDown, regs_flagged, regs_put_self, hrbp, hm, Int64.ofInt_add]
  grind

/-! ## Words in a row -/

/-- The words stand on the stack one after the other, the first **at the bottom**. -/
def Holds (m : Machine) : Int → List Int64 → Prop
  | _, [] => True
  | d, v :: vs => m.cell (d + 8) = v ∧ m.Holds (d + 8) vs

end Machine

/-! ## Room -/

/-- Whether the line puts a word on the stack. -/
def Line.pushes : Line → Bool
  | .instr (.push _) | .instr (.pushAt _) => true
  | _ => false

/-- How many words the listing puts on the stack, **if none is taken off**. -/
def Listing.pushes (l : Listing) : Nat :=
  l.countP Line.pushes

@[simp] theorem Listing.pushes_append (l m : Listing) : (l ++ m).pushes = l.pushes + m.pushes :=
  List.countP_append

end StackCompiler
