import StackCompiler.Proofs.Lowering.Functions

/-!
# Proofs/Lowering/Parameters — how parameters come into their slots

The prologue of a function stores the registers of arguments in the slots of the parameters, from the
first to the last: a string takes two registers, and a value of one byte leaves **its low byte**.  The
slots lie apart, so what one store has put there the next ones leave; and no other byte is changed
(`exec_receive`).
-/

namespace StackCompiler

open Machine

/-! ## Slots -/

namespace Variable

variable {v v' : Variable} {base a : Int64} {memory memory' : Memory} {words : List Int64}

/-- The lowest address of the variable's slot in the frame with that base. -/
def low (v : Variable) (base : Int64) : Int64 :=
  base - Int64.ofInt v.offset

/-- The address is one of the variable's slot. -/
def Covers (v : Variable) (base a : Int64) : Prop :=
  (Memory.gap (v.low base) a : Int) < v.ty.size

/-- The words are those of the value in the variable's slot: of a string **its address at the low end
and its length a word above**, and of what takes one byte the word's low byte. -/
inductive Holds (v : Variable) (base : Int64) (memory : Memory) : List Int64 → Prop
  | word {w} : v.ty.size = 8 → memory.word (v.low base) = w → Holds v base memory [w]
  | byte {w} : v.ty.size = 1 → memory (v.low base) = lowByte w → Holds v base memory [w]
  | string {start length} : v.ty = .string → memory.word (v.low base) = start →
    memory.word (v.low base + 8) = length → Holds v base memory [start, length]

/-- What a slot holds is told by **the bytes of the slot**. -/
theorem Holds.congr (h : v.Holds base memory words)
    (heq : ∀ a, v.Covers base a → memory' a = memory a) : v.Holds base memory' words := by
  unfold Covers at heq
  cases h with
  | word hsize hword =>
    exact .word hsize ((Memory.word_congr fun x hx => heq x (by omega)).trans hword)
  | byte hsize hbyte => exact .byte hsize ((heq _ (by rw [Memory.gap_self]; omega)).trans hbyte)
  | string hty hstart hlength =>
    have hsize : v.ty.size = 16 := by rw [hty]; rfl
    refine .string hty ((Memory.word_congr fun x hx => heq x (by omega)).trans hstart)
      ((Memory.word_congr fun x hx => heq x ?_).trans hlength)
    rw [Memory.gap_via _ (v.low base + 8), Memory.gap_next]
    omega

/-- Slots below a frame's base that do not overlap **have no address in common**. -/
theorem not_covers_of_apart (h : Typing.Apart v v') (hv : v.ty.size ≤ v.offset)
    (hv' : v'.ty.size ≤ v'.offset) (ho : v.offset ≤ Word.greatest) (ho' : v'.offset ≤ Word.greatest)
    (ha : v.Covers base a) : ¬v'.Covers base a := by
  have hvia := Memory.gap_via (v'.low base) (v.low base) a
  have hgap : Memory.gap (v'.low base) (v.low base) = ((v'.offset - v.offset) % 2 ^ 64).toNat :=
    Memory.gap_below base v'.offset v.offset
  unfold Covers at *
  unfold Typing.Apart at h
  unfold Word.greatest at ho ho'
  omega

end Variable

/-- The words of values of these types one after the other, **cut into those of each**. -/
def Ty.shares : List Ty → List Int64 → List (List Int64)
  | [], _ => []
  | t :: ts, ws => ws.take t.words :: shares ts (ws.drop t.words)

/-- A value that is no array takes one word of eight bytes or of one, or two **of eight each**. -/
theorem Ty.words_of_value {t : Ty} (hr : t.isResolved = true) (ha : t.isArray = false) :
    t = .string ∧ t.words = 2 ∧ t.size = 16 ∨
      t.isString = false ∧ t.words = 1 ∧ (t.size = 1 ∨ t.size = 8) := by
  cases t with
  | unknown => cases hr
  | array => cases ha
  | string => exact .inl ⟨rfl, rfl, rfl⟩
  | bool | int8 => exact .inr ⟨rfl, rfl, .inl rfl⟩
  | int32 | int | ptr => exact .inr ⟨rfl, rfl, .inr rfl⟩

namespace Lowering

variable (env : Environment) {p : Program} {f : Function}

/-! ## Moving parameters -/

/-- **A parameter is moved into its slot**, and no other byte is changed. -/
theorem exec_spill {v : Variable} (hr : v.ty.isResolved = true) (ha : v.ty.isArray = false)
    {regs rest : List Reg} {instrs : List Instr} (h : spill v regs = .ok (instrs, rest))
    (m : Machine) :
    ∃ m', execAll env instrs m = some m' ∧ m'.regs = m.regs ∧
      v.Holds (m.regs .rbp) m'.memory ((regs.map m.regs).take v.ty.words) ∧
      rest = regs.drop v.ty.words ∧
      ∀ a, ¬v.Covers (m.regs .rbp) a → m'.memory a = m.memory a := by
  unfold Variable.Covers
  cases regs with
  | nil => cases h
  | cons reg regs =>
  rcases Ty.words_of_value hr ha with ⟨hty, hwords, hsize⟩ | ⟨hs, hwords, hsize⟩
  · have hs : v.ty.isString = true := by rw [hty]; rfl
    cases regs with
    | nil => simp only [spill, hs, if_true] at h; cases h
    | cons next regs =>
    simp only [spill, hs, if_true] at h
    cases h
    have hplace : m.regs .rbp - Int64.ofInt (v.offset - 8) = v.low (m.regs .rbp) + 8 := by
      rw [Variable.low, Int64.ofInt_sub]
      grind
    obtain ⟨hstart, hlength, happart⟩ := m.memory.setWord_setWord (v.low (m.regs .rbp)) (m.regs reg)
      (m.regs next)
    refine ⟨_, congrArg (fun a => some ((m.setWord (v.low (m.regs .rbp)) (m.regs reg)).setWord a
      (m.regs next))) hplace, rfl, ?_, by rw [hwords]; rfl, fun a ha => happart a (by omega)⟩
    rw [hwords]
    exact .string hty hstart hlength
  · simp only [spill, hs, Bool.false_eq_true, if_false] at h
    rcases hsize with hsize | hsize
    · rw [if_pos hsize] at h
      cases h
      refine ⟨_, rfl, rfl, ?_, by rw [hwords]; rfl, fun a ha => Memory.store_apart _ ?_⟩
      · rw [hwords]
        exact .byte hsize (Memory.store_singleton _ _ _)
      · change 1 ≤ Memory.gap (v.low (m.regs .rbp)) a
        omega
    · rw [if_neg (by omega)] at h
      cases h
      refine ⟨_, rfl, rfl, ?_, by rw [hwords]; rfl, fun a ha => Memory.setWord_apart _ ?_⟩
      · rw [hwords]
        exact .word hsize (Memory.word_setWord _ _ _)
      · change 8 ≤ Memory.gap (v.low (m.regs .rbp)) a
        omega

/-- What the moves of parameters come to: each slot holds the share of its parameter, and **every byte
outside the slots** is what it was. -/
structure Moved (p : Program) (ids : List VarId) (base : Int64) (shares : List (List Int64))
    (memory memory' : Memory) : Prop where
  slots : List.Forall₂ (fun id words => ∃ v, p.vars[id]? = some v ∧ v.Holds base memory' words)
    ids shares
  outside : ∀ a, (∀ id ∈ ids, ∀ v, p.vars[id]? = some v → ¬v.Covers base a) → memory' a = memory a

/-- The variables can be moved into their slots: their values are no arrays, and **no slot overlaps
another**. -/
structure Movable (p : Program) (ids : List VarId) : Prop where
  values : ∀ id ∈ ids, ∃ v, p.vars[id]? = some v ∧ v.ty.isResolved = true ∧ v.ty.isArray = false
  disjoint : ids.Pairwise fun id id' => ∀ v v', p.vars[id]? = some v → p.vars[id']? = some v' →
    ∀ base a, v.Covers base a → ¬v'.Covers base a

/-- The parameters of a typed function **can be moved**. -/
theorem movable_of_typed {strings : Nat} {signatures : List Typing.Signature}
    (hf : f.Typed p.vars strings signatures) : Movable p f.params := by
  have hbounds : ∀ id ∈ f.locals, ∀ v, p.vars[id]? = some v → v.ty.size ≤ v.offset ∧
      v.offset ≤ Word.greatest := fun id hid v hv => by
    obtain ⟨w, hw, -, -, -, hsize, hframe⟩ := hf.locals id hid
    cases hv.symm.trans hw
    exact ⟨hsize, hframe.trans hf.frame.2.2⟩
  refine ⟨fun id hid => hf.exists_param hid, (hf.ascending.sublist hf.params.sublist).imp_of_mem
    fun hid hid' hlt v v' hv hv' _ _ ha => ?_⟩
  have hid := hf.params.subset hid
  have hid' := hf.params.subset hid'
  obtain ⟨hsize, ho⟩ := hbounds _ hid v hv
  obtain ⟨hsize', ho'⟩ := hbounds _ hid' v' hv'
  exact Variable.not_covers_of_apart (hf.apart _ hid _ hid' (Nat.ne_of_lt hlt) v v' hv hv') hsize
    hsize' ho ho' ha

/-- **The parameters are moved into their slots one after the other**, and each stays there while the
others are moved. -/
theorem exec_moves {ids : List VarId} (h : Movable p ids) :
    ∀ {regs : List Reg} {moves : List Instr}, spills p ids regs = .ok moves → ∀ m : Machine,
      ∃ m', execAll env moves m = some m' ∧ m'.regs = m.regs ∧
        Moved p ids (m.regs .rbp) (Ty.shares (ids.map (Typing.tyOf p.vars)) (regs.map m.regs))
          m.memory m'.memory := by
  induction ids with
  | nil =>
    intro regs moves h m
    cases h
    exact ⟨m, rfl, rfl, .nil, fun _ _ => rfl⟩
  | cons id ids ih =>
    intro regs moves hmoves m
    obtain ⟨⟨v, hv, hr, ha⟩, hvalues⟩ := List.forall_mem_cons.mp h.values
    obtain ⟨hfirst, hdisjoint⟩ := List.pairwise_cons.mp h.disjoint
    obtain ⟨w, instrs, rest, later, hw, hspill, hlater, rfl⟩ := spills_cons_ok hmoves
    cases hv.symm.trans hw
    obtain ⟨m₁, hm₁, hregs₁, hholds, rfl, houtside₁⟩ := exec_spill env hr ha hspill m
    obtain ⟨m₂, hm₂, hregs₂, hmoved⟩ := ih ⟨hvalues, hdisjoint⟩ hlater m₁
    rw [hregs₁, List.map_drop] at hmoved
    refine ⟨m₂, ?_, hregs₂.trans hregs₁, ?_, fun a ha => ?_⟩
    · rw [execAll_append, hm₁]
      exact hm₂
    · rw [List.map_cons, Typing.tyOf_eq hv, Ty.shares]
      refine .cons ⟨v, hv, hholds.congr fun a ha => hmoved.outside a fun id' hid' v' hv' => ?_⟩
        hmoved.slots
      exact hfirst id' hid' v v' hv hv' _ a ha
    · obtain ⟨hid, hids⟩ := List.forall_mem_cons.mp ha
      exact (hmoved.outside a hids).trans (houtside₁ a (hid v hv))

/-! ## Entering a function -/

/-- A function that was called at the machine `called` has received its parameters: its base is right
under the return address, its parameters have come into their slots, and **all other bytes are what
keeping the caller's `rbp` leaves**. -/
structure Received (p : Program) (f : Function) (shares : List (List Int64)) (called m : Machine) :
    Prop where
  base : m.regs .rbp = called.regs .rsp - 8
  moved : Moved p f.params (m.regs .rbp) shares (called.pushWord (called.regs .rbp)).memory m.memory

/-- The frame is set up by **keeping the caller's `rbp`**, and no other byte is written. -/
theorem exec_frame (frame : Int) (m : Machine) :
    ∃ m', execAll env (prologue frame) m = some m' ∧ m'.regs .rbp = m.regs .rsp - 8 ∧
      m'.memory = (m.pushWord (m.regs .rbp)).memory ∧
      ∀ r, r ≠ .rsp → r ≠ .rbp → m'.regs r = m.regs r := by
  obtain ⟨m₁, hm₁, hentered, hdown, hmemory, -, hregs⟩ := exec_entering env m
  unfold prologue
  rw [execAll_append, hm₁, Option.bind_some]
  split
  · obtain ⟨m₂, hm₂, -, hmemory₂, hregs₂⟩ := exec_reserve env hdown frame
    exact ⟨m₂, congrArg (Option.bind · some) hm₂, (hregs₂ .rbp (by decide)).trans hentered.base,
      hmemory₂.trans hmemory, fun r hr hr' => (hregs₂ r hr).trans (hregs r hr hr')⟩
  · exact ⟨m₁, rfl, hentered.base, hmemory, hregs⟩

/-- **A function that is called receives its parameters.** -/
theorem exec_receive {strings : Nat} {signatures : List Typing.Signature}
    (hf : f.Typed p.vars strings signatures) {moves : List Instr}
    (h : spills p f.params argumentRegs = .ok moves) (called : Machine) :
    ∃ m, execAll env (prologue f.frame ++ moves) called = some m ∧
      Received p f (Ty.shares (f.params.map (Typing.tyOf p.vars)) (argumentRegs.map called.regs))
        called m := by
  obtain ⟨m₁, hm₁, hbase, hmemory, hregs⟩ := exec_frame env f.frame called
  obtain ⟨m₂, hm₂, hregs₂, hmoved⟩ := exec_moves env (movable_of_typed hf) h m₁
  have hargs : argumentRegs.map m₁.regs = argumentRegs.map called.regs :=
    List.map_congr_left fun r hr => hregs r (by rintro rfl; revert hr; decide)
      (by rintro rfl; revert hr; decide)
  refine ⟨m₂, ?_, hregs₂ ▸ hbase, ?_⟩
  · rw [execAll_append, hm₁]
    exact hm₂
  · rwa [hregs₂, ← hargs, ← hmemory]

end Lowering

end StackCompiler
