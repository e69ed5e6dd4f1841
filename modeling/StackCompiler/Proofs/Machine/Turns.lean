import StackCompiler.Proofs.Machine.Stack

/-!
# Proofs/Machine/Turns — code that takes words off the stack and leaves others

A piece of code is told by what it makes of **the words on top of the stack**: it takes some, leaves
others, and changes no memory but a room below the first word and the blocks that it is for
(`Listing.Turns`).  Pieces one after the other turn what the one has left (`Turns.append`).  The room
that a listing needs is its `peak`, the most words that it has on the stack at a time.
-/

namespace StackCompiler

/-! ## Blocks -/

/-- So many bytes of memory, from an address on. -/
structure Block where
  start : Int64
  bytes : Nat
deriving DecidableEq, Repr

namespace Block

/-- The address is one of the block. -/
def Covers (b : Block) (a : Int64) : Prop :=
  Memory.gap b.start a < b.bytes

instance (b : Block) (a : Int64) : Decidable (b.Covers a) :=
  inferInstanceAs (Decidable (_ < _))

/-- The blocks have **no address in common**. -/
def Apart (b c : Block) : Prop :=
  ∀ a, b.Covers a → ¬c.Covers a

theorem Apart.symm {b c : Block} (h : b.Apart c) : c.Apart b :=
  fun a hc hb => h a hb hc

/-- A block that starts behind the other one and ends before it comes round **is apart from it**. -/
theorem apart_of_gap {b c : Block} (h : b.bytes ≤ Memory.gap b.start c.start ∧
    Memory.gap b.start c.start + c.bytes ≤ 2 ^ 64) : b.Apart c := by
  intro a hb hc
  have hvia := Memory.gap_via b.start c.start a
  unfold Covers at hb hc
  omega

/-- The bytes below an address. -/
def below (top : Int64) (bytes : Nat) : Block :=
  ⟨top - .ofNat bytes, bytes⟩

/-- A block that is as large as the memory is apart **from nothing**. -/
theorem Apart.bytes_lt {b c : Block} (h : b.Apart c) (hc : 0 < c.bytes) : b.bytes < 2 ^ 64 := by
  by_contra hlarge
  refine h c.start ?_ ?_
  · have hlt := Memory.gap_lt b.start c.start
    unfold Covers
    omega
  · unfold Covers
    rwa [Memory.gap_self]

end Block

/-- The bytes of the block. -/
def Memory.bytesOf (m : Memory) (b : Block) : List UInt8 :=
  m.load b.start b.bytes

/-- Bytes are told by **the addresses of their block**. -/
theorem Memory.bytesOf_congr {m m' : Memory} {b : Block} (hb : b.bytes ≤ 2 ^ 64)
    (h : ∀ a, b.Covers a → m' a = m a) : m'.bytesOf b = m.bytesOf b := by
  refine List.map_congr_left fun i hi => h _ ?_
  have hi := List.mem_range.mp hi
  unfold Block.Covers
  rw [gap_add (by rw [gap_self]; omega), gap_self]
  omega

/-! ## The most words at a time -/

/-- The most words that the listing has on the stack **at a time**, over those that were there. -/
def Listing.peak : Listing → Nat
  | [] => 0
  | line :: l => (line.growth + peak l).toNat

@[simp] theorem Listing.peak_nil : peak [] = 0 := rfl

/-- The peak is in the one part or in the other, which starts **where the one has left the stack**. -/
theorem Listing.peak_append (l m : Listing) :
    (l ++ m).peak = max l.peak (l.growth + m.peak).toNat := by
  induction l with
  | nil => simp
  | cons line l ih =>
    rw [List.cons_append, peak, peak, growth_cons, ih]
    omega

/-! ## The words on the stack -/

/-- The words stand one after the other, the first **at the address**. -/
def Memory.Lists (m : Memory) : Int64 → List Int64 → Prop
  | _, [] => True
  | a, w :: ws => m.word a = w ∧ m.Lists (a + 8) ws

theorem Memory.Lists.congr {m m' : Memory} {ws : List Int64} : ∀ {a : Int64}, m.Lists a ws →
    8 * ws.length ≤ 2 ^ 64 → (∀ x, gap a x < 8 * ws.length → m' x = m x) → m'.Lists a ws := by
  induction ws with
  | nil => exact fun _ _ _ => trivial
  | cons w ws ih =>
    intro a h hlen hsame
    rw [List.length_cons] at hlen hsame
    refine ⟨(word_congr fun x hx => hsame x (by omega)).trans h.1,
      ih h.2 (by omega) fun x hx => hsame x ?_⟩
    have hvia := gap_via a (a + 8) x
    rw [gap_next] at hvia
    omega

/-- The stack holds the words, the first **on top**, and ends at an address. -/
structure Machine.Carries (m : Machine) (top : Int64) (ws : List Int64) : Prop where
  rsp : m.regs .rsp = top - .ofNat (8 * ws.length)
  words : m.memory.Lists (m.regs .rsp) ws

/-- What a piece of code works in: a stack that ends at an address and has room for so many words. -/
structure Stage where
  env : Environment
  top : Int64
  room : Nat
  fits : 8 * room < 2 ^ 64

/-- The words that the stack may have. -/
def Stage.stack (s : Stage) : Block :=
  .below s.top (8 * s.room)

/-! ## Turning words into others -/

/-- Running through the listing turns the words `ws` of the stack into `ws'`; of the memory it changes
only the stack and the blocks. -/
structure Listing.Turns (s : Stage) (changed : List Block) (l : Listing) (ws ws' : List Int64)
    (m m' : Machine) : Prop where
  leads : l.Leads s.env m m'
  growth : (ws'.length : Int) = ws.length + l.growth
  rbp : m'.regs .rbp = m.regs .rbp
  carries : m'.Carries s.top ws'
  outside : ∀ a, ¬s.stack.Covers a → (∀ b ∈ changed, ¬b.Covers a) → m'.memory a = m.memory a

namespace Listing.Turns

variable {s : Stage} {changed changed' : List Block} {l l' : Listing} {ws ws' ws'' : List Int64}
  {m m' m'' : Machine}

theorem nil (h : m.Carries s.top ws) : Turns s changed [] ws ws m m :=
  ⟨.nil m, (Int.add_zero _).symm, rfl, h, fun _ _ _ => rfl⟩

/-- **One after the other.** -/
theorem append (h : l.Turns s changed ws ws' m m') (h' : l'.Turns s changed ws' ws'' m' m'') :
    (l ++ l').Turns s changed ws ws'' m m'' where
  leads := h.leads.append h'.leads
  growth := by rw [growth_append, h'.growth, h.growth, Int.add_assoc]
  rbp := h'.rbp.trans h.rbp
  carries := h'.carries
  outside a hs hb := (h'.outside a hs hb).trans (h.outside a hs hb)

theorem mono (h : l.Turns s changed ws ws' m m') (hsub : changed ⊆ changed') :
    l.Turns s changed' ws ws' m m' :=
  { h with outside := fun a hs hb => h.outside a hs fun b hmem => hb b (hsub hmem) }

/-- A block that is apart from the stack and from all that is changed **keeps its bytes**. -/
theorem bytesOf_eq (h : l.Turns s changed ws ws' m m') {b : Block} (hb : b.bytes ≤ 2 ^ 64)
    (hstack : s.stack.Apart b) (hchanged : ∀ c ∈ changed, c.Apart b) :
    m'.memory.bytesOf b = m.memory.bytesOf b :=
  Memory.bytesOf_congr hb fun a ha => h.outside a (fun hs => hstack a hs ha)
    fun c hc hca => hchanged c hc a hca ha

end Listing.Turns

/-! ## Single instructions -/

namespace Machine

variable {s : Stage} {m m' : Machine} {ws : List Int64} {w v : Int64} {r : Reg}

/-- The topmost word stands in the room of the stack, **behind the words that it still has**. -/
theorem Carries.gap_rsp (h : m.Carries s.top ws) (hroom : ws.length ≤ s.room) :
    Memory.gap s.stack.start (m.regs .rsp) = 8 * (s.room - ws.length) := by
  have hfits := s.fits
  have hsum : Int64.ofNat (8 * s.room) =
      .ofNat (8 * (s.room - ws.length)) + .ofNat (8 * ws.length) := by
    rw [← Int64.ofNat_add]
    exact congrArg Int64.ofNat (by omega)
  have hplace : m.regs .rsp = s.stack.start + .ofNat (8 * (s.room - ws.length)) := by
    change _ = s.top - Int64.ofNat (8 * s.room) + _
    rw [h.rsp, hsum]
    grind
  rw [hplace, Memory.gap_add (by rw [Memory.gap_self]; omega), Memory.gap_self, Nat.zero_add]

/-- Words stay on the stack as long as **its register and its bytes** are what they were. -/
theorem Carries.of_sameStack (h : m.Carries s.top ws) (hsame : SameStack m m') :
    m'.Carries s.top ws := by
  refine ⟨hsame.rsp.trans h.rsp, ?_⟩
  rw [hsame.rsp, hsame.memory]
  exact h.words

/-- What leaves the stack as it is turns **nothing into anything else**. -/
theorem turns_of_sameStack (changed : List Block) {instrs : List Instr} (h : execAll s.env instrs m = some m')
    (hsame : SameStack m m') (hgrowth : (Listing.ofInstrs instrs).growth = 0)
    (hm : m.Carries s.top ws) : (Listing.ofInstrs instrs).Turns s changed ws ws m m' where
  leads := ⟨_, rfl, h⟩
  growth := by rw [hgrowth, Int.add_zero]
  rbp := hsame.rbp
  carries := hm.of_sameStack hsame
  outside _ _ _ := congrFun hsame.memory _

/-- A register other than those of the stack is set. -/
theorem turns_put (changed : List Block) {i : Instr} (h : i.exec s.env m = some (m.put r v)) (hgrowth : i.growth = 0)
    (hr : r ≠ .rsp ∧ r ≠ .rbp) (hm : m.Carries s.top ws) :
    (Listing.ofInstrs [i]).Turns s changed ws ws m (m.put r v) := by
  refine turns_of_sameStack changed ?_ (.put hr m v) ?_ hm
  · rw [execAll, h]
    rfl
  · change i.growth + 0 = 0
    rw [hgrowth, Int.add_zero]

/-- **A word is taken off the stack** into a register. -/
theorem turns_pop (changed : List Block) (hr : r ≠ .rsp ∧ r ≠ .rbp) (hm : m.Carries s.top (w :: ws)) :
    ∃ m', (Listing.ofInstrs [.pop r]).Turns s changed (w :: ws) ws m m' ∧ m'.regs r = w ∧
      m'.memory = m.memory ∧ ∀ r', r' ≠ r → r' ≠ .rsp → m'.regs r' = m.regs r' := by
  have hrbp : Reg.rbp ≠ .rsp := by decide
  have hrsp : m.regs .rsp + 8 = s.top - .ofNat (8 * ws.length) := by
    rw [hm.rsp, List.length_cons, Nat.mul_succ, Int64.ofNat_add]
    grind
  refine ⟨(m.put .rsp (m.regs .rsp + 8)).put r (m.memory.word (m.regs .rsp)), ⟨⟨_, rfl, rfl⟩, ?_, ?_,
    ⟨?_, ?_⟩, fun _ _ _ => rfl⟩, ?_, rfl, fun r' h h' => ?_⟩
  · change (ws.length : Int) = (ws.length + 1 : Nat) + (-1 + 0)
    omega
  · rw [regs_put_of_ne (Ne.symm hr.2), regs_put_of_ne hrbp]
  · rw [regs_put_of_ne (Ne.symm hr.1), regs_put_self, hrsp]
  · rw [regs_put_of_ne (Ne.symm hr.1), regs_put_self]
    exact hm.words.2
  · rw [regs_put_self]
    exact hm.words.1
  · rw [regs_put_of_ne h, regs_put_of_ne h']

/-- Words that are side by side on the stack are taken off **into no register**. -/
theorem turns_discard (changed : List Block) (us : List Int64) (hm : m.Carries s.top (us ++ ws)) :
    ∃ m', (Listing.ofInstrs [.addConst .rsp (8 * us.length)]).Turns s changed (us ++ ws) ws m m' ∧
      m'.memory = m.memory := by
  have hrbp : Reg.rbp ≠ .rsp := by decide
  have hlists : ∀ (us : List Int64) (a : Int64), m.memory.Lists a (us ++ ws) →
      m.memory.Lists (a + .ofNat (8 * us.length)) ws := by
    intro us
    induction us with
    | nil => exact fun a h => (Int64.add_zero a).symm ▸ h
    | cons u us ih =>
      intro a h
      have hnext := ih (a + 8) h.2
      rw [List.length_cons, Nat.mul_succ, Nat.add_comm, Int64.ofNat_add, ← Int64.add_assoc]
      exact hnext
  have hint : Int64.ofInt (8 * (us.length : Int)) = .ofNat (8 * us.length) :=
    Int64.ofInt_eq_ofNat (n := 8 * us.length)
  have hregs : ((m.put .rsp (m.regs .rsp + .ofInt (8 * us.length))).flagged
      (some (.ofAdd (m.regs .rsp) (.ofInt (8 * us.length))))).regs .rsp =
      m.regs .rsp + .ofNat (8 * us.length) := by
    rw [regs_flagged, regs_put_self, hint]
  refine ⟨_, ⟨⟨_, rfl, rfl⟩, ?_, ?_, ⟨?_, ?_⟩, fun _ _ _ => rfl⟩, rfl⟩
  · change (ws.length : Int) = (us ++ ws).length + (-(8 * us.length / 8) + 0)
    rw [List.length_append]
    omega
  · rw [regs_flagged, regs_put_of_ne hrbp]
  · rw [hregs, hm.rsp, List.length_append, Nat.mul_add, Int64.ofNat_add]
    grind
  · rw [hregs]
    exact hlists us _ hm.words

/-- **A word is put on the stack**, if there is room for it. -/
theorem turns_pushWord (changed : List Block) {i : Instr} (h : i.exec s.env m = some (m.pushWord v)) (hgrowth : i.growth = 1)
    (hm : m.Carries s.top ws) (hroom : ws.length < s.room) :
    (Listing.ofInstrs [i]).Turns s changed ws (v :: ws) m (m.pushWord v) := by
  have hfits := s.fits
  have hrsp : (m.pushWord v).regs .rsp = m.regs .rsp - 8 := by
    rw [pushWord, regs_setWord, regs_put_self]
  have hnext : m.regs .rsp - 8 + 8 = m.regs .rsp := Int64.sub_add_cancel _ _
  have hcarries : (m.pushWord v).Carries s.top (v :: ws) := by
    refine ⟨?_, ?_, ?_⟩
    · rw [hrsp, hm.rsp, List.length_cons, Nat.mul_succ, Int64.ofNat_add]
      grind
    · rw [hrsp]
      exact Memory.word_setWord _ _ _
    · rw [hrsp, hnext]
      refine hm.words.congr (by omega) fun x hx => Memory.setWord_apart _ ?_
      have hvia := Memory.gap_via (m.regs .rsp - 8) (m.regs .rsp) x
      have hgap := Memory.gap_next (m.regs .rsp - 8)
      rw [hnext] at hgap
      omega
  refine ⟨⟨_, rfl, ?_⟩, ?_, rfl, hcarries, fun a ha _ => Memory.setWord_apart _ ?_⟩
  · rw [execAll, h]
    rfl
  · change ((ws.length + 1 : Nat) : Int) = ws.length + (i.growth + 0)
    rw [hgrowth]
    omega
  · have hplace := hcarries.gap_rsp hroom
    rw [hrsp, List.length_cons] at hplace
    have hvia := Memory.gap_via s.stack.start (m.regs .rsp - 8) a
    have hlt := Memory.gap_lt (m.regs .rsp - 8) a
    change ¬Memory.gap s.stack.start a < 8 * s.room at ha
    omega

/-- Bytes that are stored **in a block** change nothing else. -/
theorem turns_write {i : Instr} (b : Block) (memory : Memory)
    (h : i.exec s.env m = some { m with memory := memory }) (hgrowth : i.growth = 0)
    (hmemory : ∀ a, ¬b.Covers a → memory a = m.memory a) (hm : m.Carries s.top ws)
    (hb : s.stack.Apart b) (hroom : ws.length ≤ s.room) :
    (Listing.ofInstrs [i]).Turns s [b] ws ws m { m with memory := memory } := by
  have hfits := s.fits
  refine ⟨⟨_, rfl, ?_⟩, ?_, rfl, ⟨hm.rsp, hm.words.congr (by omega) fun x hx => ?_⟩, fun a _ ha => ?_⟩
  · rw [execAll, h]
    rfl
  · change (ws.length : Int) = ws.length + (i.growth + 0)
    rw [hgrowth]
    omega
  · refine hmemory x (hb x ?_)
    have hplace := hm.gap_rsp hroom
    have hvia := Memory.gap_via s.stack.start (m.regs .rsp) x
    change Memory.gap s.stack.start x < 8 * s.room
    omega
  · exact hmemory a (ha b List.mem_cons_self)

end Machine

end StackCompiler
