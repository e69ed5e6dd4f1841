import StackCompiler.Proofs.Lowering.Parameters
import StackCompiler.Proofs.Lowering.References
import StackCompiler.Proofs.Machine.Turns

/-!
# Proofs/Lowering/Values — values on the stack and in memory

A value is one word on the stack, a string two, and it takes as many bytes in memory as its type is
large: **all bytes of its words, or the low byte of its one word**.  What the code loads and stores is
told by the words that it takes off the stack and those that it leaves there (`turns_load`,
`turns_store`).
-/

namespace StackCompiler

open Machine

/-! ## Words and bytes of a value -/

/-- The words of the value that stands in memory at an address: a byte is widened **as its type asks
for**. -/
def Ty.wordsAt (m : Memory) (a : Int64) : Ty → List Int64
  | .string => [m.word a, m.word (a + 8)]
  | .int8 => [(m a).toInt8.toInt64]
  | .bool => [.ofNat (m a).toNat]
  | _ => [m.word a]

/-- The bytes that a value of the type has in memory: of both words if it is a string, and **the low
byte** of its word if it takes one byte. -/
def Ty.bytesOf (t : Ty) (words : List Int64) : List UInt8 :=
  if t.size = 1 then words.map lowByte else words.flatMap fun w => toBytes 8 w.toBitVec.toNat

namespace Memory

variable {m m' : Memory} {a : Int64}

theorem load_add (m : Memory) (a : Int64) (i k : Nat) :
    m.load a (i + k) = m.load a i ++ m.load (a + .ofNat i) k := by
  rw [load, load, load, List.range_add, List.map_append, List.map_map]
  refine congrArg _ (List.map_congr_left fun j _ => congrArg m ?_)
  rw [Int64.ofNat_add]
  grind

/-- The bytes of a word that is stored **are there**. -/
theorem load_setWord (m : Memory) (a v : Int64) :
    (m.setWord a v).load a 8 = toBytes 8 v.toBitVec.toNat := by
  have hbytes : (toBytes 8 v.toBitVec.toNat).length ≤ 2 ^ 64 := by simp
  have hload := m.load_store a hbytes
  rwa [length_toBytes] at hload

/-- The bytes of two words **side by side**. -/
theorem load_setWord_setWord (m : Memory) (a v w : Int64) :
    ((m.setWord a v).setWord (a + 8) w).load a 16 =
      toBytes 8 v.toBitVec.toNat ++ toBytes 8 w.toBitVec.toNat := by
  have hback : gap (a + 8) a = 2 ^ 64 - 8 := by
    have hvia := gap_via a (a + 8) a
    have hnext := gap_next a
    have hlt := gap_lt (a + 8) a
    rw [gap_self] at hvia
    omega
  have hfirst : ((m.setWord a v).setWord (a + 8) w).load a 8 = (m.setWord a v).load a 8 :=
    load_store_apart _ (by rw [length_toBytes]; omega) (by omega)
  have hsecond := load_setWord (m.setWord a v) (a + 8) w
  rw [load_add _ a 8 8, hfirst, load_setWord]
  exact congrArg _ hsecond

end Memory

/-- Words are told by **the bytes of their block**. -/
theorem Ty.wordsAt_congr {t : Ty} (hr : t.isResolved = true) (ha : t.isArray = false)
    {m m' : Memory} {a : Int64} (h : ∀ x, (Block.mk a t.size.toNat).Covers x → m' x = m x) :
    t.wordsAt m' a = t.wordsAt m a := by
  unfold Block.Covers at h
  have hbyte : t.size = 1 → m' a = m a := fun hsize =>
    h a (by rw [hsize, Memory.gap_self]; exact Nat.one_pos)
  have hword : t.size = 8 → m'.word a = m.word a := fun hsize =>
    Memory.word_congr fun x hx => h x (by rw [hsize]; exact hx)
  cases t with
  | unknown => cases hr
  | array => cases ha
  | int8 => exact congrArg (fun b : UInt8 => [b.toInt8.toInt64]) (hbyte rfl)
  | bool => exact congrArg (fun b : UInt8 => [Int64.ofNat b.toNat]) (hbyte rfl)
  | int32 | int | ptr => exact congrArg (fun w : Int64 => [w]) (hword rfl)
  | string =>
    have hsize : Ty.string.size.toNat = 16 := rfl
    rw [hsize] at h
    have hfirst : m'.word a = m.word a := Memory.word_congr fun x hx => h x (by dsimp only; omega)
    have hsecond : m'.word (a + 8) = m.word (a + 8) := Memory.word_congr fun x hx => h x (by
      have hvia := Memory.gap_via a (a + 8) x
      rw [Memory.gap_next] at hvia
      dsimp only
      omega)
    rw [wordsAt, hfirst, hsecond, wordsAt]

theorem Ty.length_wordsAt {t : Ty} (hr : t.isResolved = true) (ha : t.isArray = false) (m : Memory)
    (a : Int64) : (t.wordsAt m a).length = t.words := by
  cases t with
  | unknown => cases hr
  | array => cases ha
  | _ => rfl

namespace Lowering

variable {s : Stage} (changed : List Block) {m : Machine} {l : Listing} {ws : List Int64}
  {a v : Int64} {p : Program}

/-! ## Loading -/

theorem exec_push_rax (h : m.regs .rax = v) : (Instr.push .rax).exec s.env m = some (m.pushWord v) := by
  rw [← h]
  rfl

/-- What one instruction leaves in `rax` is **put on the stack**. -/
theorem turns_pushed {i : Instr} (hi : i.exec s.env m = some (m.put .rax v)) (hgrowth : i.growth = 0)
    (hl : (Code.ofInstrs [i, .push .rax]).Gives l) (hm : m.Carries s.top ws)
    (hroom : ws.length + l.peak ≤ s.room) : ∃ m', l.Turns s changed ws (v :: ws) m m' := by
  have hpeak : (Listing.ofInstrs [i, .push .rax]).peak = 1 := by
    change (i.growth + 1).toNat = 1
    rw [hgrowth]
    rfl
  obtain rfl := hl.ofInstrs
  have hset := turns_put changed hi hgrowth (by decide) hm
  exact ⟨_, hset.append (turns_pushWord changed (exec_push_rax (regs_put_self m _ _)) rfl hset.carries
    (by omega))⟩

/-- An address is put on the stack. -/
theorem turns_pushAddress {place : Address} (hl : (pushAddress place).Gives l)
    (hm : m.Carries s.top ws) (hroom : ws.length + l.peak ≤ s.room) :
    ∃ m', l.Turns s changed ws (m.locate s.env place :: ws) m m' :=
  turns_pushed changed rfl rfl hl hm hroom

/-- The address on the stack is **replaced by a word** that one instruction finds from it. -/
theorem turns_replace {i : Instr} (hi : ∀ m₁ : Machine, m₁.memory = m.memory → m₁.regs .rax = a →
      i.exec s.env m₁ = some (m₁.put .rax v)) (hgrowth : i.growth = 0)
    (hm : m.Carries s.top (a :: ws)) (hroom : (a :: ws).length ≤ s.room) :
    ∃ m', (Listing.ofInstrs [.pop .rax, i, .push .rax]).Turns s changed (a :: ws) (v :: ws) m m' := by
  obtain ⟨m₁, hpop, hrax, hmemory, -⟩ := turns_pop changed (r := .rax) (by decide) hm
  have hset := turns_put changed (hi m₁ hmemory hrax) hgrowth (by decide) hpop.carries
  exact ⟨_, (hpop.append hset).append (turns_pushWord changed (exec_push_rax (regs_put_self m₁ _ _)) rfl
    hset.carries hroom)⟩

/-- **The address on the stack is replaced by the value that stands there.** -/
theorem turns_load {ty : Ty} (hr : ty.isResolved = true) (ha : ty.isArray = false)
    (hl : (load ty).Gives l) (hm : m.Carries s.top (a :: ws))
    (hroom : (a :: ws).length + l.peak ≤ s.room) (hb : s.stack.Apart ⟨a, ty.size.toNat⟩) :
    ∃ m', l.Turns s changed (a :: ws) ((ty.wordsAt m.memory a).reverse ++ ws) m m' := by
  have hroom' : (a :: ws).length ≤ s.room := by omega
  have hplace {m₁ : Machine} (h : m₁.regs .rax = a) : m₁.locate s.env (.above .rax 0) = a :=
    (Int64.add_zero _).trans h
  cases ty with
  | unknown => cases hr
  | array => cases ha
  | int8 | bool | int32 | int | ptr =>
    have hl := hl.ofInstrs
    subst hl
    refine turns_replace changed (fun m₁ hmemory hrax => ?_) rfl hm hroom'
    change some (m₁.put _ _) = _
    rw [hplace hrax, hmemory]
  | string =>
    have hl := hl.ofInstrs
    subst hl
    have hpeak : (Listing.ofInstrs [.pop .rax, .pushAt (.above .rax 0), .pushAt (.above .rax 8)]).peak =
      1 := rfl
    rw [hpeak, List.length_cons] at hroom
    obtain ⟨m₁, hpop, hrax, hmemory, -⟩ := turns_pop [] (r := .rax) (by decide) hm
    have hstart : (Instr.pushAt (.above .rax 0)).exec s.env m₁ =
        some (m₁.pushWord (m.memory.word a)) := by
      change some (m₁.pushWord _) = _
      rw [hplace hrax, hmemory]
    have hfirst := turns_pushWord [] hstart rfl hpop.carries hroom'
    -- the first push is in the stack, so the length is where it was
    have hsecond : (m₁.pushWord (m.memory.word a)).memory.word (a + 8) = m.memory.word (a + 8) := by
      refine Memory.word_congr fun x hx => ((hpop.append hfirst).outside x (fun hs => hb x hs ?_) nofun)
      have hvia := Memory.gap_via a (a + 8) x
      rw [Memory.gap_next] at hvia
      change Memory.gap a x < 16
      omega
    have hlength : (Instr.pushAt (.above .rax 8)).exec s.env (m₁.pushWord (m.memory.word a)) =
        some ((m₁.pushWord (m.memory.word a)).pushWord (m.memory.word (a + 8))) := by
      have hat : (m₁.pushWord (m.memory.word a)).locate s.env (.above .rax 8) = a + 8 := by
        change m₁.regs .rax + 8 = a + 8
        rw [hrax]
      change some (Machine.pushWord _ _) = _
      rw [hat, hsecond]
    exact ⟨_, ((hpop.append hfirst).append (turns_pushWord [] hlength rfl hfirst.carries (by
      rw [List.length_cons]; omega))).mono (List.nil_subset _)⟩

/-- An operation puts its result **in the place of its operands**. -/
theorem turns_operate {op : BinaryOp} {a b : Int64} (h : op.apply a b = some v)
    (hl : (operate op).Gives l) (hm : m.Carries s.top (b :: a :: ws))
    (hroom : (b :: a :: ws).length ≤ s.room) :
    ∃ m', l.Turns s changed (b :: a :: ws) (v :: ws) m m' := by
  rw [List.length_cons, List.length_cons] at hroom
  obtain ⟨m₁, hright, hrdi, -, -⟩ := turns_pop changed (r := .rdi) (by decide) hm
  obtain ⟨m₂, hleft, hrax, -, hregs⟩ :=
    turns_pop changed (r := .rax) (by decide) hright.carries
  obtain ⟨m₃, hm₃, hv, hsame⟩ :=
    exec_combine s.env h hrax ((hregs .rdi (by decide) (by decide)).trans hrdi)
  have hcombine := turns_of_sameStack changed hm₃ hsame (by cases op <;> rfl) hleft.carries
  have hpush := turns_pushWord changed (exec_push_rax hv) rfl hcombine.carries (by omega)
  have hlines : l = Listing.ofInstrs [.pop .rdi] ++ Listing.ofInstrs [.pop .rax] ++
      Listing.ofInstrs (combine op) ++ Listing.ofInstrs [.push .rax] := by
    rw [hl.ofInstrs]
    simp [Listing.ofInstrs]
  exact ⟨_, hlines ▸ ((hright.append hleft).append hcombine).append hpush⟩

/-! ## Storing -/

/-- What is stored in the block, and nothing else, has been changed once the value is **off the
stack**. -/
def Stores (s : Stage) (ty : Ty) (l : Listing) (b : Block) (words ws : List Int64) (m m' : Machine) :
    Prop :=
  l.Turns s [b] (b.start :: (words.reverse ++ ws)) ws m m' ∧ m'.memory.bytesOf b = ty.bytesOf words

/-- A value of one word is stored **by one instruction**, and taken off. -/
theorem stores_word {ty : Ty} {i : Instr} (hgrowth : i.growth = 0) (memory : Memory)
    (hi : ∀ m₁ : Machine, m₁.memory = m.memory → m₁.regs .rax = a → m₁.regs .rdi = v →
      i.exec s.env m₁ = some { m₁ with memory := memory })
    (hmemory : ∀ x, ¬(Block.mk a ty.size.toNat).Covers x → memory x = m.memory x)
    (hbytes : memory.bytesOf ⟨a, ty.size.toNat⟩ = ty.bytesOf [v]) (hsize : ty.size ≤ 16)
    (hm : m.Carries s.top (a :: v :: ws)) (hroom : (a :: v :: ws).length ≤ s.room)
    (hb : s.stack.Apart ⟨a, ty.size.toNat⟩) :
    ∃ m', Stores s ty (Listing.ofInstrs ([.pop .rax, .pop .rdi, i, .push .rdi] ++
      [.addConst .rsp (8 * [v].length)])) ⟨a, ty.size.toNat⟩ [v] ws m m' := by
  rw [List.length_cons, List.length_cons] at hroom
  obtain ⟨m₁, hplace, hrax, hmemory₁, -⟩ :=
    turns_pop [.mk a ty.size.toNat] (r := .rax) (by decide) hm
  obtain ⟨m₂, hvalue, hrdi, hmemory₂, hregs⟩ :=
    turns_pop [.mk a ty.size.toNat] (r := .rdi) (by decide) hplace.carries
  have hstored := turns_write ⟨a, ty.size.toNat⟩ memory (hi m₂ (hmemory₂.trans hmemory₁)
    ((hregs .rax (by decide) (by decide)).trans hrax) hrdi) hgrowth
    (fun x hx => (hmemory x hx).trans (congrFun (hmemory₂.trans hmemory₁).symm x)) hvalue.carries hb
    (by omega)
  have hpush := turns_pushWord [] (i := .push .rdi) (v := v)
    (by rw [← hrdi]; rfl) rfl hstored.carries (by omega)
  obtain ⟨m₅, hoff, hmemory₅⟩ := turns_discard [] [v] hpush.carries
  have hafter := hpush.append hoff
  refine ⟨m₅, ((hplace.append hvalue).append hstored).append (hafter.mono (List.nil_subset _)), ?_⟩
  refine (hafter.bytesOf_eq ?_ hb nofun).trans hbytes
  change ty.size.toNat ≤ 2 ^ 64
  omega

/-- The bytes of a value of one word. -/
theorem bytesOf_singleton {ty : Ty} (hsize : ty.size ≠ 1) (v : Int64) :
    ty.bytesOf [v] = toBytes 8 v.toBitVec.toNat := by
  rw [Ty.bytesOf, if_neg hsize]
  exact List.append_nil _

section Words

variable {ty : Ty} (hm : m.Carries s.top (a :: v :: ws)) (hroom : (a :: v :: ws).length ≤ s.room)
  (hb : s.stack.Apart ⟨a, ty.size.toNat⟩)
include hm hroom hb

/-- Of a value of one byte **the lowest byte** of its word is stored. -/
theorem stores_lowByte (hsize : ty.size = 1) :
    ∃ m', Stores s ty (Listing.ofInstrs ([.pop .rax, .pop .rdi, .storeByte (.above .rax 0) .rdi,
      .push .rdi] ++ [.addConst .rsp (8 * [v].length)])) ⟨a, ty.size.toNat⟩ [v] ws m m' := by
  refine stores_word rfl (m.memory.store a [lowByte v]) (fun m₁ hmemory hrax hrdi => ?_)
    (fun x hx => ?_) ?_ (by omega) hm hroom hb
  · have hplace : m₁.locate s.env (.above .rax 0) = a := (Int64.add_zero _).trans hrax
    change some (m₁.store (m₁.locate s.env _) [lowByte (m₁.regs .rdi)]) = _
    rw [hplace, hrdi, ← hmemory]
    rfl
  · refine Memory.store_apart _ ?_
    unfold Block.Covers at hx
    rw [hsize] at hx
    exact Nat.le_of_not_lt hx
  · rw [Ty.bytesOf, if_pos hsize, Memory.bytesOf, hsize]
    exact m.memory.load_store a (show [lowByte v].length ≤ 2 ^ 64 from Nat.le_of_ble_eq_true rfl)

/-- A value of eight bytes is stored **as its word**. -/
theorem stores_wholeWord (hsize : ty.size = 8) :
    ∃ m', Stores s ty (Listing.ofInstrs ([.pop .rax, .pop .rdi, .store (.above .rax 0) .rdi,
      .push .rdi] ++ [.addConst .rsp (8 * [v].length)])) ⟨a, ty.size.toNat⟩ [v] ws m m' := by
  refine stores_word rfl (m.memory.setWord a v) (fun m₁ hmemory hrax hrdi => ?_)
    (fun x hx => ?_) ?_ (by omega) hm hroom hb
  · have hplace : m₁.locate s.env (.above .rax 0) = a := (Int64.add_zero _).trans hrax
    change some (m₁.setWord (m₁.locate s.env _) (m₁.regs .rdi)) = _
    rw [hplace, hrdi, ← hmemory]
    rfl
  · refine Memory.setWord_apart _ ?_
    unfold Block.Covers at hx
    rw [hsize] at hx
    exact Nat.le_of_not_lt hx
  · rw [bytesOf_singleton (by omega), Memory.bytesOf, hsize]
    exact m.memory.load_setWord a v

end Words

/-- A string is stored **from its length down**, and taken off. -/
theorem stores_string {start length : Int64} (hm : m.Carries s.top (a :: length :: start :: ws))
    (hroom : (a :: length :: start :: ws).length ≤ s.room) (hb : s.stack.Apart ⟨a, 16⟩) :
    ∃ m', Stores s .string (Listing.ofInstrs [.pop .rax, .pop .rsi, .pop .rdi,
        .store (.above .rax 0) .rdi, .store (.above .rax 8) .rsi, .push .rdi, .push .rsi] ++
      Listing.ofInstrs [.addConst .rsp (8 * [length, start].length)]) ⟨a, 16⟩ [start, length] ws
      m m' := by
  simp only [List.length_cons] at hroom
  obtain ⟨m₁, hplace, hrax, hmemory₁, -⟩ :=
    turns_pop [.mk a 16] (r := .rax) (by decide) hm
  obtain ⟨m₂, hsecond, hrsi, hmemory₂, hregs₂⟩ :=
    turns_pop [.mk a 16] (r := .rsi) (by decide) hplace.carries
  obtain ⟨m₃, hfirst, hrdi, hmemory₃, hregs₃⟩ :=
    turns_pop [.mk a 16] (r := .rdi) (by decide) hsecond.carries
  have hrax₃ : m₃.regs .rax = a := (hregs₃ .rax (by decide) (by decide)).trans
    ((hregs₂ .rax (by decide) (by decide)).trans hrax)
  have hrsi₃ : m₃.regs .rsi = length := (hregs₃ .rsi (by decide) (by decide)).trans hrsi
  have hmemory : m₃.memory = m.memory := hmemory₃.trans (hmemory₂.trans hmemory₁)
  have hcover {x : Int64} (hx : ¬(Block.mk a 16).Covers x) : 16 ≤ Memory.gap a x := Nat.le_of_not_lt hx
  have hstart := turns_write (i := .store (.above .rax 0) .rdi) (m := m₃) ⟨a, 16⟩
    (m₃.memory.setWord a start) (by
      change some (m₃.setWord (m₃.regs .rax + 0) (m₃.regs .rdi)) = _
      rw [Int64.add_zero, hrax₃, hrdi]
      rfl) rfl (fun x hx => Memory.setWord_apart _ (by have := hcover hx; omega)) hfirst.carries hb
    (by omega)
  have hlength := turns_write (i := .store (.above .rax 8) .rsi)
    (m := { m₃ with memory := m₃.memory.setWord a start }) ⟨a, 16⟩
    ((m₃.memory.setWord a start).setWord (a + 8) length) (by
      change some (Machine.setWord _ (m₃.regs .rax + 8) (m₃.regs .rsi)) = _
      rw [hrax₃, hrsi₃]
      rfl) rfl (fun x hx => Memory.setWord_apart _ (by
        have hvia := Memory.gap_via a (a + 8) x
        have hlt := Memory.gap_lt (a + 8) x
        have := hcover hx
        rw [Memory.gap_next] at hvia
        omega)) hstart.carries hb (by omega)
  have hpush := turns_pushWord [] (i := .push .rdi) (v := start)
    (by rw [← hrdi]; rfl) rfl hlength.carries (by omega)
  have hpush' := turns_pushWord [] (i := .push .rsi) (v := length)
    (by rw [← hrsi₃]; rfl) rfl hpush.carries (by rw [List.length_cons]; omega)
  obtain ⟨m₈, hoff, -⟩ := turns_discard [] [length, start] hpush'.carries
  have hafter := (hpush.append hpush').append hoff
  refine ⟨m₈, (((((hplace.append hsecond).append hfirst).append hstart).append hlength).append
    (hafter.mono (List.nil_subset _))), ?_⟩
  refine (hafter.bytesOf_eq (show 16 ≤ 2 ^ 64 by decide) hb nofun).trans ?_
  exact m₃.memory.load_setWord_setWord a start length

/-- **The value under an address is stored there** and taken off the stack. -/
theorem turns_store {ty : Ty} {words : List Int64} (hr : ty.isResolved = true)
    (ha : ty.isArray = false) (hwords : words.length = ty.words) {first second : Listing}
    (hfirst : (store ty).Gives first) (hsecond : (Code.discard ty.words).Gives second)
    (hm : m.Carries s.top (a :: (words.reverse ++ ws)))
    (hroom : (a :: (words.reverse ++ ws)).length ≤ s.room)
    (hb : s.stack.Apart ⟨a, ty.size.toNat⟩) :
    ∃ m', Stores s ty (first ++ second) ⟨a, ty.size.toNat⟩ words ws m m' := by
  rcases Ty.words_of_value hr ha with ⟨rfl, htwo, -⟩ | ⟨hs, hone, hsize⟩
  · rw [htwo] at hwords hsecond
    obtain ⟨start, length, rfl⟩ := List.length_eq_two.mp hwords
    have hfirst := hfirst.ofInstrs
    have hsecond := hsecond.ofInstrs
    subst hfirst hsecond
    exact stores_string hm hroom hb
  · rw [hone] at hwords hsecond
    obtain ⟨v, rfl⟩ := List.length_eq_one_iff.mp hwords
    obtain rfl := hsecond.ofInstrs
    unfold store at hfirst
    rw [if_neg (by rw [hs]; exact Bool.false_ne_true)] at hfirst
    rcases hsize with hsize | hsize
    · rw [if_pos hsize] at hfirst
      obtain rfl := hfirst.ofInstrs
      exact stores_lowByte hm hroom hb hsize
    · rw [if_neg (by omega)] at hfirst
      obtain rfl := hfirst.ofInstrs
      exact stores_wholeWord hm hroom hb hsize

end Lowering

end StackCompiler
