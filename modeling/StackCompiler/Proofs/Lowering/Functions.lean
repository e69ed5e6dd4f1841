import StackCompiler.Proofs.Lowering.Execution
import StackCompiler.Proofs.Typing.Frames

/-!
# Proofs/Lowering/Functions — a call of a function

A call pushes the caller's `rbp` and takes the frame under it; the parameters are moved into their
slots and **all else in the frame is what was there before**.  The epilogue gives the frame back.  A
function whose locals are words returns what its body does (`returns_of_runAll`).
-/

namespace StackCompiler

open Machine

/-! ## Room on the stack -/

theorem utf8ByteSize_foldl (texts : List String) (s : String) :
    (texts.foldl (· ++ ·) s).utf8ByteSize = s.utf8ByteSize + (texts.map String.utf8ByteSize).sum := by
  induction texts generalizing s with
  | nil => simp
  | cons t texts ih => rw [List.foldl_cons, ih, String.utf8ByteSize_append]; simp; omega

/-- A line that pushes a word is written with **more bytes than the word has**. -/
theorem Line.pushes_le_text (line : Line) : 8 * line.pushes.toNat ≤ line.text.utf8ByteSize := by
  cases line with
  | label name => exact Nat.zero_le _
  | instr i =>
    cases i with
    | push r | pushAt a =>
      rw [text, Instr.text, Instr.written, String.utf8ByteSize_append, String.utf8ByteSize_append,
        String.utf8ByteSize_append, String.utf8ByteSize_append]
      have hindent : "    ".utf8ByteSize = 4 := by decide
      have hpush : "push".utf8ByteSize = 4 := by decide
      rw [hindent, hpush]
      change 8 * 1 ≤ _
      omega
    | _ => exact Nat.zero_le _

theorem Listing.pushes_le_text (l : Listing) :
    8 * l.pushes ≤ ((l.map Line.text).map String.utf8ByteSize).sum := by
  induction l with
  | nil => exact Nat.zero_le _
  | cons line l ih =>
    have hline := line.pushes_le_text
    have hcons : pushes (line :: l) = line.pushes.toNat + pushes l := by
      rw [pushes, List.countP_cons, add_comm, pushes]
      cases line.pushes <;> rfl
    rw [hcons, List.map_cons, List.map_cons, List.sum_cons]
    omega

/-- The text of the assembly fits a string, which holds **at most the greatest number of a word** of
bytes. -/
def Assembly.Fits (a : Assembly) : Prop :=
  a.text.utf8ByteSize ≤ Word.greatest

/-- The bytes of the assembly's text, section by section. -/
def Assembly.textBytes (a : Assembly) : Nat :=
  ".intel_syntax noprefix\n".utf8ByteSize + ".data\n".utf8ByteSize +
    ((a.data.map Datum.text).map String.utf8ByteSize).sum + ".text\n".utf8ByteSize +
    ((a.exported.map fun s => ".globl " ++ s.text ++ "\n").map String.utf8ByteSize).sum +
    ((a.code.map Line.text).map String.utf8ByteSize).sum +
    ".section .note.GNU-stack,\"\",@progbits\n".utf8ByteSize

theorem Assembly.fits_iff {a : Assembly} : a.Fits ↔ (a.textBytes : Int) ≤ Word.greatest := by
  have hempty : "".utf8ByteSize = 0 := rfl
  have hbytes : a.text.utf8ByteSize = a.textBytes := by
    unfold text String.join textBytes
    simp only [String.utf8ByteSize_append, utf8ByteSize_foldl, hempty]
    omega
  rw [Fits, hbytes]

theorem Assembly.Fits.pushes {a : Assembly} (h : a.Fits) {l : Listing} (hl : l <:+: a.code) :
    8 * l.pushes ≤ Word.greatest := by
  have hcode := Listing.pushes_le_text a.code
  have hpushes : l.pushes ≤ a.code.pushes := hl.sublist.countP_le
  have hbytes := Assembly.fits_iff.mp h
  unfold textBytes at hbytes
  omega

/-! ## Listings in an assembly -/

/-- The listing is the one that the assembly has for the function. -/
structure Compilation.Emits (c : Compilation) (f : Function) (l : Listing) : Prop where
  func : f ∈ c.program.funcs
  code : ∃ base, Lowering.functionCode c.program f base = .ok l
  inside : l <:+: c.assembly.code

namespace Lowering

variable {p : Program} {f : Function}

theorem functionsCode_listings : ∀ {fs : List Function} {base : Nat} {code : Listing},
    functionsCode p base fs = .ok code → ∃ listings, code = listings.flatten ∧
      List.Forall₂ (fun f l => ∃ base, functionCode p f base = .ok l) fs listings
  | [], _, _, h => by
    cases h
    exact ⟨[], rfl, .nil⟩
  | f :: fs, base, code, h => by
    obtain ⟨l, hl, h⟩ := bind_eq_ok_iff.mp h
    obtain ⟨rest, hrest, h⟩ := bind_eq_ok_iff.mp h
    cases h
    obtain ⟨listings, rfl, hlistings⟩ := functionsCode_listings hrest
    exact ⟨l :: listings, rfl, .cons ⟨base, hl⟩ hlistings⟩

end Lowering

/-- Behind the routines an assembly has a listing for every function, **in the order of the
functions**. -/
theorem Compilation.exists_listings {source : List Char} {c : Compilation}
    (hc : compile source = .ok c) : ∃ listings, c.assembly.code = Routine.all ++ listings.flatten ∧
      List.Forall₂ c.Emits c.program.funcs listings := by
  obtain ⟨data, -, h⟩ := bind_eq_ok_iff.mp (compile_ok hc).2
  obtain ⟨code, hcode, h⟩ := bind_eq_ok_iff.mp h
  obtain ⟨listings, rfl, hlistings⟩ := Lowering.functionsCode_listings hcode
  have hall : c.assembly.code = Routine.all ++ listings.flatten := by rw [← Except.ok.inj h]
  refine ⟨listings, hall, ?_⟩
  -- the same two lists once more, with where their members come from
  refine ((List.forall₂_and_left _ _).mpr ⟨fun f hf => hf, ((List.forall₂_and_left _ _).mpr
    ⟨fun l hl => hl, hlistings.flip⟩).flip⟩).imp fun f l ⟨hf, hl, hcode⟩ => ⟨hf, hcode, ?_⟩
  exact hall ▸ (List.infix_of_mem_flatten hl).trans (List.suffix_append _ _).isInfix

/-- An assembly has a listing **for every function** of its program. -/
theorem Compilation.exists_emits {source : List Char} {c : Compilation}
    (hc : compile source = .ok c) {f : Function} (hf : f ∈ c.program.funcs) :
    ∃ l, c.Emits f l := by
  obtain ⟨listings, -, hlistings⟩ := Compilation.exists_listings hc
  obtain ⟨l, -, hl⟩ := exists_of_forall₂ hlistings hf
  exact ⟨l, hl⟩

namespace Lowering

variable (env : Environment) {p : Program} {f : Function} {m : Machine} {l : Listing}

/-- The labels of a function are its symbol, those of its body, and **the end where all its returns
meet**. -/
theorem labels_functionCode {base : Nat} (h : functionCode p f base = .ok l) :
    ∃ numbered, Numbered base (base + Stmt.labelCounts f.body) numbered ∧
      l.labels = .symbol (p.functionSymbol f) :: (numbered ++ [.returnOf (p.functionSymbol f)]) := by
  obtain ⟨params, body, -, hbody, -, rfl⟩ := functionCode_ok h
  exact ⟨body.labels, numbers_stmtsCode f.body (fun s _ => numbers_stmtCode s) base body ⟨0, hbody⟩,
    by simp [Listing.labels]⟩

/-- **No label stands twice** in the listing of a function. -/
theorem nodup_functionCode {base : Nat} (h : functionCode p f base = .ok l) : l.labels.Nodup := by
  obtain ⟨numbered, hnumbers, hlabels⟩ := labels_functionCode h
  have hno {name : Label} (hname : name.number? = none) : name ∉ numbered := fun hmem => by
    obtain ⟨n, hn, -⟩ := hnumbers.bounds name hmem
    rw [hname] at hn
    cases hn
  rw [hlabels, List.nodup_cons, List.nodup_append]
  refine ⟨fun hmem => ?_, hnumbers.nodup, by simp, fun a ha b hb hab => ?_⟩
  · rcases List.mem_append.mp hmem with hmem | hmem
    · exact hno rfl hmem
    · cases List.mem_singleton.mp hmem
  · rw [hab, List.mem_singleton.mp hb] at ha
    exact hno rfl ha

/-! ## Entering and leaving -/

/-- The machine has a frame that a call by `m₀` has taken: the base is under the return address, and
the caller's `rbp` is kept there. -/
structure Entered (m₀ m : Machine) : Prop where
  base : m.regs .rbp = m₀.regs .rsp - 8
  saved : m.cell 0 = m₀.regs .rbp

/-- What the memory has in the slots of a function **that is about to be called**. -/
def found (p : Program) (m : Machine) : Store :=
  fun id => m.memory.word (m.regs .rsp - 8 - Int64.ofInt (p.slot id))

/-- The first two instructions keep the caller's `rbp` and make the stack's end the frame's base. -/
theorem exec_entering (m : Machine) :
    ∃ m', execAll env [.push .rbp, .move .rbp .rsp] m = some m' ∧ Entered m m' ∧ m'.IsDown 0 ∧
      m'.memory = (m.pushWord (m.regs .rbp)).memory ∧ (∀ x, 8 ≤ x → x + 8 ≤ 2 ^ 64 →
        m'.cell x = m.memory.word (m.regs .rsp - 8 - Int64.ofInt x)) ∧
      ∀ r, r ≠ .rsp → r ≠ .rbp → m'.regs r = m.regs r := by
  have hrsp : (m.pushWord (m.regs .rbp)).regs .rsp = m.regs .rsp - 8 := regs_put_self m .rsp _
  have hrbp : ((m.pushWord (m.regs .rbp)).put .rbp (m.regs .rsp - 8)).regs .rbp =
      m.regs .rsp - 8 := regs_put_self _ .rbp _
  have hbase : m.regs .rsp - 8 - Int64.ofInt 0 = m.regs .rsp - 8 := Int64.sub_zero _
  refine ⟨(m.pushWord (m.regs .rbp)).put .rbp (m.regs .rsp - 8), ?_, ⟨hrbp, ?_⟩, ?_, rfl,
    fun x hlow hhigh => ?_, fun r hr hr' => ?_⟩
  · rw [← hrsp]
    rfl
  · rw [cell, hrbp, hbase]
    exact m.memory.word_setWord _ _
  · rw [IsDown, hrbp, hbase, regs_put_of_ne (by decide), hrsp]
  · have hgap := Memory.gap_below (m.regs .rsp - 8) 0 x
    rw [hbase] at hgap
    rw [cell, hrbp]
    exact m.memory.word_setWord_apart (by omega) (by omega)
  · rw [regs_put_of_ne hr']
    exact regs_put_of_ne hr m _

/-- Bytes are put on the stack **as they are**. -/
theorem exec_reserve {d : Int} (hm : m.IsDown d) (bytes : Int) :
    ∃ m', (Instr.subConst .rsp bytes).exec env m = some m' ∧ m'.IsDown (d + bytes) ∧
      m'.memory = m.memory ∧ ∀ r, r ≠ .rsp → m'.regs r = m.regs r := by
  have hrbp : (m.put .rsp (m.regs .rsp - .ofInt bytes)).regs .rbp = m.regs .rbp :=
    regs_put_of_ne (by decide) _ _
  refine ⟨_, rfl, ?_, rfl, fun r hr => regs_put_of_ne hr _ _⟩
  rw [IsDown, regs_flagged, regs_put_self, hrbp, hm, Int64.ofInt_add]
  grind

/-- The prologue takes the frame **as it finds it**. -/
theorem exec_prologue (hframe : IntFrame p f) (m : Machine) :
    ∃ m', execAll env (prologue f.frame) m = some m' ∧ Entered m m' ∧ m'.IsDown f.frame ∧
      m'.Shows p f (found p m) ∧ ∀ r, r ≠ .rsp → r ≠ .rbp → m'.regs r = m.regs r := by
  obtain ⟨hpos, hfits⟩ := hframe.frame
  unfold Word.greatest at hfits
  obtain ⟨m₁, hm₁, hentered, hdown, -, hcells, hregs⟩ := exec_entering env m
  have hshows : m₁.Shows p f (found p m) := fun id hid => by
    obtain ⟨hlow, hhigh⟩ := hframe.inside id hid
    exact hcells _ hlow (by omega)
  unfold prologue
  rw [execAll_append, hm₁, Option.bind_some]
  split
  · obtain ⟨m₂, hm₂, hdown₂, hmemory₂, hregs₂⟩ := exec_reserve env hdown f.frame
    rw [zero_add] at hdown₂
    have hkept : Keeps f.frame m₁ m₂ := .of_memory (hregs₂ .rbp (by decide)) hmemory₂
    refine ⟨m₂, congrArg (Option.bind · some) hm₂, ⟨hkept.base.trans hentered.base, ?_⟩, hdown₂,
      hshows.keeps hframe hkept le_rfl, fun r hr hr' => (hregs₂ r hr).trans (hregs r hr hr')⟩
    exact (hkept.cell 0 le_rfl hpos).trans hentered.saved
  · obtain hzero : f.frame = 0 := by omega
    rw [hzero]
    exact ⟨m₁, rfl, hentered, hdown, hshows, hregs⟩

/-- **The parameters are moved into their slots**, and nothing else changes. -/
theorem exec_spills (hframe : IntFrame p f) {ids : List VarId} :
    ∀ {regs : List Reg} {instrs : List Instr} {m : Machine} {σ : Store},
      spills p ids regs = .ok instrs → (∀ id ∈ ids, id ∈ f.locals) → m.Shows p f σ →
      ∃ m', execAll env instrs m = some m' ∧ m'.Shows p f (σ.assign (ids.zip (regs.map m.regs))) ∧
        Spares f.frame f.frame m m' ∧ m'.regs = m.regs := by
  obtain ⟨hpos, hfits⟩ := hframe.frame
  unfold Word.greatest at hfits
  induction ids with
  | nil =>
    intro regs instrs m σ h _ hσ
    cases h
    exact ⟨m, rfl, hσ, .of_keeps (.refl _ m) ⟨hpos, le_rfl⟩, rfl⟩
  | cons id ids ih =>
    intro regs instrs m σ h hids hσ
    obtain ⟨hid, hids⟩ := List.forall_mem_cons.mp hids
    obtain ⟨v, hv, -, hty⟩ := hframe.locals id hid
    obtain ⟨w, instrs, rest, later, hw, hspill, hspills, rfl⟩ := spills_cons_ok h
    cases hv.symm.trans hw
    cases regs with
    | nil => cases hspill
    | cons reg regs =>
    have hspill' : spill v (reg :: regs) = .ok ([.store (.frame v.offset) reg], regs) := by
      simp only [spill, hty]
      rfl
    cases hspill.symm.trans hspill'
    obtain ⟨hshows, hspares⟩ := shows_setWord (d := f.frame) hframe hid (m.regs reg) hσ
    obtain ⟨m', hm', hshows', hspares', hregs⟩ := ih hspills hids hshows
    refine ⟨m', ?_, hshows', (hspares (by omega)).trans hspares', hregs⟩
    rw [← hm', slot_eq hv]
    rfl

/-- The epilogue gives the frame back, and **the caller's `rbp`**. -/
theorem exec_epilogue {m₀ : Machine} (hm : Entered m₀ m) :
    ∃ m', execAll env [.move .rsp .rbp, .pop .rbp] m = some m' ∧ m'.regs .rax = m.regs .rax ∧
      m'.regs .rsp = m₀.regs .rsp ∧ m'.regs .rbp = m₀.regs .rbp := by
  have hrsp : (m.put .rsp (m.regs .rbp)).regs .rsp = m₀.regs .rsp - 8 := by
    rw [regs_put_self, hm.base]
  have hword : m.memory.word (m₀.regs .rsp - 8) = m₀.regs .rbp := by
    rw [← hm.saved, cell, hm.base]
    exact congrArg m.memory.word (Int64.sub_zero _).symm
  refine ⟨_, rfl, ?_, ?_, ?_⟩
  · rw [regs_put_of_ne (by decide), regs_put_of_ne (by decide), regs_put_of_ne (by decide)]
  · rw [regs_put_of_ne (by decide), regs_put_self, hrsp]
    grind
  · rw [regs_put_self, hrsp, memory_put, hword]

end Lowering

/-! ## Calls -/

/-- A call that starts at the first line comes to a `ret` **with that value in `rax`**, and with `rsp`
and `rbp` as they were. -/
def Returns (env : Environment) (l : Listing) (m : Machine) (v : Int64) : Prop :=
  ∃ s : Moment, Runs env l ⟨0, m⟩ s ∧ l[s.pos]? = some (.instr .ret) ∧ s.machine.regs .rax = v ∧
    s.machine.regs .rsp = m.regs .rsp ∧ s.machine.regs .rbp = m.regs .rbp

/-- What the locals of a function hold when it is called: its parameters **what the registers of
arguments hold**, and all others what is in the memory. -/
def Function.entryStore (p : Program) (f : Function) (m : Machine) : Store :=
  (Lowering.found p m).assign (f.params.zip (Lowering.argumentRegs.map m.regs))

namespace Lowering

variable {env : Environment} {p : Program} {f : Function} {m : Machine} {l : Listing}

/-- From where the returns meet, **the epilogue leads to the `ret`**. -/
theorem returns_of_entered {front : Listing} {exit : Label} {m' : Machine}
    (hl : front ++ .label exit :: Listing.ofInstrs epilogue <+: l)
    (hruns : Runs env l ⟨0, m⟩ ⟨front.length, m'⟩) (hm' : Entered m m') :
    Returns env l m (m'.regs .rax) := by
  obtain ⟨m'', hm'', hrax, hrsp, hrbp⟩ := exec_epilogue env hm'
  have hleads : (Listing.ofInstrs [.move .rsp .rbp, .pop .rbp]).Leads env m' m'' := ⟨_, rfl, hm''⟩
  have hlabel : front ++ [.label exit] <+: l := .trans (by simp) hl
  have hleave : front ++ [.label exit] ++ Listing.ofInstrs [.move .rsp .rbp, .pop .rbp] <+: l :=
    .trans (by simp [Listing.ofInstrs, epilogue]) hl
  refine ⟨_, (hruns.trans (Runs.label hlabel m')).trans (hleads.runs hleave),
    getElem?_next (.trans ?_ hl), hrax, hrsp, hrbp⟩
  simp [Listing.ofInstrs, epilogue]

/-- From the first line, **the prologue leads to the first statement**. -/
theorem exists_standing (env : Environment) (hframe : IntFrame p f) {params : List Instr} {name : Label}
    (hparams : spills p f.params argumentRegs = .ok params) (hids : f.params ⊆ f.locals)
    (hl : .label name :: Listing.ofInstrs (prologue f.frame ++ params) <+: l) (m : Machine) :
    ∃ m', Runs env l ⟨0, m⟩
        ⟨(Line.label name :: Listing.ofInstrs (prologue f.frame ++ params)).length, m'⟩ ∧
      Entered m m' ∧ m'.IsDown f.frame ∧ m'.Shows p f (f.entryStore p m) := by
  obtain ⟨m₁, hm₁, hentered, hdown, hshows, hregs⟩ := exec_prologue env hframe m
  obtain ⟨m₂, hm₂, hshows₂, hspares, hregs₂⟩ :=
    exec_spills env hframe hparams (fun id hid => hids hid) hshows
  have hargs : argumentRegs.map m₁.regs = argumentRegs.map m.regs :=
    List.map_congr_left fun r hr => hregs r (by rintro rfl; revert hr; decide)
      (by rintro rfl; revert hr; decide)
  refine ⟨m₂, ?_, ⟨hspares.base.trans hentered.base, hspares.saved.trans hentered.saved⟩, ?_, ?_⟩
  · rw [List.length_cons, Listing.ofInstrs, List.length_map]
    refine Runs.entry hl ?_
    rw [execAll_append, hm₁]
    exact hm₂
  · rw [IsDown, hregs₂]
    exact hdown
  · rw [Function.entryStore, ← hargs]
    exact hshows₂

/-- **A function of words returns what its body does.** -/
theorem returns_of_runAll (hp : p.Typed) (hf : f ∈ p.funcs) (hint : f.isArithmetic p = true)
    {base : Nat} (hl : functionCode p f base = .ok l)
    (hroom : f.frame + 8 * l.pushes + 8 ≤ 2 ^ 64) {turns : Nat} {ending : Ending}
    (hrun : Stmt.runAll turns f.body (f.entryStore p m) = some ending) :
    Returns env l m ending.result := by
  have htyped := hp.funcs f hf
  have hframe := intFrame_of_typed htyped hint
  have hnodup := nodup_functionCode hl
  have hleft := leftovers_eq_zero hp hf hl
  obtain ⟨params, body, hparams, hbody, -, heq⟩ := functionCode_ok hl
  have hwhole : (Line.label (.symbol (p.functionSymbol f)) ::
      Listing.ofInstrs (prologue f.frame ++ params)) ++ body ++ [.instr (.set .rax 0)] ++
      .label (.returnOf (p.functionSymbol f)) :: Listing.ofInstrs epilogue <+: l := by
    rw [heq]
    exact ⟨[], by simp⟩
  have hstart : Line.label (.symbol (p.functionSymbol f)) ::
      Listing.ofInstrs (prologue f.frame ++ params) <+: l := .trans (by simp) hwhole
  obtain ⟨m₁, hentry, hentered, hdown, hshows⟩ :=
    exists_standing env hframe hparams htyped.params.subset hstart m
  generalize Line.label (.symbol (p.functionSymbol f)) ::
    Listing.ofInstrs (prologue f.frame ++ params) = front at hwhole hentry
  have hout : l.place? (.returnOf (p.functionSymbol f)) =
      some (front ++ body ++ [Line.instr (.set .rax 0)]).length :=
    Listing.place?_of_nodup hnodup (.trans (by simp) hwhole)
  let s : Scene := ⟨env, p, f, l, .returnOf (p.functionSymbol f),
    (front ++ body ++ [Line.instr (.set .rax 0)]).length, m.regs .rsp - 8, m.regs .rbp⟩
  have hs : s.Sound := ⟨hframe, hnodup, hout, hroom⟩
  have hsimulates : Simulates s (stmtsCode p s.exit base f.body) (Stmt.runAll turns f.body) :=
    simulates_stmtsCode f.body
      (fun st hst hint hleft base => simulates_stmtCode hs (htyped.body st hst) hint hleft base)
      (Bool.and_eq_true_iff.mp hint).2 hleft base
  have hbodyl : front ++ body <+: l := .trans (by simp) hwhole
  have harrives := hsimulates ⟨0, hbody⟩ hbodyl
    ⟨⟨hentered.base, hentered.saved⟩, hdown, hshows⟩ hrun
  -- a body that returns comes to the label at once, and one that ends passes a 0
  cases ending with
  | next σ =>
    obtain ⟨m₂, hm₂, hstanding⟩ := harrives
    have hsame : SameStack m₂ (m₂.put .rax 0) := .put (by decide) _ _
    have hstanding := hstanding.keeps hs hsame.keeps (hsame.isDown hstanding.down)
    have hzero : (Listing.ofInstrs [.set .rax 0]).Leads env m₂ (m₂.put .rax 0) := ⟨_, rfl, rfl⟩
    have hfront : front ++ body ++ Listing.ofInstrs [.set .rax 0] <+: l :=
      .trans (by simp [Listing.ofInstrs]) hwhole
    have hreturns := returns_of_entered hwhole ((hentry.trans hm₂).trans (hzero.runs hfront))
      ⟨hstanding.base, hstanding.saved⟩
    rwa [regs_put_self] at hreturns
  | returned v =>
    obtain ⟨m₂, hm₂, hframed, rfl⟩ := harrives
    exact returns_of_entered hwhole (hentry.trans hm₂) ⟨hframed.base, hframed.saved⟩

/-- A frame and the words above it **do not go around** all addresses. -/
theorem Emits.room {c : Compilation} (hp : c.program.Typed) (hfits : c.assembly.Fits)
    (hl : c.Emits f l) : f.frame + 8 * l.pushes + 8 ≤ 2 ^ 64 := by
  have hpushes := hfits.pushes hl.inside
  obtain ⟨hdvd, -, hframe⟩ := (hp.funcs f hl.func).frame
  unfold Word.greatest at hpushes hframe
  omega

end Lowering

/-! ## Compiled functions -/

/-- **A compiled function of words returns what its body does on the tree.**  Its locals are of type
`int`, and it assigns to them, branches, loops and returns as it likes; whatever the registers of
arguments and the memory hold at the call, if its body comes to an end from there, the call comes to
a `ret` with the value that is returned in `rax`, and 0 if none is. -/
theorem returns_of_compile {source : List Char} {c : Compilation} (hc : compile source = .ok c)
    (hfits : c.assembly.Fits) {f : Function} {l : Listing} (hl : c.Emits f l)
    (hint : f.isArithmetic c.program = true) (env : Environment) (m : Machine) {turns : Nat}
    {ending : Ending} (hrun : Stmt.runAll turns f.body (f.entryStore c.program m) = some ending) :
    Returns env l m ending.result := by
  have hp := Program.typed_of_ofSource (compile_ok hc).1
  obtain ⟨base, hcode⟩ := hl.code
  exact Lowering.returns_of_runAll hp hl.func hint hcode (Lowering.Emits.room hp hfits hl) hrun

/-- A loop that is left by a return, with a parallel assignment in it. -/
def textOfLoop : String :=
  "package p func f(n int) int { s := 0; for i := 0; i < n; i = i + 1 { if i == 3 { return s };
  s, n = s + i, n }; return -1 } func main() { f(9) }"

/-- With a 5 in every register, that loop comes to 3. -/
theorem returns_of_loop :
    ∃ c f l, compile textOfLoop.toList = .ok c ∧ c.Emits f l ∧
      Returns ⟨fun _ => 0, 0⟩ l ⟨fun _ => 5, fun _ => 0, none, []⟩ 3 := by
  obtain ⟨c, hc, htest⟩ := exists_ok_of_any (P := fun c : Compilation =>
    decide ((c.assembly.textBytes : Int) ≤ Word.greatest) &&
      c.program.funcs.any fun f => f.isArithmetic c.program &&
        (Stmt.runAll 9 f.body (f.entryStore c.program ⟨fun _ => 5, fun _ => 0, none, []⟩)).any
          (·.result == 3)) (x := compile textOfLoop.toList) (by decide +kernel)
  obtain ⟨hbytes, hfuncs⟩ := Bool.and_eq_true_iff.mp htest
  obtain ⟨f, hf, hrun⟩ := List.any_eq_true.mp hfuncs
  obtain ⟨hint, hrun⟩ := Bool.and_eq_true_iff.mp hrun
  obtain ⟨ending, hending, hresult⟩ := (Option.any_eq_true _ _).mp hrun
  obtain ⟨l, hl⟩ := Compilation.exists_emits hc hf
  refine ⟨c, f, l, hc, hl, ?_⟩
  have hreturns := returns_of_compile hc (Assembly.fits_iff.mpr (of_decide_eq_true hbytes)) hl hint
    ⟨fun _ => 0, 0⟩ _ hending
  rwa [beq_iff_eq.mp hresult] at hreturns

end StackCompiler
