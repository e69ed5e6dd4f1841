import StackCompiler.Proofs.Lowering.Steady

/-!
# Proofs/Lowering/Descent — the stack on every path through a function

The depths of a function's listing are those of its prologue, of a frame with so many words above
it, and of its epilogue.  As its body is level, a path has **the same depth wherever it comes
from**: calls find the stack aligned, nothing is taken out of the frame, and the function returns
with the stack where it was.
-/

namespace StackCompiler

/-! ## Lines of a function -/

/-- The bytes that an instruction takes off the stack. -/
def Instr.taken? : Instr → Option Int
  | pop _ => some 8
  | addConst .rsp bytes => some bytes
  | _ => none

/-- The depth is known, jumps and the labels that they go to stand right above the frame, and
the stack is as calls and returns need it. -/
def Settled (frame : Int) (s : Symbol) (d : Depth) : Line → Prop
  | .label name => name = .symbol s ∨ d = .above frame 0
  | .instr (.jump target) | .instr (.jumpIf _ target) => d = .above frame 0 ∧ target ≠ .symbol s
  | .instr (.call _) => ∃ down, d.down = some down ∧ down % 16 = 8
  | .instr .ret => d.down = some 0
  | .instr _ => ∃ down, d.down = some down

/-- What is taken off the stack **lies above the frame**. -/
def SparesFrame (frame : Int) (d : Depth) : Line → Prop
  | .label _ => True
  | .instr i => ∀ bytes down, i.taken? = some bytes → d.down = some down →
    8 + frame ≤ down - bytes

theorem Line.SteadyAt.settled {line : Line} {frame height : Int} (h : line.SteadyAt height)
    (hframe : 16 ∣ frame) (s : Symbol) : Settled frame s (.above frame height) line := by
  cases line with
  | label name =>
    obtain rfl : height = 0 := h
    exact .inr rfl
  | instr i =>
    cases i with
    | jump target | jumpIf condition target =>
      obtain ⟨rfl, hs⟩ := h
      exact ⟨rfl, hs s⟩
    | call target =>
      obtain ⟨half, rfl⟩ : 2 ∣ height := h
      exact ⟨_, rfl, by omega⟩
    | ret => exact h.elim
    | _ => exact ⟨_, rfl⟩

theorem Line.SteadyAt.sparesFrame {line : Line} {frame height : Int} (h : line.SteadyAt height) :
    SparesFrame frame (.above frame height) line := by
  cases line with
  | label name => trivial
  | instr i =>
    intro bytes down htaken hdown
    obtain rfl := Option.some.inj hdown
    cases i with
    | pop r =>
      obtain rfl := Option.some.inj htaken
      have hpos : 0 < height := h.1
      omega
    | addConst r n =>
      cases r with
      | rsp =>
        obtain rfl := Option.some.inj htaken
        have hle : n ≤ 8 * height := h.2
        omega
      | _ => cases htaken
    | _ => cases htaken

/-- Steady lines are as a path needs them, **at the depths that they lead to**. -/
theorem Listing.Steady.each {l : Listing} {frame : Int} (hframe : 16 ∣ frame) (s : Symbol) :
    ∀ {height : Int}, l.Steady height →
      l.Each (fun d line => Settled frame s d line ∧ SparesFrame frame d line)
        (.above frame height) := by
  induction l with
  | nil => exact fun _ => trivial
  | cons line l ih =>
    intro height h
    have hline : (Depth.above frame height).afterLine line =
        .above frame (height + line.growth) := by
      have hsteady : Listing.Steady [line] height := ⟨h.1, trivial⟩
      have halong : (Depth.above frame height).along [line] =
        .above frame (height + Listing.growth [line]) := hsteady.along
      rwa [Depth.along_cons, Depth.along_nil, Listing.growth_cons, Listing.growth_nil,
        add_zero] at halong
    refine ⟨⟨h.1.settled hframe s, h.1.sparesFrame⟩, ?_⟩
    rw [hline]
    exact ih h.2

namespace Lowering

/-! ## Functions -/

/-- What stands between the prologue of a function and its epilogue. -/
def middleCode (s : Symbol) (params : List Instr) (body : Listing) : Listing :=
  Listing.ofInstrs params ++ body ++ [.instr (.set .rax 0), .label (.returnOf s)]

/-- The start of a function, up to its frame. -/
def entryCode (f : Function) (s : Symbol) : Listing :=
  .label (.symbol s) :: Listing.ofInstrs (prologue f.frame)

/-- **The prologue makes the frame.** -/
theorem each_entryCode {f : Function} (hframe : 0 ≤ f.frame) (s : Symbol) :
    Depth.atEntry.along (entryCode f s) = .above f.frame 0 ∧
      (entryCode f s).Each (fun d line => Settled f.frame s d line ∧ SparesFrame f.frame d line)
        .atEntry := by
  unfold entryCode
  unfold prologue
  by_cases h : 0 < f.frame
  · rw [if_pos h]
    refine ⟨?_, ⟨.inl rfl, trivial⟩, ⟨⟨_, rfl⟩, nofun⟩, ⟨⟨_, rfl⟩, nofun⟩, ⟨⟨_, rfl⟩, nofun⟩, trivial⟩
    rw [Depth.above, mul_zero, add_zero]
    rfl
  · rw [if_neg h]
    refine ⟨?_, ⟨.inl rfl, trivial⟩, ⟨⟨_, rfl⟩, nofun⟩, ⟨⟨_, rfl⟩, nofun⟩, trivial⟩
    obtain hzero : f.frame = 0 := by omega
    rw [hzero]
    rfl

/-- What stands between the prologue and the epilogue is **steady**. -/
theorem steady_middleCode {p : Program} (hp : p.Typed) {f : Function} (hf : f ∈ p.funcs) {base : Nat}
    {params : List Instr} {body : Listing} (hleft : f.leftovers = 0)
    (hparams : spills p f.params argumentRegs = .ok params)
    (hbody : stmtsCode p (.returnOf (p.functionSymbol f)) base f.body 0 = .ok body) :
    (middleCode (p.functionSymbol f) params body).Steady 0 ∧
      (middleCode (p.functionSymbol f) params body).growth = 0 := by
  have hstores : ∀ instrs : List Instr,
      (∀ i ∈ instrs, ∃ a r, i = .store a r ∨ i = .storeByte a r) →
      (Listing.ofInstrs instrs).Steady 0 ∧ (Listing.ofInstrs instrs).growth = 0 := by
    intro instrs
    induction instrs with
    | nil => exact fun _ => ⟨trivial, rfl⟩
    | cons i instrs ih =>
      intro h
      obtain ⟨⟨a, r, hi⟩, hrest⟩ := List.forall_mem_cons.mp h
      obtain ⟨hsteady, hgrowth⟩ := ih hrest
      rcases hi with rfl | rfl <;>
        exact ⟨⟨⟨nofun, nofun⟩, hsteady⟩, (Int.zero_add _).trans hgrowth⟩
  obtain ⟨hsparams, hgparams⟩ := hstores params (spills_store f.params hparams)
  have hlevel : (stmtsCode p (.returnOf (p.functionSymbol f)) base f.body).Level :=
    level_stmtsCode f.body
      (fun st hst hl => level_stmtCode (callable_of_typed hp) ((hp.funcs f hf).body st hst) hl)
      hleft base
  obtain ⟨body', hbody', hgbody⟩ := hlevel.grows 0
  cases hbody.symm.trans hbody'
  have hgrowth : (Listing.ofInstrs params ++ body).growth = 0 := by
    rw [Listing.growth_append, hgparams, hgbody]
    rfl
  refine ⟨Listing.steady_append.mpr ⟨Listing.steady_append.mpr ⟨hsparams, ?_⟩, ?_⟩, ?_⟩
  · rw [hgparams]
    exact hlevel.steady body hbody
  · rw [hgrowth]
    exact ⟨⟨by simp [Instr.changed], by simp [Instr.changed]⟩, rfl, trivial⟩
  · rw [middleCode, Listing.growth_append, hgrowth]
    rfl

/-- **A function's lines are as a path needs them**, and up to the epilogue they spare the frame. -/
theorem each_functionCode {p : Program} (hp : p.Typed) {f : Function} (hf : f ∈ p.funcs)
    {base : Nat} {l : Listing} (hl : functionCode p f base = .ok l) :
    ∃ front, l = front ++ Listing.ofInstrs epilogue ∧
      l.Each (Settled f.frame (p.functionSymbol f)) .atEntry ∧
      front.Each (SparesFrame f.frame) .atEntry := by
  obtain ⟨params, body, hparams, hbody, -, rfl⟩ := functionCode_ok hl
  obtain ⟨hdvd, hpos, -⟩ := (hp.funcs f hf).frame
  obtain ⟨hmiddle, hgrowth⟩ := steady_middleCode hp hf (leftovers_eq_zero hp hf hl) hparams hbody
  obtain ⟨halong, hentry⟩ := each_entryCode hpos (p.functionSymbol f)
  have hfront : Listing.Each (fun d line => Settled f.frame (p.functionSymbol f) d line ∧
      SparesFrame f.frame d line) .atEntry
      (entryCode f (p.functionSymbol f) ++ middleCode (p.functionSymbol f) params body) := by
    refine Listing.each_append.mpr ⟨hentry, ?_⟩
    rw [halong]
    exact hmiddle.each hdvd (p.functionSymbol f)
  refine ⟨entryCode f (p.functionSymbol f) ++ middleCode (p.functionSymbol f) params body,
    by simp [entryCode, middleCode, Listing.ofInstrs], ?_, hfront.mono fun _ _ h => h.2⟩
  have hepilogue : Listing.Each (Settled f.frame (p.functionSymbol f))
      (Depth.above f.frame 0) (Listing.ofInstrs epilogue) := ⟨⟨_, rfl⟩, ⟨_, rfl⟩, rfl, trivial⟩
  have hl : Listing.Each (Settled f.frame (p.functionSymbol f)) .atEntry
      ((entryCode f (p.functionSymbol f) ++ middleCode (p.functionSymbol f) params body) ++
        Listing.ofInstrs epilogue) := by
    refine Listing.each_append.mpr ⟨hfront.mono fun _ _ h => h.1, ?_⟩
    rw [Depth.along_append, halong, hmiddle.along, hgrowth, add_zero]
    exact hepilogue
  simpa [entryCode, middleCode, Listing.ofInstrs] using hl

/-- A jump and the labels that it goes to **stand at one depth**. -/
theorem jumpsLevel_functionCode {p : Program} (hp : p.Typed) {f : Function} (hf : f ∈ p.funcs)
    {base : Nat} {l : Listing} (hl : functionCode p f base = .ok l) : l.JumpsLevel := by
  obtain ⟨front, -, heach, -⟩ := each_functionCode hp hf hl
  intro pos pos' line target hline htarget hlabel
  have hhere := heach.at_place hline
  have hthere := heach.at_place hlabel
  have hjump : Depth.atEntry.along (l.take pos) = .above f.frame 0 ∧
      target ≠ .symbol (p.functionSymbol f) := by
    cases line with
    | label name => cases htarget
    | instr i =>
      cases i with
      | jump t | jumpIf condition t => cases htarget; exact hhere
      | _ => cases htarget
  rw [hjump.1]
  exact hthere.resolve_left hjump.2

/-- The depth where a path finds an instruction is known, and is as calls and returns need it. -/
theorem Settled.instr {frame : Int} {s : Symbol} {d : Depth} {i : Instr}
    (h : Settled frame s d (.instr i)) : ∃ down, d.down = some down ∧
      (∀ target, i = .call target → down % 16 = 8) ∧ (i = .ret → down = 0) := by
  cases i with
  | jump target | jumpIf condition target =>
    obtain ⟨rfl, -⟩ := h
    exact ⟨_, rfl, nofun, nofun⟩
  | call target =>
    obtain ⟨down, hdown, haligned⟩ := h
    exact ⟨down, hdown, fun _ _ => haligned, nofun⟩
  | ret => exact ⟨0, h, nofun, fun _ => rfl⟩
  | _ =>
    obtain ⟨down, hdown⟩ := h
    exact ⟨down, hdown, nofun, nofun⟩

end Lowering

open Lowering

/-- **On every path through a function of a compiled program** the stack is as high at a place
whichever path came there.  At a call it is aligned to 16 bytes if it was so before the function's
own call; nothing that is taken off before the epilogue reaches into the frame or the word under it;
and at the return the stack is where it was at entry. -/
theorem walk_depth_of_compile {source : List Char} {c : Compilation} (hc : compile source = .ok c)
    {f : Function} (hf : f ∈ c.program.funcs) {base : Nat} {l : Listing}
    (hl : functionCode c.program f base = .ok l) :
    (∀ w w', Walk l w → Walk l w' → w.pos = w'.pos → w.depth.down = w'.depth.down) ∧
      ∀ w, Walk l w → ∀ i, l[w.pos]? = some (.instr i) → ∃ down, w.depth.down = some down ∧
        (∀ target, i = .call target → down % 16 = 8) ∧
        (∀ bytes, i.taken? = some bytes → w.pos + epilogue.length < l.length →
          8 + f.frame ≤ down - bytes) ∧
        (i = .ret → down = 0) := by
  have hp := Program.typed_of_ofSource (compile_ok hc).1
  have hjumps := jumpsLevel_functionCode hp hf hl
  obtain ⟨front, hfront, heach, hspares⟩ := each_functionCode hp hf hl
  refine ⟨fun w w' hw hw' hpos => ?_, fun w hw i hi => ?_⟩
  · rw [hw.depth_eq hjumps, hw'.depth_eq hjumps, hpos]
  · have hdepth := hw.depth_eq hjumps
    obtain ⟨down, hdown, hcall, hret⟩ := Settled.instr (heach.at_place hi)
    refine ⟨down, hdepth ▸ hdown, hcall, fun bytes hbytes hbefore => ?_, hret⟩
    -- before the epilogue a place is one of the lines that spare the frame
    have hlt : w.pos < front.length := by
      rw [hfront, List.length_append, Listing.ofInstrs, List.length_map] at hbefore
      omega
    rw [hfront, List.getElem?_append_left hlt] at hi
    rw [hfront, List.take_append_of_le_length hlt.le] at hdown
    exact hspares.at_place hi bytes down hbytes hdown

/-- A function that is called while another call's argument waits on the stack. -/
theorem walk_depth_of_nested_call :
    ∃ c f l, compile
        "package p func f(a int) int { return 1 + f(a) } func main() { print(f(2)) }".toList =
          .ok c ∧ f ∈ c.program.funcs ∧ functionCode c.program f 0 = .ok l ∧
      ∀ w, Walk l w → ∀ target, l[w.pos]? = some (.instr (.call target)) →
        ∃ down, w.depth.down = some down ∧ down % 16 = 8 := by
  obtain ⟨c, hc, htest⟩ := exists_ok_of_any (P := fun c : Compilation =>
    c.program.funcs.any fun f => (functionCode c.program f 0).toOption.any fun _ => true) (x := compile
      "package p func f(a int) int { return 1 + f(a) } func main() { print(f(2)) }".toList)
    (by decide +kernel)
  obtain ⟨f, hf, hcode⟩ := List.any_eq_true.mp htest
  obtain ⟨l, hl, -⟩ := exists_ok_of_any hcode
  refine ⟨c, f, l, hc, hf, hl, fun w hw target hi => ?_⟩
  obtain ⟨down, hdown, hcall, -⟩ := (walk_depth_of_compile hc hf hl).2 w hw _ hi
  exact ⟨down, hdown, hcall target rfl⟩

end StackCompiler
