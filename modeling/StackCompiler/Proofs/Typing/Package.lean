import StackCompiler.Compilation
import StackCompiler.Proofs.Grammar.Package
import StackCompiler.Proofs.Rounding
import StackCompiler.Proofs.Typing.Statements

/-!
# Proofs/Typing/Package — what typing makes of a program

A typed program is one that the code can be made for: its trees are typed, and the locals of each
function are **stacked inside its frame** (`Function.Typed`).  A function's slots are given while it
is typed, and no later function touches them.  A program that is not typed is refused.
-/

namespace StackCompiler

open Typing

/-! ## Typed programs -/

/-- What calls in the program agree with. -/
def Program.signatures (p : Program) : List Signature :=
  p.declared.map (signatureOf p.vars)

/-- What typing makes of a function. -/
structure Function.Typed (vars : List Variable) (strings : Nat) (signatures : List Signature)
    (f : Function) : Prop where
  body : ∀ s ∈ f.body, TypedStmt (fun _ => True) vars strings signatures s
  params : f.params <+: f.locals
  ascending : f.locals.Pairwise (· < ·)
  /-- No parameter is an array. -/
  values : ∀ id ∈ f.params, ∃ v, vars[id]? = some v ∧ v.ty.isArray = false
  /-- Every local has a slot inside the frame. -/
  locals : ∀ id ∈ f.locals, ∃ v, vars[id]? = some v ∧ v.isLocal = true ∧
    v.ty.isResolved = true ∧ v.ty.Proper ∧ v.ty.size ≤ v.offset ∧ v.offset ≤ f.frame
  apart : ∀ id ∈ f.locals, ∀ id' ∈ f.locals, id ≠ id' →
    ∀ v v', vars[id]? = some v → vars[id']? = some v' → Apart v v'
  /-- The slots are stacked in some order, and those of the parameters **come first**. -/
  stacked : ∃ order, order.Perm f.locals ∧ f.params <+: order ∧
    Stacked vars 0 order (extent vars f.locals)
  frame : 16 ∣ f.frame ∧ 0 ≤ f.frame ∧ f.frame ≤ Word.greatest
  /-- The frame is no larger than it has to be. -/
  frame_lt : f.frame < extent vars f.locals + 16
  implicit : f.isImplicit = true → f.params = []

/-- A parameter has a type, **and is no array**. -/
theorem Function.Typed.exists_param {vars : List Variable} {strings : Nat}
    {signatures : List Signature} {f : Function} (hf : f.Typed vars strings signatures) {id : VarId}
    (hid : id ∈ f.params) :
    ∃ v, vars[id]? = some v ∧ v.ty.isResolved = true ∧ v.ty.isArray = false := by
  obtain ⟨v, hv, -, hr, -⟩ := hf.locals id (hf.params.subset hid)
  obtain ⟨w, hw, harray⟩ := hf.values id hid
  cases hv.symm.trans hw
  exact ⟨v, hv, hr, harray⟩

/-- What typing makes of a program. -/
structure Program.Typed (p : Program) : Prop where
  globals : ∀ id ∈ p.globals, ∃ v, p.vars[id]? = some v ∧ v.isLocal = false ∧
    v.ty.isResolved = true ∧ v.offset = 0
  proper : ∀ (id : VarId) (v : Variable), p.vars[id]? = some v → v.ty.Proper
  signatures : ∀ signature ∈ p.signatures, Ty.totalWords signature.params ≤ maxArgumentWords
  funcs : ∀ f ∈ p.funcs, f.Typed p.vars p.strings.length p.signatures

/-- What a call may agree with **has types**. -/
theorem Program.Typed.resolved {p : Program} (hp : p.Typed) :
    ∀ signature ∈ p.signatures, ∀ ty ∈ signature.params, ty.isResolved = true := by
  intro signature hs ty hty
  obtain ⟨f, hf, rfl⟩ := List.mem_map.mp hs
  obtain ⟨id, hid, rfl⟩ := List.mem_map.mp hty
  obtain ⟨v, hv, hr, -⟩ := (hp.funcs f (List.mem_of_mem_filter hf)).exists_param hid
  rwa [tyOf_eq hv]

namespace Typing

variable {own : VarId → Prop} {vars vars' : List Variable} {strings first last : Nat}
  {signatures : List Signature}

/-! ## In an arena that is filled in -/

theorem Expr.Unhidden.fills {locals : List VarId} (hf : Fills own vars vars') (e : Expr)
    (h : e.Unhidden vars locals) : e.Unhidden vars' locals := by
  cases e with
  | var id ty loc =>
    obtain ⟨v, hv, hname⟩ := h
    obtain ⟨v', hv', hfill⟩ := hf.at_number hv
    refine ⟨v', hv', fun hp hg l hl w' hw' => ?_⟩
    obtain ⟨w, hw, hfill'⟩ := hf.at_number_of_later hw'
    rw [hfill.name, hfill'.name]
    exact hname (hfill.isPlaceholder ▸ hp) (hfill.isLocal ▸ hg) l hl w hw
  | _ => trivial

/-- A function that has been read is one **in every arena that is filled in**. -/
theorem Fills.functionRead {f : Function} (hf : Fills own vars vars')
    (h : f.Read vars strings first last) : f.Read vars' strings first last where
  params := h.params
  resolved id hid := by
    obtain ⟨v, hv, hr, harray⟩ := h.resolved id hid
    obtain ⟨v', hv', hfill⟩ := hf.at_number hv
    have hty := hfill.ty hr
    exact ⟨v', hv', hty ▸ hr, hty ▸ harray⟩
  ascending := h.ascending
  locals id hid := by
    obtain ⟨hbounds, v, hv, hl, hp⟩ := h.locals id hid
    obtain ⟨v', hv', hfill⟩ := hf.at_number hv
    exact ⟨hbounds, v', hv', hfill.isLocal.trans hl, hfill.isPlaceholder.trans hp⟩
  last_le := hf.length ▸ h.last_le
  listed id v' hfirst hlast hv' hp hl := by
    obtain ⟨v, hv, hfill⟩ := hf.at_number_of_later hv'
    exact h.listed id v hfirst hlast hv (hfill.isPlaceholder ▸ hp) (hfill.isLocal ▸ hl)
  distinct id hid id' hid' w w' hw hw' hname := by
    obtain ⟨v, hv, hfill⟩ := hf.at_number_of_later hw
    obtain ⟨v', hv', hfill'⟩ := hf.at_number_of_later hw'
    exact h.distinct id hid id' hid' v v' hv hv' (by rw [← hfill.name, ← hfill'.name, hname])
  body s hs := hf.untypedStmt (h.body s hs)
  unhidden s hs := (h.unhidden s hs).mono (Expr.Unhidden.fills hf) fun _ h => h
  implicit := h.implicit

theorem Fills.readInTurn {fs : List Function} (hf : Fills own vars vars')
    (h : ReadInTurn vars strings first fs last) : ReadInTurn vars' strings first fs last := by
  induction h with
  | nil h => exact .nil h
  | cons h h' hg _ ih => exact .cons h h' (hf.functionRead hg) ih

/-- A typed function **stays as it is** when later functions are typed. -/
theorem Fills.functionTyped {f : Function} (hf : Fills own vars vars')
    (hproper : ∀ (id : VarId) (v : Variable), vars[id]? = some v → v.ty.Proper)
    (h : f.Typed vars strings signatures) : f.Typed vars' strings signatures := by
  have hlocals : ∀ id ∈ f.locals, ∃ v v', vars[id]? = some v ∧ vars'[id]? = some v' ∧
      v'.isLocal = true ∧ v'.ty = v.ty ∧ v'.offset = v.offset ∧ v.ty.isResolved = true ∧
      v.ty.Proper ∧ v.ty.size ≤ v.offset ∧ v.offset ≤ f.frame := fun id hid => by
    obtain ⟨v, hv, hl, hr, hp, hsize, hframe⟩ := h.locals id hid
    obtain ⟨v', hv', hfill⟩ := hf.at_number hv
    have hpos := (Ty.size_bounds hp hr).1
    exact ⟨v, v', hv, hv', hfill.isLocal.trans hl, hfill.ty hr,
      hfill.offset (.inl (by omega)), hr, hp, hsize, hframe⟩
  obtain ⟨order, hperm, hparams, hstacked⟩ := h.stacked
  have hstacked' := hstacked.fills hproper hf le_rfl
  have hextent : extent vars' f.locals = extent vars f.locals := by
    rw [hstacked'.eq_extent, extent_perm vars' hperm, Int.zero_add]
  refine ⟨fun s hs => hf.typedStmt (h.body s hs), h.params, h.ascending, fun id hid => ?_,
    fun id hid => ?_, fun id hid id' hid' hne w w' hw hw' => ?_,
    ⟨order, hperm, hparams, hextent ▸ hstacked'⟩, h.frame, hextent ▸ h.frame_lt, h.implicit⟩
  · obtain ⟨v, hv, harray⟩ := h.values id hid
    obtain ⟨w, v', hw, hv', -, hty, -⟩ := hlocals id (h.params.subset hid)
    cases hv.symm.trans hw
    exact ⟨v', hv', hty ▸ harray⟩
  · obtain ⟨v, v', -, hv', hl, hty, ho, hr, hp, hsize, hframe⟩ := hlocals id hid
    exact ⟨v', hv', hl, hty ▸ hr, hty ▸ hp, by rw [hty, ho]; exact hsize, ho ▸ hframe⟩
  · obtain ⟨v₁, v₁', hv₁, hv₁', -, hty₁, ho₁, -⟩ := hlocals id hid
    obtain ⟨v₂, v₂', hv₂, hv₂', -, hty₂, ho₂, -⟩ := hlocals id' hid'
    cases hw.symm.trans hv₁'
    cases hw'.symm.trans hv₂'
    have := h.apart id hid id' hid' hne v₁ v₂ hv₁ hv₂
    rwa [Apart, hty₁, ho₁, hty₂, ho₂]

/-! ## Functions -/

/-- What does not change of a function when it is typed. -/
structure SameHead (f f' : Function) : Prop where
  name : f'.name = f.name
  params : f'.params = f.params
  locals : f'.locals = f.locals
  isImplicit : f'.isImplicit = f.isImplicit

/-- The locals have no slots from that number on. -/
def SlotlessFrom (first : Nat) (vars : List Variable) : Prop :=
  ∀ (id : VarId) (v : Variable), first ≤ id → vars[id]? = some v → v.offset = 0

theorem reach_eq_zero {locals : List VarId}
    (h : ∀ id ∈ locals, ∀ v, vars[id]? = some v → v.offset = 0) : reach vars locals = 0 := by
  have hzero : ∀ n ∈ locals.map fun id => vars[id]?.elim 0 (·.offset), n = 0 := fun n hn => by
    obtain ⟨id, hid, rfl⟩ := List.mem_map.mp hn
    cases hv : vars[id]? with
    | none => rfl
    | some v => exact h id hid v hv
  unfold reach
  generalize locals.map (fun id => vars[id]?.elim 0 (·.offset)) = ns at hzero
  induction ns with
  | nil => rfl
  | cons n ns ih =>
    cases hzero n List.mem_cons_self
    exact ih fun m hm => hzero m (List.mem_cons_of_mem _ hm)

/-- A frame is the bytes taken, **rounded up**. -/
theorem alignUp?_frame {taken frame : Int} (ht : 0 ≤ taken)
    (h : Word.alignUp? taken frameAlignment = some frame) :
    taken ≤ frame ∧ frame < taken + 16 ∧ 16 ∣ frame ∧ frame ≤ Word.greatest := by
  obtain ⟨hframe, hsum⟩ := (Word.alignUp?_eq_some_iff ht (by decide)).mp h
  obtain ⟨hdvd, hle, hlt⟩ := (Word.roundedUp_iff (by decide)).mp hframe
  unfold frameAlignment at *
  exact ⟨hle, hlt, hdvd, by omega⟩

/-- What cannot be rounded up **has no multiple of 16 above it** that a word can count. -/
theorem lt_of_alignUp?_eq_none {taken : Int} (ht : 0 ≤ taken)
    (h : Word.alignUp? taken frameAlignment = none) {n : Int} (hdvd : 16 ∣ n) (hn : taken ≤ n) :
    Word.greatest < n := by
  have hsum := (Word.alignUp?_eq_none_iff ht (by decide)).mp h
  unfold frameAlignment Word.greatest at *
  omega

/-! ### The layout of a frame -/

/-- The parameters get their slots, then the locals as the body assigns to them, and then **the
locals that are left**. -/
def laidOut (s : Surroundings) (f : Function) : Layout (List Stmt) := do
  f.params.forM place
  let body ← typedStmts s f.body
  f.locals.forM place
  return body

theorem laidOut_bind {α : Type} (s : Surroundings) (f : Function) (k : List Stmt → Layout α) :
    laidOut s f >>= k = (do
      f.params.forM place
      let body ← typedStmts s f.body
      f.locals.forM place
      k body) := by
  simp only [laidOut, bind_assoc, pure_bind]

theorem typedFunction_eq (globals : List VarId) (signatures : List Signature) (f : Function) :
    typedFunction globals signatures f = (do
      modify fun slots => { slots with taken := reach slots.vars f.locals }
      let body ← laidOut ⟨f.locals, globals, signatures⟩ f
      match Word.alignUp? (← get).taken frameAlignment with
      | none => refuse (.frameTooLarge f.name) f.loc
      | some frame => return { f with body := body, frame := frame }) := by
  simp only [laidOut_bind]
  rfl

section Layout

variable {s : Surroundings} {slots : Slots}

theorem lays_forM {α : Type} {f : α → Layout Unit} {P : α → Slots → Prop}
    (hP : ∀ {a slots slots'}, Fills own slots.vars slots'.vars → P a slots → P a slots') :
    ∀ (as : List α) {slots : Slots},
      (∀ a ∈ as, ∀ slots', Fills own slots.vars slots'.vars →
        Lays own s slots' (f a) fun _ => P a) →
      Lays own s slots (as.forM f) fun _ slots' => ∀ a ∈ as, P a slots'
  | [], _, _ => lays_pure nofun
  | a :: as, _, hf => by
    refine (hf a List.mem_cons_self _ (.refl _)).bind fun _ slots₁ hfills₁ ha => ?_
    refine fun hslots₁ hs₁ => ?_
    obtain ⟨hensures, hfails⟩ := lays_forM (P := P) hP as (fun a' ha' slots' hfills =>
      hf a' (List.mem_cons_of_mem a ha') slots' (hfills₁.trans hfills)) hslots₁ hs₁
    exact ⟨hensures.mono fun _ slots₂ ⟨hslots₂, hfills₂, has⟩ =>
      ⟨hslots₂, hfills₂, List.forall_mem_cons.mpr ⟨hP hfills₂ ha, has⟩⟩, hfails⟩

/-- Parameters without slots are stacked **in their order** upon those before them. -/
theorem lays_params : ∀ (params : List VarId) {before : List VarId} {slots : Slots},
    Stacked slots.vars 0 before slots.taken → params.Nodup →
    (∀ id ∈ params, own id ∧ ∃ v, slots.vars[id]? = some v ∧ v.isLocal = true ∧
      v.isPlaceholder = false ∧ v.offset = 0) →
    Lays own s slots (params.forM place) fun _ slots' =>
      Stacked slots'.vars 0 (before ++ params) slots'.taken
  | [], before, _, hstacked, _, _ => lays_pure (by rwa [List.append_nil])
  | id :: params, before, slots, hstacked, hnodup, h => by
    obtain ⟨hown, v, hv, hlocal, hdeclared, ho⟩ := h id List.mem_cons_self
    have hplace : Lays own s slots (place id) fun _ slots' =>
        Stacked slots'.vars 0 (before ++ [id]) slots'.taken ∧
          ∃ stop, slots'.vars = slots.vars.modify id fun v => { v with offset := stop } := by
      intro hslots hs
      obtain ⟨hensures, hfails⟩ := lays_place hv (fun _ => ⟨hown, hdeclared⟩) hslots hs
      refine ⟨(hensures.and (ensures_place hv hlocal ho)).mono ?_, hfails⟩
      rintro _ _ ⟨⟨hslots', hfills, -⟩, hr, stop, hstop, -, rfl⟩
      exact ⟨hslots', hfills, stacked_place hslots hstacked hv hlocal hr ho hstop, stop, rfl⟩
    refine hplace.bind fun _ slots₁ _ ⟨hstacked₁, stop, hvars⟩ => ?_
    rw [List.append_cons]
    refine lays_params params hstacked₁ (List.nodup_cons.mp hnodup).2 fun id' hid' => ?_
    obtain ⟨hown', v', hv', h'⟩ := h id' (List.mem_cons_of_mem _ hid')
    have hne : id ≠ id' := fun heq => (List.nodup_cons.mp hnodup).1 (heq ▸ hid')
    exact ⟨hown', v', by rw [hvars, List.getElem?_modify]; simpa [hne] using hv', h'⟩

/-- **The layout of a frame**: the body is typed, every local has a slot, and the slots of the
parameters come first. -/
theorem lays_laidOut {f : Function} (hf : f.Read vars strings first last)
    (hslotless : SlotlessFrom first vars) :
    Lays (fun id => first ≤ id ∧ id < last) s ⟨vars, 0⟩ (laidOut s f) fun body slots' =>
      (∀ st ∈ body, TypedStmt (fun id => first ≤ id ∧ id < last) slots'.vars strings s.signatures st) ∧
        (∀ id ∈ f.locals, ∀ v, slots'.vars[id]? = some v → v.isLocal = true → v.offset ≠ 0) ∧
        ∃ stop, Stacked slots'.vars 0 f.params stop := by
  have hparams : Lays (fun id => first ≤ id ∧ id < last) s ⟨vars, 0⟩ (f.params.forM place)
      fun _ slots' => Stacked slots'.vars 0 f.params slots'.taken := by
    have hnil : Stacked (Slots.mk vars 0).vars 0 [] (Slots.mk vars 0).taken := .nil
    have hnodup : f.params.Nodup :=
      (hf.ascending.imp Nat.ne_of_lt).sublist hf.params.sublist
    refine lays_params f.params hnil hnodup fun id hid => ?_
    obtain ⟨hown, v, hv, hlocal, hdeclared⟩ := hf.locals id (hf.params.subset hid)
    exact ⟨hown, v, hv, hlocal, hdeclared, hslotless id v hown.1 hv⟩
  refine hparams.bind fun _ slots₁ hf₁ hstacked hslots₁ => ?_
  refine ((lays_typedStmts f.body fun st hst slots' hfills => lays_typedStmt st
    ((hf₁.trans hfills).untypedStmt (hf.body st hst))).bind fun body slots₂ hf₂ hbody => ?_) hslots₁
  refine Lays.bind (lays_forM (P := fun id slots => ∀ v : Variable, slots.vars[id]? = some v →
    v.isLocal = true → v.offset ≠ 0) (fun {id _ _} hfills h v' hv' hl => ?_) f.locals
    fun id hid slots' hfills => ?_) fun _ slots₃ hf₃ hplaced => lays_pure ?_
  · obtain ⟨v, hv, hfill⟩ := hfills.at_number_of_later hv'
    have ho := h v hv (hfill.isLocal ▸ hl)
    exact hfill.offset (.inl ho) ▸ ho
  · obtain ⟨hown, v, hv, -, hdeclared⟩ :=
      ((hf₁.trans (hf₂.trans hfills)).functionRead hf).locals id hid
    exact lays_place hv fun _ => ⟨hown, hdeclared⟩
  · exact ⟨fun st hst => hf₃.typedStmt (hbody st hst), hplaced, slots₁.taken,
      hstacked.fills hslots₁.proper (hf₂.trans hf₃) le_rfl⟩

end Layout

/-! ### Typed functions -/

/-- When all locals have their slots, these are stacked in some order and the bytes taken are those
of the locals **together**. -/
theorem Slots.Sound.exists_order {f : Function} {slots : Slots}
    (hslots : slots.Sound fun id => first ≤ id ∧ id < last)
    (hf : f.Read slots.vars strings first last)
    (hplaced : ∀ id ∈ f.locals, ∀ v, slots.vars[id]? = some v → v.isLocal = true → v.offset ≠ 0) :
    ∃ order, order.Perm f.locals ∧ Stacked slots.vars 0 order slots.taken := by
  obtain ⟨order, hmem, hstacked⟩ := hslots.stacked
  refine ⟨order, (List.perm_ext_iff_of_nodup (hstacked.nodup hslots.proper)
    (hf.ascending.imp Nat.ne_of_lt)).mpr fun id => ?_, hstacked⟩
  rw [hmem]
  -- what has a slot was declared in the function, so it is one of its locals
  refine ⟨fun ⟨hown, v, hv, ho⟩ => ?_, fun hid => ?_⟩
  · obtain ⟨hl, hp⟩ := hslots.declared id v hown hv ho
    exact hf.listed id v hown.1 hown.2 hv hp hl
  · obtain ⟨hown, v, hv, hl, -⟩ := hf.locals id hid
    exact ⟨hown, v, hv, hplaced id hid v hv hl⟩

theorem Slots.Sound.taken_eq {f : Function} {slots : Slots}
    (hslots : slots.Sound fun id => first ≤ id ∧ id < last)
    (hf : f.Read slots.vars strings first last)
    (hplaced : ∀ id ∈ f.locals, ∀ v, slots.vars[id]? = some v → v.isLocal = true → v.offset ≠ 0) :
    slots.taken = extent slots.vars f.locals := by
  obtain ⟨order, hperm, hstacked⟩ := hslots.exists_order hf hplaced
  rw [← extent_perm _ hperm, ← Int.zero_add (extent _ _)]
  exact hstacked.eq_extent

/-- A frame that is laid out and rounded up makes the function a **typed** one. -/
theorem functionTyped_of_read {f : Function} {slots : Slots} {body : List Stmt} {frame : Int}
    (hf : f.Read slots.vars strings first last)
    (hslots : slots.Sound fun id => first ≤ id ∧ id < last)
    (hbody : ∀ st ∈ body,
      TypedStmt (fun id => first ≤ id ∧ id < last) slots.vars strings signatures st)
    (hplaced : ∀ id ∈ f.locals, ∀ v, slots.vars[id]? = some v → v.isLocal = true → v.offset ≠ 0)
    {stop : Int} (hparams : Stacked slots.vars 0 f.params stop)
    (hframe : Word.alignUp? slots.taken frameAlignment = some frame) :
    Function.Typed slots.vars strings signatures { f with body := body, frame := frame } := by
  obtain ⟨htaken, hlt, hdvd, hle⟩ := alignUp?_frame hslots.taken.1 hframe
  have hlocals : ∀ id ∈ f.locals, (first ≤ id ∧ id < last) ∧ ∃ v, slots.vars[id]? = some v ∧
      v.isLocal = true ∧ v.offset ≠ 0 := fun id hid => by
    obtain ⟨hown, v, hv, hl, -⟩ := hf.locals id hid
    exact ⟨hown, v, hv, hl, hplaced id hid v hv hl⟩
  obtain ⟨order, hperm, hstacked⟩ := hslots.exists_order hf hplaced
  have hextent := hslots.taken_eq hf hplaced
  refine ⟨fun st hst => ?_, hf.params, hf.ascending, fun id hid => ?_, fun id hid => ?_,
    fun id hid id' hid' hne v v' hv hv' => ?_, ⟨order, hperm, ?_, hextent ▸ hstacked⟩,
    ⟨hdvd, hslots.taken.1.trans htaken, hle⟩, hextent ▸ hlt, hf.implicit⟩
  · refine (hbody st hst).mono (fun e he => ?_) fun _ h => h
    cases e with
    | var id ty loc => exact ⟨he.1.mono List.prefix_rfl fun _ => trivial, he.2⟩
    | _ => exact he
  · obtain ⟨v, hv, -, harray⟩ := hf.resolved id hid
    exact ⟨v, hv, harray⟩
  · obtain ⟨hown, v, hv, hl, ho⟩ := hlocals id hid
    obtain ⟨hr, hsize, hoffset⟩ := hslots.placed hown hv ho
    exact ⟨v, hv, hl, hr, hslots.proper id v hv, hsize, hoffset.trans htaken⟩
  · obtain ⟨hown, w, hw, -, ho⟩ := hlocals id hid
    obtain ⟨hown', w', hw', -, ho'⟩ := hlocals id' hid'
    cases hv.symm.trans hw
    cases hv'.symm.trans hw'
    exact hslots.apart hown hown' hne hv hv' ho ho'
  · exact hparams.prefix_of_subset hslots.proper hstacked fun id hid =>
      hperm.symm.subset (hf.params.subset hid)


/-- Locals of the function, each counted once, take more bytes together than a word can count, with
types that **fill in this arena**. -/
def TooLarge (vars : List Variable) (f : Function) : Prop :=
  ∃ vars' ids, Fills (fun _ => True) vars vars' ∧ ids.Nodup ∧ ids ⊆ f.locals ∧
    Word.greatest < extent vars' ids

/-- With types that fill in this arena, the multiples of 16 that all locals of the function fit into
are **more than a word can count**. -/
def Unroundable (vars : List Variable) (f : Function) : Prop :=
  ∃ vars', Fills (fun _ => True) vars vars' ∧
    ∀ n, 16 ∣ n → extent vars' f.locals ≤ n → Word.greatest < n

/-- The failure is a refusal for types or for a name that is not defined, and for a size **only if
the function is too large**. -/
def RefusalOf (vars : List Variable) (f : Function) (failure : Failure) : Prop :=
  ∃ cause offset, failure = .refused ⟨cause, offset⟩ ∧
    (cause.category = .type ∨ ∃ name, cause = .undefined name) ∧
    (∀ name, cause = .slotTooLarge name → TooLarge vars f) ∧
    ∀ name, cause = .frameTooLarge name → Unroundable vars f

theorem RefusalOf.mono {f : Function} (hf : Fills (fun _ => True) vars vars') {failure : Failure}
    (h : RefusalOf vars' f failure) : RefusalOf vars f failure := by
  obtain ⟨cause, offset, hfailure, hcategory, hslot, hframe⟩ := h
  refine ⟨cause, offset, hfailure, hcategory, fun name hname => ?_, fun name hname => ?_⟩
  · obtain ⟨vars'', ids, hf', h⟩ := hslot name hname
    exact ⟨vars'', ids, hf.trans hf', h⟩
  · obtain ⟨vars'', hf', h⟩ := hframe name hname
    exact ⟨vars'', hf.trans hf', h⟩

theorem refusalOf_of_read {f : Function} (hf : f.Read vars strings first last)
    {failure : Failure} (h : Refusal (fun id => first ≤ id ∧ id < last) vars failure) :
    RefusalOf vars f failure := by
  obtain ⟨cause, offset, hfailure, hcategory, hframe, hslot⟩ := h
  refine ⟨cause, offset, hfailure, hcategory, fun name hname => ?_,
    fun name hname => absurd hname (hframe name)⟩
  obtain ⟨vars', ids, hfills, hnodup, hids, hlarge⟩ := hslot name hname
  refine ⟨vars', ids, hfills.anywhere, hnodup, fun id hid => ?_, hlarge⟩
  obtain ⟨hown, v, hv, hl, hp⟩ := hids id hid
  exact (hfills.functionRead hf).listed id v hown.1 hown.2 hv hp hl

/-- What typing makes of a function's arena, and of the function. -/
def TypedInto (own : VarId → Prop) (strings : Nat) (signatures : List Signature) (slots : Slots)
    (f f' : Function) (slots' : Slots) : Prop :=
  Fills own slots.vars slots'.vars ∧
    (∀ (id : VarId) (v : Variable), slots'.vars[id]? = some v → v.ty.Proper) ∧
    SameHead f f' ∧ f'.Typed slots'.vars strings signatures

/-- **Typing a function** lays out its frame, and touches the slots of no other; or the function is
refused. -/
theorem typedFunction_outcome {globals : List VarId} {f : Function} {slots : Slots}
    (hf : f.Read slots.vars strings first last)
    (hglobals : ∀ id ∈ globals, ∃ v, slots.vars[id]? = some v ∧ v.isLocal = false ∧
      v.isPlaceholder = false)
    (hproper : ∀ (id : VarId) (v : Variable), slots.vars[id]? = some v → v.ty.Proper)
    (hslotless : SlotlessFrom first slots.vars) :
    Ensures (typedFunction globals signatures f) slots
        (TypedInto (fun id => first ≤ id ∧ id < last) strings signatures slots f) ∧
      Fails (typedFunction globals signatures f) slots (RefusalOf slots.vars f) := by
  have hreach : reach slots.vars f.locals = 0 :=
    reach_eq_zero fun id hid v hv => hslotless id v (hf.locals id hid).1.1 hv
  have hsurroundings : Surroundings.Sound (fun id => first ≤ id ∧ id < last) slots.vars
      ⟨f.locals, globals, signatures⟩ := by
    refine ⟨fun id hid => ?_, hglobals⟩
    obtain ⟨hown, v, hv, -, hp⟩ := hf.locals id hid
    exact ⟨hown, v, hv, hp⟩
  have hsound : Slots.Sound (fun id => first ≤ id ∧ id < last) ⟨slots.vars, 0⟩ :=
    .of_slotless hproper fun id v hown hv => hslotless id v hown.1 hv
  obtain ⟨hensures, hfails⟩ := lays_laidOut hf hslotless hsound hsurroundings
  rw [typedFunction_eq]
  constructor
  · simp only [ensures_bind, ensures_modify, hreach]
    refine hensures.mono ?_
    rintro body slots₁ ⟨hslots₁, hfills, hbody, hplaced, stop, hparams⟩
    rw [ensures_get]
    split
    · exact ensures_refuse _ _
    · next frame hframe =>
      exact (ensures_pure _ _ _).mpr ⟨hfills, hslots₁.proper, ⟨rfl, rfl, rfl, rfl⟩,
        functionTyped_of_read (hfills.functionRead hf) hslots₁ hbody hplaced hparams hframe⟩
  · simp only [fails_bind, fails_modify, ensures_modify, true_and, hreach]
    refine ⟨hfails.mono fun _ => refusalOf_of_read hf, hensures.mono ?_⟩
    rintro body slots₁ ⟨hslots₁, hfills, hbody, hplaced, stop, hparams⟩
    refine ⟨fails_get _ _, (ensures_get _ _).mpr ?_⟩
    split
    · next hframe =>
      rw [fails_lift]
      refine (errs_error _ _).mpr ⟨.frameTooLarge f.name, f.loc, rfl, .inl rfl,
        fun _ h => (by cases h), fun _ _ => ⟨slots₁.vars, hfills.anywhere, fun n hdvd hn => ?_⟩⟩
      have hextent := hslots₁.taken_eq (hfills.functionRead hf) hplaced
      exact lt_of_alignUp?_eq_none hslots₁.taken.1 hframe hdvd (hextent ▸ hn)
    · exact fails_pure _ _ _

/-! ## Programs -/

/-- **Functions are typed in turn**; when one is, none after it has a slot yet. -/
theorem typedFunctions_outcome (signatures : List Signature) {globals : List VarId}
    {fs : List Function} :
    ∀ {first : Nat} {slots : Slots}, ReadInTurn slots.vars strings first fs last →
      (∀ id ∈ globals, ∃ v, slots.vars[id]? = some v ∧ v.isLocal = false ∧
        v.isPlaceholder = false) →
      (∀ (id : VarId) (v : Variable), slots.vars[id]? = some v → v.ty.Proper) →
      SlotlessFrom first slots.vars →
      (Ensures (fs.mapM (typedFunction globals signatures)) slots fun fs' slots' =>
        Fills (fun _ => True) slots.vars slots'.vars ∧
          (∀ (id : VarId) (v : Variable), slots'.vars[id]? = some v → v.ty.Proper) ∧
          List.Forall₂ SameHead fs fs' ∧ ∀ f ∈ fs', f.Typed slots'.vars strings signatures) ∧
        Fails (fs.mapM (typedFunction globals signatures)) slots fun failure =>
          ∃ f ∈ fs, RefusalOf slots.vars f failure := by
  induction fs with
  | nil =>
    intro first slots _ _ hproper _
    rw [List.mapM_nil]
    exact ⟨(ensures_pure _ _ _).mpr ⟨.refl _, hproper, .nil, nofun⟩, fails_pure _ _ _⟩
  | cons f fs ih =>
    intro first slots hread hglobals hproper hslotless
    cases hread with
    | @cons _ start middle _ _ _ hle hle' hf hfs =>
    obtain ⟨hensures, hfails⟩ := typedFunction_outcome hf hglobals hproper
      fun id v hid => hslotless id v (hle.trans hid)
    have hrest {slots₁ : Slots} {f' : Function}
        (h : TypedInto (fun id => start ≤ id ∧ id < middle) strings signatures slots f f' slots₁) :=
      ih (h.1.readInTurn hfs) (fun id hid => by
        obtain ⟨v, hv, hglobal, hp⟩ := hglobals id hid
        obtain ⟨v', hv', hfill⟩ := h.1.at_number hv
        exact ⟨v', hv', hfill.isLocal.trans hglobal, hfill.isPlaceholder.trans hp⟩) h.2.1
        fun id v hmid hv => by
          obtain ⟨w, hw, hfill⟩ := h.1.at_number_of_later hv
          rw [hfill.offset (.inr fun h => absurd h.2 hmid.not_gt)]
          exact hslotless id w (hle.trans (hle'.trans hmid)) hw
    rw [List.mapM_cons]
    constructor
    · rw [ensures_bind]
      refine hensures.mono fun f' slots₁ h₁ => ?_
      rw [ensures_bind]
      refine (hrest h₁).1.mono fun fs' slots₂ ⟨hf₂, hproper₂, hheads, htypeds⟩ => ?_
      exact (ensures_pure _ _ _).mpr ⟨h₁.1.anywhere.trans hf₂, hproper₂, .cons h₁.2.2.1 hheads,
        List.forall_mem_cons.mpr ⟨hf₂.functionTyped h₁.2.1 h₁.2.2.2, htypeds⟩⟩
    · rw [fails_bind]
      refine ⟨hfails.mono fun _ h => ⟨f, List.mem_cons_self, h⟩, hensures.mono fun f' slots₁ h₁ => ?_⟩
      rw [fails_bind]
      refine ⟨(hrest h₁).2.mono ?_, fun _ _ _ => fails_pure _ _ _⟩
      rintro failure ⟨g, hg, h⟩
      exact ⟨g, List.mem_cons_of_mem _ hg, h.mono h₁.1.anywhere⟩

theorem Fills.signatureOf (hf : Fills own vars vars') {f f' : Function} (hhead : SameHead f f')
    (hread : f.Read vars strings first last) :
    Typing.signatureOf vars' f' = Typing.signatureOf vars f := by
  unfold Typing.signatureOf
  rw [hhead.name, hhead.params]
  refine congrArg (Signature.mk f.name) (List.map_congr_left fun id hid => ?_)
  obtain ⟨v, hv, hr, -⟩ := hread.resolved id hid
  obtain ⟨v', hv', hfill⟩ := hf.at_number hv
  rw [tyOf, tyOf, hv, hv']
  exact hfill.ty hr

/-- Calls agree with what the functions were **before and after** typing. -/
theorem Fills.signaturesOf (hf : Fills own vars vars') {fs fs' : List Function}
    (hheads : List.Forall₂ SameHead fs fs')
    (hread : ∀ f ∈ fs, ∃ first last, f.Read vars strings first last) :
    (fs'.filter fun f => !f.isImplicit).map (Typing.signatureOf vars') =
      (fs.filter fun f => !f.isImplicit).map (Typing.signatureOf vars) := by
  induction hheads with
  | nil => rfl
  | @cons f f' fs fs' hhead _ ih =>
    obtain ⟨first, last, hf'⟩ := hread f List.mem_cons_self
    have ih := ih fun g hg => hread g (List.mem_cons_of_mem _ hg)
    rw [List.filter_cons, List.filter_cons, hhead.isImplicit]
    split
    · rw [List.map_cons, List.map_cons, hf.signatureOf hhead hf', ih]
    · exact ih

theorem yields_checkParameters (vars : List Variable) (f : Function) :
    Yields (checkParameters vars f) fun _ =>
      Ty.totalWords (signatureOf vars f).params ≤ maxArgumentWords := by
  unfold checkParameters
  dsimp only
  split
  · exact yields_error _ _
  · next h => exact (yields_pure _ _).mpr (not_lt.mp h)

theorem yields_checkGlobal (vars : List Variable) (id : VarId) :
    Yields (checkGlobal vars id) fun _ =>
      ∃ v, vars[id]? = some v ∧ v.ty.isResolved = true := by
  unfold checkGlobal
  rw [yields_bind]
  refine (yields_variableOf vars id).mono fun v hv => ?_
  split
  · exact yields_error _ _
  · next h => exact (yields_pure _ _).mpr ⟨v, hv, by simpa using h⟩

theorem errs_checkParameters (vars : List Variable) (f : Function) {E : Failure → Prop}
    (h : ∀ words, E (.refused ⟨.parameterWords f.name words, f.loc⟩)) :
    Errs (checkParameters vars f) E := by
  unfold checkParameters
  dsimp only
  split
  · exact (errs_error _ _).mpr (h _)
  · exact errs_pure _ _

theorem errs_checkGlobal {id : VarId} {v : Variable} (hv : vars[id]? = some v) {E : Failure → Prop}
    (h : E (.refused ⟨.uninferable v.name, v.loc⟩)) : Errs (checkGlobal vars id) E := by
  unfold checkGlobal
  rw [errs_bind]
  refine ⟨errs_variableOf hv E, fun w hw => ?_⟩
  cases hv.symm.trans (yields_variableOf vars id w hw)
  split
  · exact (errs_error _ _).mpr h
  · exact errs_pure _ _

end Typing

/-- The program `p'` is `p` with its **types and frames**. -/
structure Program.Resolved (p p' : Program) : Prop where
  package : p'.package = p.package
  globals : p'.globals = p.globals
  strings : p'.strings = p.strings
  fills : Fills (fun _ => True) p.vars p'.vars
  heads : List.Forall₂ SameHead p.funcs p'.funcs
  signatures : p'.signatures = p.signatures
  typed : p'.Typed

/-- The failure is a refusal for types or for a name that is not defined, and for a size **only if a
function is too large**. -/
def Program.RefusedFor (p : Program) (failure : Failure) : Prop :=
  ∃ cause offset, failure = .refused ⟨cause, offset⟩ ∧
    (cause.category = .type ∨ ∃ name, cause = .undefined name) ∧
    (∀ name, cause = .slotTooLarge name → ∃ f ∈ p.funcs, TooLarge p.vars f) ∧
    ∀ name, cause = .frameTooLarge name → ∃ f ∈ p.funcs, Unroundable p.vars f

/-- **A program that has been read is resolved, or refused.** -/
theorem Program.Read.resolve_outcome {p : Program} (hread : p.Read) :
    Yields p.resolve p.Resolved ∧ Errs p.resolve p.RefusedFor := by
  have hrefused {cause : Cause} {offset : Nat} (hcategory : cause.category = .type)
      (hslot : ∀ name, cause ≠ .slotTooLarge name) (hframe : ∀ name, cause ≠ .frameTooLarge name) :
      p.RefusedFor (.refused ⟨cause, offset⟩) :=
    ⟨cause, offset, rfl, .inl hcategory, fun name h => absurd h (hslot name),
      fun name h => absurd h (hframe name)⟩
  have hfuncs : ReadInTurn (Slots.mk p.vars 0).vars p.strings.length 0 p.funcs p.vars.length :=
    hread.funcs
  obtain ⟨hensures, hfails⟩ := typedFunctions_outcome p.signatures hfuncs hread.globals (fun id v hv => hread.proper v (List.mem_of_getElem? hv))
    fun id v _ hv => hread.slotless v (List.mem_of_getElem? hv)
  unfold Program.resolve
  constructor
  · rw [yields_bind]
    refine (yields_forM p.declared fun f _ => yields_checkParameters p.vars f).mono
      fun _ hwords => ?_
    dsimp only
    rw [yields_bind]
    refine hensures.run.mono fun ⟨funcs, slots⟩ ⟨hfills, hproper, hheads, htyped⟩ => ?_
    dsimp only at hfills hproper hheads htyped ⊢
    rw [yields_bind]
    refine (yields_forM p.globals fun id _ => yields_checkGlobal slots.vars id).mono
      fun _ hglobals => (yields_pure _ _).mpr ?_
    have hsignatures : Program.signatures { p with vars := slots.vars, funcs := funcs } =
        p.signatures := hfills.signaturesOf hheads fun f hf => hread.funcs.exists_read hf
    refine ⟨rfl, rfl, rfl, hfills, hheads, hsignatures,
      fun id hid => ?_, hproper, fun signature hs => ?_, fun f hf => ?_⟩
    · obtain ⟨v, hv, hr⟩ := hglobals id hid
      obtain ⟨w, hw, hglobal, -⟩ := hread.globals id hid
      obtain ⟨v', hv', hfill⟩ := hfills.at_number hw
      cases hv.symm.trans hv'
      exact ⟨v, hv, hfill.isLocal.trans hglobal, hr,
        (hfill.global hglobal).trans (hread.slotless w (List.mem_of_getElem? hw))⟩
    · rw [hsignatures] at hs
      obtain ⟨f, hf, rfl⟩ := List.mem_map.mp hs
      exact hwords f hf
    · rw [hsignatures]
      exact htyped f hf
  · rw [errs_bind]
    refine ⟨errs_forM _ fun f _ => errs_checkParameters _ f fun _ => hrefused rfl nofun nofun,
      fun _ _ => ?_⟩
    dsimp only
    rw [errs_bind]
    refine ⟨hfails.run.mono ?_, hensures.run.mono ?_⟩
    · rintro failure ⟨f, hf, cause, offset, hfailure, hcategory, hslot, hframe⟩
      exact ⟨cause, offset, hfailure, hcategory, fun name h => ⟨f, hf, hslot name h⟩,
        fun name h => ⟨f, hf, hframe name h⟩⟩
    · rintro ⟨funcs, slots⟩ ⟨hfills, -⟩
      refine (errs_bind _ _ _).mpr ⟨errs_forM _ fun id hid => ?_, fun _ _ => errs_pure _ _⟩
      obtain ⟨w, hw, -⟩ := hread.globals id hid
      obtain ⟨v, hv, -⟩ := hfills.at_number hw
      exact errs_checkGlobal hv (hrefused rfl nofun nofun)

/-- **Resolving a program that has been read makes a typed program of it.** -/
theorem Program.Read.typed {p : Program} (hread : p.Read) : Yields p.resolve Program.Typed :=
  hread.resolve_outcome.1.mono fun _ h => h.typed

/-! ## Sources -/

/-- The program that a source spells, with its types and frames. -/
def Program.ofSource (source : List Char) : Except Failure Program := do
  let tokens ← tokensOf source
  let read ← Program.ofTokens source tokens
  read.resolve

/-- A source that spells a program is **cut, read and resolved**. -/
theorem Program.ofSource_ok {source : List Char} {p' : Program}
    (h : Program.ofSource source = .ok p') :
    ∃ tokens p, tokensOf source = .ok tokens ∧ Program.ofTokens source tokens = .ok p ∧
      p.resolve = .ok p' := by
  obtain ⟨tokens, htokens, h⟩ := bind_eq_ok_iff.mp h
  obtain ⟨p, hread, h⟩ := bind_eq_ok_iff.mp h
  exact ⟨tokens, p, htokens, hread, h⟩

theorem tokenize_of_tokensOf {source : List Char} {tokens : List Token}
    (h : tokensOf source = .ok tokens) : tokenize source = .ok tokens := by
  cases htokenize : tokenize source with
  | error d => rw [tokensOf, htokenize] at h; cases h
  | ok ts => rw [tokensOf, htokenize] at h; cases h; rfl

/-- A program that a source spells is **typed**. -/
theorem Program.typed_of_ofSource {source : List Char} {p : Program}
    (h : Program.ofSource source = .ok p) : p.Typed := by
  obtain ⟨tokens, read, -, hread, hresolve⟩ := Program.ofSource_ok h
  exact (Program.read_of_ofTokens hread).typed p hresolve

end StackCompiler
