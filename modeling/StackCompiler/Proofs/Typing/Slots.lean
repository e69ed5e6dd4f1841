import StackCompiler.Proofs.Ensures
import StackCompiler.Proofs.Typing.Stacked
import StackCompiler.Typing.Slots

/-!
# Proofs/Typing/Slots — types and slots are given once

The walk over a body only **fills in** what the arena lacks (`Fills`): types of variables that have
none, and slots of the locals that are the body's own.  The slots it gives are stacked, up to the
bytes that have been taken (`Slots.Sound`).
-/

namespace StackCompiler.Typing

variable {own : VarId → Prop}

/-! ## Filling in -/

/-- The later variable is the earlier one with its type and its slot filled in; **no slot is given**
where none may be. -/
structure FillsIn (own : Prop) (v v' : Variable) : Prop where
  name : v'.name = v.name
  isLocal : v'.isLocal = v.isLocal
  isPlaceholder : v'.isPlaceholder = v.isPlaceholder
  ty : v.ty.isResolved = true → v'.ty = v.ty
  offset : v.offset ≠ 0 ∨ ¬own → v'.offset = v.offset
  global : v.isLocal = false → v'.offset = v.offset

/-- The later arena is the earlier one with types and slots filled in, slots only of the variables
that are the body's own. -/
structure Fills (own : VarId → Prop) (vars vars' : List Variable) : Prop where
  length : vars'.length = vars.length
  at_number : ∀ {id v}, vars[id]? = some v → ∃ v', vars'[id]? = some v' ∧ FillsIn (own id) v v'

theorem FillsIn.refl (own : Prop) (v : Variable) : FillsIn own v v :=
  ⟨rfl, rfl, rfl, fun _ => rfl, fun _ => rfl, fun _ => rfl⟩

theorem FillsIn.trans {own : Prop} {v v' v'' : Variable} (h : FillsIn own v v')
    (h' : FillsIn own v' v'') : FillsIn own v v'' where
  name := h'.name.trans h.name
  isLocal := h'.isLocal.trans h.isLocal
  isPlaceholder := h'.isPlaceholder.trans h.isPlaceholder
  ty hr := by
    have hty := h.ty hr
    exact (h'.ty (hty ▸ hr)).trans hty
  offset ho := by
    have hoffset := h.offset ho
    exact (h'.offset (ho.imp_left fun h => hoffset ▸ h)).trans hoffset
  global hg := (h'.global (h.isLocal.trans hg)).trans (h.global hg)

namespace Fills

variable {vars vars' vars'' : List Variable}

theorem refl (vars : List Variable) : Fills own vars vars :=
  ⟨rfl, fun {_ v} hv => ⟨v, hv, .refl _ v⟩⟩

theorem trans (h : Fills own vars vars') (h' : Fills own vars' vars'') : Fills own vars vars'' := by
  refine ⟨h'.length.trans h.length, fun hv => ?_⟩
  obtain ⟨v', hv', hf⟩ := h.at_number hv
  obtain ⟨v'', hv'', hf'⟩ := h'.at_number hv'
  exact ⟨v'', hv'', hf.trans hf'⟩

/-- Where some may be given slots, **all may**. -/
theorem anywhere (h : Fills own vars vars') : Fills (fun _ => True) vars vars' :=
  ⟨h.length, fun hv => (h.at_number hv).imp fun _ ⟨hv', hf⟩ =>
    ⟨hv', hf.name, hf.isLocal, hf.isPlaceholder, hf.ty,
      fun ho => hf.offset (ho.imp_right fun h => absurd trivial h), hf.global⟩⟩

/-- The later arena has **nothing but** the variables of the earlier one. -/
theorem at_number_of_later (h : Fills own vars vars') {id : VarId} {v' : Variable}
    (hv' : vars'[id]? = some v') : ∃ v, vars[id]? = some v ∧ FillsIn (own id) v v' := by
  have hlt : id < vars.length := h.length ▸ (List.getElem?_eq_some_iff.mp hv').1
  obtain ⟨w, hw, hf⟩ := h.at_number (List.getElem?_eq_getElem hlt)
  cases hv'.symm.trans hw
  exact ⟨_, List.getElem?_eq_getElem hlt, hf⟩

/-- What stands in an arena of which **one variable** was changed. -/
theorem of_getElem?_modify {α : Type} {l : List α} {i j : Nat} {f : α → α} {b : α}
    (h : (l.modify i f)[j]? = some b) :
    (j = i ∧ ∃ a, l[j]? = some a ∧ b = f a) ∨ (j ≠ i ∧ l[j]? = some b) := by
  rw [List.getElem?_modify] at h
  by_cases hij : i = j
  · subst hij
    obtain ⟨a, ha, hb⟩ := Option.map_eq_some_iff.mp h
    exact .inl ⟨rfl, a, ha, by simpa using hb.symm⟩
  · refine .inr ⟨Ne.symm hij, ?_⟩
    simpa [hij] using h

/-- A change of one variable that only fills in. -/
theorem modify {id : VarId} {f : Variable → Variable}
    (hf : ∀ v, vars[id]? = some v → FillsIn (own id) v (f v)) :
    Fills own vars (vars.modify id f) := by
  refine ⟨List.length_modify .., fun {id' v} hv => ?_⟩
  rw [List.getElem?_modify, hv]
  by_cases h : id = id'
  · subst h
    exact ⟨f v, by simp, hf v hv⟩
  · exact ⟨v, by simp [h], .refl _ v⟩

end Fills

/-- Slots that are stacked **stay as they are**. -/
theorem Stacked.fills {vars vars' : List Variable}
    (hproper : ∀ (id : VarId) (v : Variable), vars[id]? = some v → v.ty.Proper)
    (hf : Fills own vars vars') {start stop : Int} {ids : List VarId} (hstart : 0 ≤ start)
    (h : Stacked vars start ids stop) : Stacked vars' start ids stop := by
  induction h with
  | nil => exact .nil
  | @cons _ _ id _ v hv hr ho _ ih =>
    obtain ⟨v', hv', hfill⟩ := hf.at_number hv
    have hsize := (Ty.size_bounds (hproper id v hv) hr).1
    have hty := hfill.ty hr
    have hoffset := hfill.offset (.inl (by omega))
    exact .cons hv' (hty ▸ hr) (by rw [hoffset, hty, ho]) (hoffset ▸ ih (by omega))

/-! ## Sound slots -/

/-- The variable has a slot. -/
def HasSlot (vars : List Variable) (id : VarId) : Prop :=
  ∃ v, vars[id]? = some v ∧ v.offset ≠ 0

/-- The slots given to the body's own locals are **stacked on the frame's base**, up to the bytes
taken. -/
structure Slots.Sound (own : VarId → Prop) (slots : Slots) : Prop where
  proper : ∀ (id : VarId) (v : Variable), slots.vars[id]? = some v → v.ty.Proper
  taken : 0 ≤ slots.taken ∧ slots.taken ≤ Word.greatest
  declared : ∀ (id : VarId) (v : Variable), own id → slots.vars[id]? = some v → v.offset ≠ 0 →
    v.isLocal = true ∧ v.isPlaceholder = false
  stacked : ∃ order, (∀ id, id ∈ order ↔ own id ∧ HasSlot slots.vars id) ∧
    Stacked slots.vars 0 order slots.taken

namespace Slots.Sound

variable {slots : Slots} {id id' : VarId} {v v' : Variable}

/-- A slot that was given is large enough, and lies **below the bytes taken**. -/
theorem placed (hs : slots.Sound own) (hown : own id) (hv : slots.vars[id]? = some v)
    (ho : v.offset ≠ 0) :
    v.ty.isResolved = true ∧ v.ty.size ≤ v.offset ∧ v.offset ≤ slots.taken := by
  obtain ⟨order, hmem, hstacked⟩ := hs.stacked
  obtain ⟨hr, -, hsize, hle⟩ :=
    hstacked.bounds hs.proper ((hmem id).mpr ⟨hown, v, hv, ho⟩) hv
  exact ⟨hr, by omega, hle⟩

/-- Slots that were given **do not overlap**. -/
theorem apart (hs : slots.Sound own) (hown : own id) (hown' : own id') (hne : id ≠ id')
    (hv : slots.vars[id]? = some v) (hv' : slots.vars[id']? = some v') (ho : v.offset ≠ 0)
    (ho' : v'.offset ≠ 0) : Apart v v' := by
  obtain ⟨order, hmem, hstacked⟩ := hs.stacked
  exact hstacked.apart hs.proper ((hmem id).mpr ⟨hown, v, hv, ho⟩)
    ((hmem id').mpr ⟨hown', v', hv', ho'⟩) hne hv hv'

/-- Without any slots, **no byte** is taken. -/
theorem of_slotless {vars : List Variable}
    (hproper : ∀ (id : VarId) (v : Variable), vars[id]? = some v → v.ty.Proper)
    (h : ∀ (id : VarId) (v : Variable), own id → vars[id]? = some v → v.offset = 0) :
    Slots.Sound own ⟨vars, 0⟩ where
  proper := hproper
  taken := ⟨le_rfl, Int.zero_le_ofNat _⟩
  declared id v hown hv ho := absurd (h id v hown hv) ho
  stacked := ⟨[], fun id => ⟨nofun, fun ⟨hown, v, hv, ho⟩ => absurd (h id v hown hv) ho⟩, .nil⟩

end Slots.Sound

/-- How slots are given while a body is walked whose own locals are these. -/
abbrev course (own : VarId → Prop) : Course Slots where
  Sound := Slots.Sound own
  Leads slots slots' := Fills own slots.vars slots'.vars
  refl slots := .refl slots.vars
  trans := Fills.trans

/-- What a step of the walk that started from `slots` has made of them, and `Q` of its result. -/
abbrev Laid {α : Type} (own : VarId → Prop) (slots : Slots) (Q : α → Slots → Prop) :
    α → Slots → Prop :=
  (course own).Kept slots Q

section Steps

variable {slots : Slots} {id : VarId} {α : Type} {Q : α → Slots → Prop}

@[simp] theorem ensures_refuse (cause : Cause) (loc : Nat) :
    Ensures (liftM (refuse cause loc : Except Failure α) : Layout α) slots Q :=
  (ensures_lift _ slots Q).mpr (yields_error _ _)

theorem yields_variableOf (vars : List Variable) (id : VarId) :
    Yields (variableOf vars id) fun v => vars[id]? = some v := by
  unfold variableOf
  cases h : vars[id]? with
  | none => exact yields_error _ _
  | some v => exact (yields_ok _ _).mpr rfl

/-- Giving a type changes **no slot**. -/
theorem keeps_giveType (hs : slots.Sound own) {ty : Ty} (hty : ty.Proper)
    (hr : ty.isResolved = true) :
    Ensures (giveType id ty) slots (Laid own slots fun _ slots' =>
      ∀ v, slots'.vars[id]? = some v → v.ty.isResolved = true) := by
  unfold giveType
  rw [ensures_modify]
  have hfills : Fills own slots.vars (slots.vars.modify id fun v =>
      if v.ty.isResolved then v else { v with ty := ty }) := .modify fun v _ => by
    split
    · exact .refl _ v
    · next h => exact ⟨rfl, rfl, rfl, fun hv => absurd hv h, fun _ => rfl, fun _ => rfl⟩
  have hoffset {id' : VarId} {v' : Variable}
      (hv' : (slots.vars.modify id fun v =>
        if v.ty.isResolved then v else { v with ty := ty })[id']? = some v') :
      ∃ v, slots.vars[id']? = some v ∧ FillsIn (own id') v v' ∧ v'.offset = v.offset := by
    obtain ⟨v, hv, hfill⟩ := hfills.at_number_of_later hv'
    refine ⟨v, hv, hfill, ?_⟩
    rcases Fills.of_getElem?_modify hv' with ⟨-, w, hw, rfl⟩ | ⟨-, hw⟩
    · cases hv.symm.trans hw
      split <;> rfl
    · cases hv.symm.trans hw
      rfl
  obtain ⟨order, hmem, hstacked⟩ := hs.stacked
  refine ⟨⟨fun id' v' hv' => ?_, hs.taken, fun id' v' hown hv' ho => ?_, order, fun id' => ?_,
    hstacked.fills hs.proper hfills le_rfl⟩, hfills, fun v' hv' => ?_⟩
  · rcases Fills.of_getElem?_modify hv' with ⟨-, v, hv, rfl⟩ | ⟨-, hv⟩
    · split
      · exact hs.proper _ _ hv
      · exact hty
    · exact hs.proper _ _ hv
  · obtain ⟨v, hv, hfill, hoff⟩ := hoffset hv'
    rw [hfill.isLocal, hfill.isPlaceholder]
    exact hs.declared id' v hown hv (hoff ▸ ho)
  · rw [hmem]
    refine and_congr_right fun _ => ⟨fun ⟨v, hv, ho⟩ => ?_, fun ⟨v', hv', ho⟩ => ?_⟩
    · obtain ⟨v', hv', hfill⟩ := hfills.at_number hv
      exact ⟨v', hv', hfill.offset (.inl ho) ▸ ho⟩
    · obtain ⟨v, hv, -, hoff⟩ := hoffset hv'
      exact ⟨v, hv, hoff ▸ ho⟩
  · rcases Fills.of_getElem?_modify hv' with ⟨-, v, hv, rfl⟩ | ⟨hne, -⟩
    · split
      · assumption
      · exact hr
    · exact absurd rfl hne

/-- A local that has a type but no slot **gets the bytes right above those taken**. -/
theorem ensures_place {v : Variable} (hv : slots.vars[id]? = some v) (hlocal : v.isLocal = true)
    (ho : v.offset = 0) :
    Ensures (place id) slots fun _ slots' => v.ty.isResolved = true ∧
      ∃ stop, stop = slots.taken + v.ty.size ∧ stop ≤ Word.greatest ∧
        slots' = ⟨slots.vars.modify id fun v => { v with offset := stop }, stop⟩ := by
  unfold place
  simp only [ensures_bind, ensures_get, ensures_lift]
  refine (yields_variableOf slots.vars id).mono fun w hw => ?_
  cases hv.symm.trans hw
  rw [if_neg (by simp [hlocal, ho])]
  split
  · exact (ensures_bind _ _ _ _).mpr (ensures_refuse _ _)
  next hresolved =>
  split
  · exact ensures_refuse _ _
  next stop hstop =>
  obtain ⟨⟨-, hle⟩, rfl⟩ := Word.fit?_eq_some_iff.mp hstop
  rw [ensures_set]
  exact ⟨by simpa using hresolved, _, rfl, hle, rfl⟩

/-- What has a slot, or is no local, is **left as it is**. -/
theorem ensures_place_of_placed {v : Variable} (hv : slots.vars[id]? = some v)
    (h : v.isLocal = true → v.offset ≠ 0) :
    Ensures (place id) slots fun _ slots' => slots' = slots := by
  unfold place
  simp only [ensures_bind, ensures_get, ensures_lift]
  refine (yields_variableOf slots.vars id).mono fun w hw => ?_
  cases hv.symm.trans hw
  rw [if_pos]
  · exact (ensures_pure _ _ _).mpr rfl
  · cases hl : v.isLocal with
    | false => rfl
    | true => simpa using h hl

theorem fills_place {v : Variable} (hv : slots.vars[id]? = some v) (hlocal : v.isLocal = true)
    (hown : own id) (ho : v.offset = 0) (stop : Int) :
    Fills own slots.vars (slots.vars.modify id fun v => { v with offset := stop }) :=
  .modify fun w hw => by
    cases hv.symm.trans hw
    exact ⟨rfl, rfl, rfl, fun _ => rfl, fun h => h.elim (absurd ho) (absurd hown), fun hg => by
      rw [hlocal] at hg; cases hg⟩

/-- Slots stay stacked when **one more** is given. -/
theorem stacked_place {v : Variable} {order : List VarId} (hs : slots.Sound own)
    (hstacked : Stacked slots.vars 0 order slots.taken) (hv : slots.vars[id]? = some v)
    (hlocal : v.isLocal = true) (hr : v.ty.isResolved = true) (ho : v.offset = 0) {stop : Int}
    (hstop : stop = slots.taken + v.ty.size) :
    Stacked (slots.vars.modify id fun v => { v with offset := stop }) 0 (order ++ [id]) stop := by
  have hfills : Fills (fun _ => True) slots.vars
      (slots.vars.modify id fun v => { v with offset := stop }) :=
    fills_place hv hlocal trivial ho stop
  have hw : (slots.vars.modify id fun v => { v with offset := stop })[id]? =
      some { v with offset := stop } := by
    rw [List.getElem?_modify, hv]
    simp
  exact (hstacked.fills hs.proper hfills le_rfl).concat hw hr hstop

/-- A declared local of the body's own **gets its slot**. -/
theorem keeps_place (hs : slots.Sound own) (hid : ∀ v, slots.vars[id]? = some v →
      v.isLocal = true → own id ∧ v.isPlaceholder = false) :
    Ensures (place id) slots (Laid own slots fun _ slots' =>
      ∀ v, slots'.vars[id]? = some v → v.isLocal = true → v.offset ≠ 0) := by
  cases hv : slots.vars[id]? with
  | none =>
    unfold place
    simp only [ensures_bind, ensures_get, ensures_lift]
    exact (yields_variableOf slots.vars id).mono fun v hv' => by rw [hv] at hv'; cases hv'
  | some v =>
  by_cases hplaced : v.isLocal = true → v.offset ≠ 0
  · refine (ensures_place_of_placed hv hplaced).mono ?_
    rintro _ _ rfl
    exact ⟨hs, .refl _, fun w hw => by cases hv.symm.trans hw; exact hplaced⟩
  obtain ⟨hlocal, ho⟩ := Classical.not_imp.mp hplaced
  replace ho := not_not.mp ho
  obtain ⟨hown, hdeclared⟩ := hid v hv hlocal
  refine (ensures_place hv hlocal ho).mono ?_
  rintro _ _ ⟨hr, stop, hstop, hle, rfl⟩
  have hsize := (Ty.size_bounds (hs.proper id v hv) hr).1
  have htaken := hs.taken
  have hfills : Fills own slots.vars (slots.vars.modify id fun v => { v with offset := stop }) :=
    fills_place hv hlocal hown ho stop
  obtain ⟨order, hmem, hstacked⟩ := hs.stacked
  refine ⟨⟨fun id' v' hv' => ?_, ⟨by dsimp only; omega, hle⟩, fun id' v' hown' hv' ho' => ?_,
    order ++ [id], fun id' => ?_, stacked_place hs hstacked hv hlocal hr ho hstop⟩, hfills,
    fun v' hv' _ => ?_⟩
  · rcases Fills.of_getElem?_modify hv' with ⟨-, w, hw, rfl⟩ | ⟨-, hw⟩
    · exact hs.proper _ w hw
    · exact hs.proper _ _ hw
  · rcases Fills.of_getElem?_modify hv' with ⟨rfl, w, hw, rfl⟩ | ⟨-, hw⟩
    · cases hv.symm.trans hw
      exact ⟨hlocal, hdeclared⟩
    · exact hs.declared id' v' hown' hw ho'
  · rw [List.mem_append, List.mem_singleton, hmem]
    constructor
    · rintro (⟨hown', w, hw, how⟩ | rfl)
      · obtain ⟨w', hw', hfill⟩ := hfills.at_number hw
        exact ⟨hown', w', hw', hfill.offset (.inl how) ▸ how⟩
      · exact ⟨hown, { v with offset := stop }, by rw [List.getElem?_modify, hv]; simp,
          by dsimp only; omega⟩
    · rintro ⟨hown', v', hv', ho'⟩
      rcases Fills.of_getElem?_modify hv' with ⟨rfl, -⟩ | ⟨-, hw⟩
      · exact .inr rfl
      · exact .inl ⟨hown', v', hw, ho'⟩
  · rcases Fills.of_getElem?_modify hv' with ⟨-, w, hw, rfl⟩ | ⟨hne, -⟩
    · dsimp only; omega
    · exact absurd rfl hne

end Steps

end StackCompiler.Typing
