import StackCompiler.Grammar.Names
import StackCompiler.Grammar.Repetition
import StackCompiler.Grammar.Types
import StackCompiler.Proofs.Ensures
import StackCompiler.Proofs.Ty.Proper

/-!
# Proofs/Grammar/Tables — the tables that a parser fills

A parser only adds to its tables (`Reading.Grows`), and what it adds keeps them sound
(`Reading.Sound`): numbers of variables are numbers of the arena, locals are numbered from the
place where the arena stood **when their function began**, what was declared can be found by its
name, no variable has a slot yet, and a placeholder has no type.
`Keeps` says both of a parser, with what holds of its result; most parsers touch no table at all
(`Quiet`).
-/

namespace StackCompiler.Grammar

/-! ## Sound tables -/

namespace Reading

/-- The declared variables that a name can stand for at this point. -/
def visible (r : Reading) : List VarId :=
  r.scope.getD [] ++ r.globals

/-- What was declared is listed, and **no two variables that are visible have one name**. -/
structure Named (floor : Nat) (r : Reading) : Prop where
  global : ∀ (id : VarId) (v : Variable), r.vars[id]? = some v → v.isPlaceholder = false →
    v.isLocal = false → id ∈ r.globals
  own : ∀ (id : VarId) (v : Variable), floor ≤ id → r.vars[id]? = some v →
    v.isPlaceholder = false → v.isLocal = true → ∀ locals ∈ r.scope, id ∈ locals
  distinct : ∀ id ∈ r.visible, ∀ id' ∈ r.visible, ∀ v v' : Variable, r.vars[id]? = some v →
    r.vars[id']? = some v' → v.name = v'.name → id = id'

/-- The tables are sound, with the locals of the current function numbered from `floor`. -/
structure Sound (floor : Nat) (r : Reading) : Prop where
  globals : ∀ id ∈ r.globals, ∃ v, r.vars[id]? = some v ∧ v.isLocal = false ∧
    v.isPlaceholder = false
  floor_le : r.scope.isSome = true → floor ≤ r.vars.length
  ascending : ∀ locals ∈ r.scope, locals.Pairwise (· < ·)
  locals : ∀ locals ∈ r.scope, ∀ id ∈ locals,
    floor ≤ id ∧ ∃ v, r.vars[id]? = some v ∧ v.isLocal = true ∧ v.isPlaceholder = false
  named : r.Named floor
  slotless : ∀ v ∈ r.vars, v.offset = 0
  proper : ∀ v ∈ r.vars, v.ty.Proper
  ordered : r.globals.Pairwise (· < ·)
  blank : ∀ v ∈ r.vars, v.isPlaceholder = true → v.ty = .unknown

/-- The later tables have all that the earlier ones have, **at the same numbers**. -/
structure Grows (r r' : Reading) : Prop where
  vars : r.vars <+: r'.vars
  strings : r.strings <+: r'.strings
  isSome_scope : r'.scope.isSome = r.scope.isSome
  scope : ∀ locals ∈ r.scope, ∀ locals' ∈ r'.scope, locals <+: locals'
  /-- What is added is local **if a function is being read**, and only then. -/
  added : ∀ (id : VarId) (v : Variable), r.vars.length ≤ id → r'.vars[id]? = some v →
    v.isLocal = r.scope.isSome
  globals : ∀ id ∈ r'.globals, id ∈ r.globals ∨ r.vars.length ≤ id

/-- Both have the same tables, though not the same tokens. -/
structure SameTables (r r' : Reading) : Prop where
  vars : r'.vars = r.vars
  globals : r'.globals = r.globals
  strings : r'.strings = r.strings
  scope : r'.scope = r.scope

/-- What stands at a number of a list stands there in every list that goes on from it. -/
theorem getElem?_mono {α : Type} {l l' : List α} (h : l <+: l') {i : Nat} {a : α}
    (ha : l[i]? = some a) : l'[i]? = some a := by
  obtain ⟨hlt, rfl⟩ := List.getElem?_eq_some_iff.mp ha
  exact List.prefix_iff_getElem?.mp h i hlt

variable {floor : Nat} {r r' r'' : Reading}

theorem Grows.refl (r : Reading) : r.Grows r :=
  ⟨List.prefix_rfl, List.prefix_rfl, rfl, fun _ h _ h' => by cases h.symm.trans h'; exact
    List.prefix_rfl, fun _ _ hle hv => absurd (List.getElem?_eq_some_iff.mp hv).1 hle.not_gt,
    fun _ => .inl⟩

theorem Grows.trans (h : r.Grows r') (h' : r'.Grows r'') : r.Grows r'' := by
  refine ⟨h.vars.trans h'.vars, h.strings.trans h'.strings,
    h'.isSome_scope.trans h.isSome_scope, fun a ha c hc => ?_, fun id v hle hv => ?_,
    fun id hid => ?_⟩
  · have hb : r'.scope.isSome = true := by rw [h.isSome_scope]; exact Option.isSome_of_mem ha
    obtain ⟨b, hb⟩ := Option.isSome_iff_exists.mp hb
    exact (h.scope a ha b hb).trans (h'.scope b hb c hc)
  · rcases lt_or_ge id r'.vars.length with hlt | hge
    · have hw := List.getElem?_eq_getElem hlt
      cases hv.symm.trans (getElem?_mono h'.vars hw)
      exact h.added id _ hle hw
    · rw [← h.isSome_scope]
      exact h'.added id v hge hv
  · rcases h'.globals id hid with hid | hid
    · exact h.globals id hid
    · exact .inr (h.vars.length_le.trans hid)

/-- A number of the arena keeps its variable. -/
theorem Grows.getElem? (h : r.Grows r') {id : VarId} {v : Variable} (hv : r.vars[id]? = some v) :
    r'.vars[id]? = some v :=
  getElem?_mono h.vars hv

theorem SameTables.named (h : r.SameTables r') (hr : r.Named floor) : r'.Named floor := by
  have hvisible : r'.visible = r.visible := by rw [visible, visible, h.scope, h.globals]
  obtain ⟨hg, hl, hd⟩ := hr
  constructor
  · rwa [h.globals, h.vars]
  · rwa [h.scope, h.vars]
  · rwa [hvisible, h.vars]

theorem SameTables.sound (h : r.SameTables r') (hr : r.Sound floor) : r'.Sound floor := by
  obtain ⟨hg, hf, ha, hl, hn, hs, hp, ho, hb⟩ := hr
  constructor
  · rwa [h.globals, h.vars]
  · rwa [h.scope, h.vars]
  · rwa [h.scope]
  · rwa [h.scope, h.vars]
  · exact h.named hn
  · rwa [h.vars]
  · rwa [h.vars]
  · rwa [h.globals]
  · rwa [h.vars]

theorem SameTables.grows (h : r.SameTables r') : r.Grows r' := by
  refine ⟨h.vars ▸ List.prefix_rfl, h.strings ▸ List.prefix_rfl, by rw [h.scope],
    fun a ha b hb => ?_, fun id v hle hv => ?_, fun id hid => .inl (h.globals ▸ hid)⟩
  · rw [h.scope] at hb
    cases ha.symm.trans hb
    exact List.prefix_rfl
  · rw [h.vars] at hv
    exact absurd (List.getElem?_eq_some_iff.mp hv).1 hle.not_gt

end Reading

/-! ## Parsers that keep the tables sound -/

section Keeps

variable {α β σ : Type} {floor : Nat} {r : Reading} {Q Q' : α → Reading → Prop}

/-- How the tables go on while a function whose locals are numbered from `floor` is read. -/
abbrev tables (floor : Nat) : Course Reading :=
  ⟨Reading.Sound floor, Reading.Grows, .refl, .trans⟩

/-- What a parser that started from `r` has made of the tables, and `Q` of its result. -/
abbrev Kept (floor : Nat) (r : Reading) (Q : α → Reading → Prop) : α → Reading → Prop :=
  (tables floor).Kept r Q

/-- From sound tables the parser ends in sound tables that have grown, and `Q` holds of its
result. -/
def Keeps (floor : Nat) (x : Parser α) (Q : α → Reading → Prop) : Prop :=
  ∀ r, r.Sound floor → Ensures x r (Kept floor r Q)

/-- The parser takes tokens and **leaves the tables alone**. -/
def Quiet (x : Parser α) (Q : α → Prop) : Prop :=
  ∀ r, Ensures x r fun a r' => r.SameTables r' ∧ Q a

theorem Keeps.mono {x : Parser α} (h : Keeps floor x Q) (hQ : ∀ a r', Q a r' → Q' a r') :
    Keeps floor x Q' :=
  fun r hr => (h r hr).mono fun _ _ => Course.Kept.mono hQ

theorem Quiet.keeps {x : Parser α} {Q : α → Prop} (h : Quiet x Q) :
    Keeps floor x fun a _ => Q a :=
  fun r hr => (h r).mono fun _ _ ha => ⟨ha.1.sound hr, ha.1.grows, ha.2⟩

theorem Keeps.bind {x : Parser α} {f : α → Parser β} {R : β → Reading → Prop}
    (hx : Keeps floor x Q) (hr : r.Sound floor)
    (hf : ∀ a r', r'.Sound floor → r.Grows r' → Q a r' → Ensures (f a) r' (Kept floor r' R)) :
    Ensures (x >>= f) r (Kept floor r R) :=
  Course.andThen (c := tables floor) (hx r hr) hf

theorem Quiet.bind {x : Parser α} {f : α → Parser β} {Q : α → Prop} {R : β → Reading → Prop}
    (hx : Quiet x Q) (hr : r.Sound floor)
    (hf : ∀ a r', r'.Sound floor → r.Grows r' → Q a → Ensures (f a) r' (Kept floor r' R)) :
    Ensures (x >>= f) r (Kept floor r R) :=
  hx.keeps.bind hr hf

/-- A step that leaves the tables alone, before one that depends on what they are. -/
theorem Quiet.bindSame {x : Parser α} {f : α → Parser β} {Q : α → Prop} {R : β → Reading → Prop}
    (hx : Quiet x Q) (hr : r.Sound floor)
    (hf : ∀ a r', r'.Sound floor → r.SameTables r' → Q a → Ensures (f a) r' (Kept floor r' R)) :
    Ensures (x >>= f) r (Kept floor r R) :=
  (ensures_bind x f r _).mpr <| (hx r).mono fun a r' ⟨hsame, hq⟩ =>
    (hf a r' (hsame.sound hr) hsame hq).mono fun _ _ ⟨h₁, h₂, h₃⟩ =>
      ⟨h₁, hsame.grows.trans h₂, h₃⟩

theorem kept_pure {a : α} (hr : r.Sound floor) (ha : Q a r) :
    Ensures (pure a : Parser α) r (Kept floor r Q) :=
  Course.kept_pure (c := tables floor) hr ha

theorem quiet_pure {a : α} {Q : α → Prop} (ha : Q a) : Quiet (pure a) Q :=
  fun r => (ensures_pure a r _).mpr ⟨⟨rfl, rfl, rfl, rfl⟩, ha⟩

theorem Quiet.andThen {x : Parser α} {f : α → Parser β} {Q : α → Prop} {R : β → Prop}
    (hx : Quiet x Q) (hf : ∀ a, Q a → Quiet (f a) R) : Quiet (x >>= f) R :=
  fun r => (ensures_bind x f r _).mpr <| (hx r).mono fun a r' ha =>
    (hf a ha.2 r').mono fun _ _ hb =>
      ⟨⟨hb.1.vars.trans ha.1.vars, hb.1.globals.trans ha.1.globals,
        hb.1.strings.trans ha.1.strings, hb.1.scope.trans ha.1.scope⟩, hb.2⟩

@[simp] theorem ensures_refuse (cause : Cause) (loc : Nat) (r : Reading) :
    Ensures (refuse cause loc : Parser α) r Q :=
  ensures_throw _ r Q

@[simp] theorem ensures_broken (fault : Fault) (r : Reading) :
    Ensures (broken fault : Parser α) r Q :=
  ensures_throw _ r Q

theorem ensures_refuse_bind (cause : Cause) (loc : Nat) (f : α → Parser β) (r : Reading)
    {R : β → Reading → Prop} : Ensures (refuse cause loc >>= f) r R :=
  (ensures_bind _ f r R).mpr (ensures_refuse cause loc r)

theorem quiet_refuse (cause : Cause) (loc : Nat) {Q : α → Prop} :
    Quiet (refuse cause loc : Parser α) Q :=
  fun r => ensures_refuse cause loc r

theorem quiet_broken (fault : Fault) {Q : α → Prop} : Quiet (broken fault : Parser α) Q :=
  fun r => ensures_broken fault r

/-! ### Repetition -/

/-- What a round may leave: a state of which `I` holds, or a result of which `Q` does. -/
def RoundKept (I : σ → Reading → Prop) (Q : α → Reading → Prop) :
    Round σ α → Reading → Prop
  | .again state, r => I state r
  | .done a, r => Q a r

/-- **A repetition ends as its rounds do**, if each of them leaves what the next one needs. -/
theorem ensures_iterate {round : σ → Parser (Round σ α)} {I : σ → Reading → Prop}
    (hround : ∀ state r, I state r → Ensures (round state) r (RoundKept I Q))
    {state : σ} (hI : I state r) : Ensures (iterate round state) r Q := by
  have hrounds : ∀ n state r, I state r → Ensures (rounds round n state) r Q := by
    intro n
    induction n with
    | zero => exact fun _ r _ => ensures_broken _ r
    | succ n ih =>
      intro state r hI
      unfold rounds
      rw [ensures_bind]
      refine (hround state r hI).mono ?_
      rintro (next | a) r' h
      · exact ih next r' h
      · exact (ensures_pure a r' _).mpr h
  unfold iterate bounded bound
  simp only [ensures_bind, ensures_get, ensures_pure]
  exact hrounds _ state r hI

/-- **A repetition keeps what each of its rounds keeps.** -/
theorem keeps_iterate {round : σ → Parser (Round σ α)} {I : σ → Reading → Prop}
    (hround : ∀ state r, r.Sound floor → I state r →
      Ensures (round state) r (Kept floor r (RoundKept I Q)))
    {state : σ} (hr : r.Sound floor) (hI : I state r) :
    Ensures (iterate round state) r (Kept floor r Q) := by
  refine ensures_iterate (I := Kept floor r I) (fun state r' ⟨hr', hg, hI⟩ => ?_) ⟨hr, .refl r, hI⟩
  refine (hround state r' hr' hI).mono ?_
  rintro (next | a) r'' ⟨hr'', hg', h⟩ <;> exact ⟨hr'', hg.trans hg', h⟩

end Keeps

/-! ## Taking tokens -/

theorem quiet_get {α : Type} {f : Reading → α} : Quiet (do return f (← get)) fun _ => True := by
  intro r
  simp only [ensures_bind, ensures_get, ensures_pure]
  exact ⟨⟨rfl, rfl, rfl, rfl⟩, trivial⟩

theorem quiet_peek : Quiet peek fun _ => True := quiet_get

theorem quiet_here : Quiet here fun _ => True := quiet_get

theorem quiet_ahead (text : String) : Quiet (ahead text) fun _ => True :=
  quiet_peek.andThen fun _ _ => quiet_pure trivial

theorem quiet_aheadKind (kind : Token.Kind) : Quiet (aheadKind kind) fun _ => True :=
  quiet_peek.andThen fun _ _ => quiet_pure trivial

theorem quiet_atEnd : Quiet atEnd fun _ => True :=
  quiet_peek.andThen fun _ _ => quiet_pure trivial

theorem quiet_advance : Quiet advance fun _ => True := by
  intro r
  unfold advance
  rw [ensures_modify]
  cases r.rest <;> exact ⟨⟨rfl, rfl, rfl, rfl⟩, trivial⟩

theorem quiet_accept (text : String) : Quiet (accept text) fun _ => True := by
  refine (quiet_ahead text).andThen fun found _ => ?_
  cases found with
  | false => exact quiet_pure trivial
  | true => exact quiet_advance.andThen fun _ _ => quiet_pure trivial

theorem quiet_unexpected {α : Type} (expected : Expected) {Q : α → Prop} :
    Quiet (unexpected expected : Parser α) Q :=
  quiet_peek.andThen fun _ _ => quiet_here.andThen fun _ _ => quiet_refuse _ _

theorem quiet_expect (text : String) : Quiet (expect text) fun _ => True := by
  refine quiet_here.andThen fun loc _ => (quiet_accept text).andThen fun found _ => ?_
  cases found with
  | false => exact quiet_unexpected _
  | true => exact quiet_pure trivial

theorem quiet_identifier : Quiet identifier fun _ => True := by
  refine quiet_peek.andThen fun token _ => ?_
  split
  · exact quiet_advance.andThen fun _ _ => quiet_pure trivial
  · exact quiet_unexpected _

theorem quiet_number : Quiet number fun _ => True := by
  refine quiet_peek.andThen fun token _ => ?_
  split
  · exact quiet_advance.andThen fun _ _ => quiet_pure trivial
  · exact quiet_refuse _ _
  · exact quiet_unexpected _

theorem quiet_atLineStart : Quiet atLineStart fun _ => True := by
  intro r
  unfold atLineStart
  simp only [ensures_bind, ensures_get]
  split
  · exact (ensures_pure _ _ _).mpr ⟨⟨rfl, rfl, rfl, rfl⟩, trivial⟩
  · rw [ensures_bind]
    refine (quiet_here r).mono ?_
    rintro stop r' ⟨hsame, -⟩
    split
    · exact ensures_broken _ _
    · split
      · exact (ensures_pure _ _ _).mpr ⟨hsame, trivial⟩
      · split
        · exact ensures_broken _ _
        · exact (ensures_pure _ _ _).mpr ⟨hsame, trivial⟩

end StackCompiler.Grammar
