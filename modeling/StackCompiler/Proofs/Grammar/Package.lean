import Mathlib.Data.List.Sort
import StackCompiler.Grammar.Package
import StackCompiler.Proofs.Grammar.Statements

/-!
# Proofs/Grammar/Package — the programs that are read

Each function of a program has a stretch of the arena **of its own**: all its locals, and all the
placeholders of its body, were added while it was being read.  `Program.Read` gathers what the later
stages rely on, and `read_ofTokens` shows it of every program that is read from tokens.
-/

namespace StackCompiler

/-! ## Programs that have been read -/

/-- The variable that the node refers to is a placeholder, a local, or a package-level variable whose
name **no local has**. -/
def Expr.Unhidden (vars : List Variable) (locals : List VarId) : Expr → Prop
  | .var id _ _ => ∃ v, vars[id]? = some v ∧ (v.isPlaceholder = false → v.isLocal = false →
      ∀ l ∈ locals, ∀ w, vars[l]? = some w → w.name ≠ v.name)
  | _ => True

/-- None of the function's locals has the name of a package-level variable that was declared **before
it**: numbers are given out in the order of the declarations. -/
def Function.Fresh (vars : List Variable) (globals : List VarId) (f : Function) : Prop :=
  ∀ l ∈ f.locals, ∀ g ∈ globals, g < l → ∀ v w : Variable, vars[l]? = some v →
    vars[g]? = some w → v.name ≠ w.name

/-- In the statement values are only assigned to what is known, and positions only taken in that. -/
abbrev Stmt.Known (vars : List Variable) (s : Stmt) : Prop :=
  s.Everywhere (Expr.KnownRule vars) (Stmt.KnownRule vars)

/-- The function has been read while the arena grew from `first` to `last`. -/
structure Function.Read (vars : List Variable) (strings first last : Nat) (f : Function) :
    Prop where
  params : f.params <+: f.locals
  resolved : ∀ id ∈ f.params, ∃ v, vars[id]? = some v ∧ v.ty.isResolved = true ∧
    v.ty.isArray = false
  ascending : f.locals.Pairwise (· < ·)
  locals : ∀ id ∈ f.locals, (first ≤ id ∧ id < last) ∧ ∃ v, vars[id]? = some v ∧
    v.isLocal = true ∧ v.isPlaceholder = false
  last_le : last ≤ vars.length
  /-- What was declared in the function **is one of its locals**. -/
  listed : ∀ (id : VarId) (v : Variable), first ≤ id → id < last → vars[id]? = some v →
    v.isPlaceholder = false → v.isLocal = true → id ∈ f.locals
  distinct : ∀ id ∈ f.locals, ∀ id' ∈ f.locals, ∀ v v' : Variable, vars[id]? = some v →
    vars[id']? = some v' → v.name = v'.name → id = id'
  body : ∀ s ∈ f.body,
    s.Everywhere (Expr.ReadRule vars strings fun id => first ≤ id ∧ id < last) Stmt.ReadRule
  unhidden : ∀ s ∈ f.body, s.Everywhere (Expr.Unhidden vars f.locals) fun _ => True
  implicit : f.isImplicit = true → f.params = []

/-- The functions have been read one after the other, in stretches of the arena that **do not
overlap**. -/
inductive ReadInTurn (vars : List Variable) (strings : Nat) : Nat → List Function → Nat → Prop
  | nil {first last} : first ≤ last → ReadInTurn vars strings first [] last
  | cons {first start middle last f fs} : first ≤ start → start ≤ middle →
      f.Read vars strings start middle → ReadInTurn vars strings middle fs last →
      ReadInTurn vars strings first (f :: fs) last

/-- What holds of a program that has been read from tokens. -/
structure Program.Read (p : Program) : Prop where
  globals : ∀ id ∈ p.globals, ∃ v, p.vars[id]? = some v ∧ v.isLocal = false ∧
    v.isPlaceholder = false
  distinct : ∀ id ∈ p.globals, ∀ id' ∈ p.globals, ∀ v v' : Variable, p.vars[id]? = some v →
    p.vars[id']? = some v' → v.name = v'.name → id = id'
  /-- What was declared outside of functions **is a package-level variable**. -/
  listed : ∀ (id : VarId) (v : Variable), p.vars[id]? = some v → v.isPlaceholder = false →
    v.isLocal = false → id ∈ p.globals
  names : (p.declared.map (·.name)).Nodup
  slotless : ∀ v ∈ p.vars, v.offset = 0
  proper : ∀ v ∈ p.vars, v.ty.Proper
  funcs : ReadInTurn p.vars p.strings.length 0 p.funcs p.vars.length
  ordered : p.globals.Pairwise (· < ·)
  /-- The implicit function **is the first, and the only one**. -/
  entry : ∃ f fs, p.funcs = f :: fs ∧ f.isImplicit = true ∧ ∀ g ∈ fs, g.isImplicit = false
  /-- What was declared inside of functions **is a local of one**. -/
  owned : ∀ (id : VarId) (v : Variable), p.vars[id]? = some v → v.isPlaceholder = false →
    v.isLocal = true → ∃ f ∈ p.funcs, id ∈ f.locals
  fresh : ∀ f ∈ p.funcs, f.Fresh p.vars p.globals
  known : ∀ f ∈ p.funcs, ∀ s ∈ f.body, s.Known p.vars
  blank : ∀ v ∈ p.vars, v.isPlaceholder = true → v.ty = .unknown

section Mono

variable {vars vars' : List Variable} {strings strings' first last last' : Nat}

theorem InArena.mono {own own' : VarId → Prop} {id : VarId} (h : InArena vars own id)
    (hvars : vars <+: vars') (hown : own id → own' id) : InArena vars' own' id := by
  obtain ⟨v, hv, hlocal⟩ := h
  exact ⟨v, Grammar.Reading.getElem?_mono hvars hv, fun h => hown (hlocal h)⟩

theorem Expr.ReadRule.mono {own own' : VarId → Prop} {e : Expr} (h : e.ReadRule vars strings own)
    (hvars : vars <+: vars') (hstrings : strings ≤ strings')
    (hown : ∀ id, id < vars.length → own id → own' id) : e.ReadRule vars' strings' own' := by
  cases e with
  | str string ty loc => exact ⟨h.1, h.2.trans_le hstrings⟩
  | var id ty loc =>
    obtain ⟨v, hv, hlocal⟩ := h.2
    exact ⟨h.1, v, Grammar.Reading.getElem?_mono hvars hv, fun hl =>
      hown id (List.getElem?_eq_some_iff.mp hv).1 (hlocal hl)⟩
  | _ => exact h

/-- What stands in the later arena at a number of the earlier one **stood there before**. -/
theorem getElem?_of_extended (hvars : vars <+: vars') {id : VarId} (hid : id < vars.length)
    {v : Variable} (hv : vars'[id]? = some v) : vars[id]? = some v := by
  have hw := List.getElem?_eq_getElem hid
  exact hw.trans ((Grammar.Reading.getElem?_mono hvars hw).symm.trans hv)

theorem Expr.Unhidden.mono {locals : List VarId} (hvars : vars <+: vars')
    (hlocals : ∀ id ∈ locals, id < vars.length) (e : Expr) (h : e.Unhidden vars locals) :
    e.Unhidden vars' locals := by
  cases e with
  | var id ty loc =>
    obtain ⟨v, hv, hname⟩ := h
    exact ⟨v, Grammar.Reading.getElem?_mono hvars hv, fun hp hg l hl w hw =>
      hname hp hg l hl w (getElem?_of_extended hvars (hlocals l hl) hw)⟩
  | _ => trivial

theorem Expr.IsKnown.mono {e : Expr} (h : e.IsKnown vars) (hvars : vars <+: vars') :
    e.IsKnown vars' := by
  cases e with
  | var id ty loc =>
    obtain ⟨v, hv, hknown⟩ := h
    exact ⟨v, Grammar.Reading.getElem?_mono hvars hv, hknown⟩
  | _ => trivial

theorem Stmt.Known.mono {s : Stmt} (h : s.Known vars) (hvars : vars <+: vars') :
    s.Known vars' := by
  refine Stmt.Everywhere.mono (fun e he => ?_) (fun s hs => ?_) h
  · cases e with
    | index base position ty loc => exact Expr.IsKnown.mono he hvars
    | _ => trivial
  · cases s with
    | assign targets values loc => exact fun t ht => (hs t ht).mono hvars
    | _ => trivial

/-- What is declared **later** has numbers that are above those of the locals. -/
theorem Function.Fresh.mono {f : Function} {globals globals' : List VarId}
    (h : f.Fresh vars globals) (hlocals : ∀ l ∈ f.locals, l < vars.length) (hvars : vars <+: vars')
    (hglobals : ∀ g ∈ globals', g ∈ globals ∨ vars.length ≤ g) : f.Fresh vars' globals' := by
  intro l hl g hg hlt v w hv hw
  have hl' := hlocals l hl
  rcases hglobals g hg with hg | hg
  · exact h l hl g hg hlt v w (getElem?_of_extended hvars hl' hv)
      (getElem?_of_extended hvars (hlt.trans hl') hw)
  · exact absurd (hg.trans_lt hlt) hl'.not_gt

theorem Function.Read.mono {f : Function} (h : f.Read vars strings first last)
    (hvars : vars <+: vars') (hstrings : strings ≤ strings') : f.Read vars' strings' first last := by
  have hback {id : VarId} (hid : id < last) {v : Variable} (hv : vars'[id]? = some v) :
      vars[id]? = some v := getElem?_of_extended hvars (hid.trans_le h.last_le) hv
  exact {
    params := h.params
    resolved := fun id hid => by
      obtain ⟨v, hv, hr⟩ := h.resolved id hid
      exact ⟨v, Grammar.Reading.getElem?_mono hvars hv, hr⟩
    ascending := h.ascending
    locals := fun id hid => by
      obtain ⟨hbounds, v, hv, hl⟩ := h.locals id hid
      exact ⟨hbounds, v, Grammar.Reading.getElem?_mono hvars hv, hl⟩
    last_le := h.last_le.trans hvars.length_le
    listed := fun id v hfirst hlast hv => h.listed id v hfirst hlast (hback hlast hv)
    distinct := fun id hid id' hid' v v' hv hv' => h.distinct id hid id' hid' v v'
      (hback (h.locals id hid).1.2 hv) (hback (h.locals id' hid').1.2 hv')
    body := fun s hs => (h.body s hs).mono (fun _ he => he.mono hvars hstrings fun _ _ => id)
      fun _ hs => hs
    unhidden := fun s hs => (h.unhidden s hs).mono
      (Expr.Unhidden.mono hvars fun id hid => (h.locals id hid).1.2.trans_le h.last_le)
      fun _ hs => hs
    implicit := h.implicit }

theorem ReadInTurn.mono {fs : List Function} (h : ReadInTurn vars strings first fs last)
    (hvars : vars <+: vars') (hstrings : strings ≤ strings') (hlast : last ≤ last') :
    ReadInTurn vars' strings' first fs last' := by
  induction h with
  | nil h => exact .nil (h.trans hlast)
  | cons h h' hf _ ih => exact .cons h h' (hf.mono hvars hstrings) (ih hlast)

/-- One more function takes the next stretch. -/
theorem ReadInTurn.concat {fs : List Function} {f : Function}
    (h : ReadInTurn vars strings first fs last) (hle : last ≤ last')
    (hf : f.Read vars strings last last') : ReadInTurn vars strings first (fs ++ [f]) last' := by
  induction h with
  | nil h => exact .cons h hle hf (.nil le_rfl)
  | cons h h' hg _ ih => exact .cons h h' hg (ih hle hf)

theorem ReadInTurn.exists_read {fs : List Function} (h : ReadInTurn vars strings first fs last)
    {f : Function} (hf : f ∈ fs) : ∃ first last, f.Read vars strings first last := by
  induction h with
  | nil => cases hf
  | @cons _ start middle _ _ _ _ _ hg _ ih =>
    rcases List.mem_cons.mp hf with rfl | hf
    · exact ⟨start, middle, hg⟩
    · exact ih hf

theorem ReadInTurn.first_le {fs : List Function} (h : ReadInTurn vars strings first fs last)
    {f : Function} (hf : f ∈ fs) {id : VarId} (hid : id ∈ f.locals) : first ≤ id := by
  induction h with
  | nil => cases hf
  | cons h h' hg _ ih =>
    rcases List.mem_cons.mp hf with rfl | hf
    · exact h.trans (hg.locals id hid).1.1
    · exact h.trans (h'.trans (ih hf))

/-- Functions have **no locals in common**. -/
theorem ReadInTurn.disjoint {fs : List Function} (h : ReadInTurn vars strings first fs last) :
    fs.Pairwise fun f g => f.locals.Disjoint g.locals := by
  induction h with
  | nil => exact .nil
  | cons _ _ hg hfs ih =>
    refine .cons (fun g hg' id hid hid' => ?_) ih
    exact absurd (hg.locals id hid).1.2 (hfs.first_le hg' hid').not_gt

end Mono

namespace Grammar

variable {floor : Nat} {r : Reading}

/-! ## Functions -/

/-- Outside of functions, no place of the arena is the floor. -/
theorem Reading.Sound.anyFloor (h : r.Sound floor) (hscope : r.scope = none) (floor' : Nat) :
    r.Sound floor' where
  globals := h.globals
  floor_le hs := by rw [hscope] at hs; cases hs
  ascending ls hls := by rw [hscope] at hls; cases hls
  locals ls hls := by rw [hscope] at hls; cases hls
  named := ⟨h.named.global, fun _ _ _ _ _ _ ls hls => by (rw [hscope] at hls; cases hls),
    h.named.distinct⟩
  slotless := h.slotless
  proper := h.proper
  ordered := h.ordered
  blank := h.blank

theorem Reading.Sound.globals_distinct (hr : r.Sound floor) :
    ∀ id ∈ r.globals, ∀ id' ∈ r.globals, ∀ v v' : Variable, r.vars[id]? = some v →
      r.vars[id']? = some v' → v.name = v'.name → id = id' :=
  fun id hid id' hid' => hr.named.distinct id (List.mem_append_right _ hid) id'
    (List.mem_append_right _ hid')

/-- The parameters are all the locals that there are, and have their types, which are **no
arrays**. -/
def Reading.HasParams (params : List VarId) (r : Reading) : Prop :=
  r.scope = some params ∧ ∀ id ∈ params, ∃ v, r.vars[id]? = some v ∧ v.ty.isResolved = true ∧
    v.ty.isArray = false

theorem ensures_parameter {params : List VarId} (hr : r.Sound floor) (hparams : r.HasParams params) :
    Ensures parameter r (Kept floor r fun id r' => r'.HasParams (params ++ [id])) := by
  refine quiet_identifier.bindSame hr fun ⟨name, loc⟩ r₁ hr₁ hsame₁ _ => ?_
  refine quiet_type.bindSame hr₁ fun ty r₂ hr₂ hsame₂ hty => ?_
  dsimp only
  split
  · exact ensures_refuse_bind _ _ _ _
  next harray =>
  refine (keeps_declare name hty.1 loc hr₂).mono fun id r₃ ⟨hr₃, hg₃, _, ⟨v, hv, hvty, _⟩, hscope⟩ => ?_
  have hscope₂ : r₂.scope = some params := by rw [hsame₂.scope, hsame₁.scope]; exact hparams.1
  refine ⟨hr₃, hg₃, by rw [hscope, hscope₂]; rfl, fun id' hid' => ?_⟩
  rcases List.mem_append.mp hid' with hid' | hid'
  · obtain ⟨v', hv', hres⟩ := hparams.2 id' hid'
    exact ⟨v', (hsame₁.grows.trans (hsame₂.grows.trans hg₃)).getElem? hv', hres⟩
  · cases List.mem_singleton.mp hid'
    exact ⟨v, hv, hvty ▸ hty.2, by simpa [hvty] using harray⟩

theorem Reading.HasParams.same {params : List VarId} {r' : Reading} (hsame : r.SameTables r')
    (h : r.HasParams params) : r'.HasParams params :=
  ⟨hsame.scope.trans h.1, by rw [hsame.vars]; exact h.2⟩

/-- At its end, a function's locals and the package-level variables **have different names**. -/
theorem Reading.Sound.unhidden (hr : r.Sound floor) {strings : Nat} {own : VarId → Prop} {e : Expr}
    (he : e.ReadRule r.vars strings own) {locals : List VarId} (hlocals : r.scope = some locals) :
    e.Unhidden r.vars locals := by
  cases e with
  | var id ty loc =>
    obtain ⟨-, v, hv, -⟩ := he
    refine ⟨v, hv, fun hp hg l hl w hw hname => ?_⟩
    have hid : id ∈ r.visible := List.mem_append_right _ (hr.named.global id v hv hp hg)
    have hl' : l ∈ r.visible := List.mem_append_left _ (by rw [hlocals]; exact hl)
    obtain rfl := hr.named.distinct l hl' id hid w v hw hv hname
    obtain ⟨-, v', hv', hlocal, -⟩ := hr.locals locals hlocals l hl
    cases hv.symm.trans hv'
    rw [hg] at hlocal
    cases hlocal
  | _ => trivial

/-- At the end of a function **no package-level variable has the name of one of its locals**. -/
theorem Reading.Sound.fresh (hr : r.Sound floor) {f : Function} (hlocals : r.scope = some f.locals) :
    f.Fresh r.vars r.globals := by
  intro l hl g hg hlt v w hv hw hname
  have hl' : l ∈ r.visible := List.mem_append_left _ (by rw [hlocals]; exact hl)
  have hg' : g ∈ r.visible := List.mem_append_right _ hg
  exact hlt.ne' (hr.named.distinct l hl' g hg' v w hv hw hname)

/-- The tables that were opened for a function, with its locals numbered from `first`, have been
closed again **behind the function that was read**. -/
def Reading.HasFunction (r : Reading) (first : Nat) (name : String) (f : Function)
    (r' : Reading) : Prop :=
  ∃ r'' : Reading, r' = { r'' with scope := none } ∧ r''.Sound first ∧ r.Grows r'' ∧
    (f.name = name ∧ f.isImplicit = false) ∧
    f.Read r'.vars r'.strings.length first r'.vars.length ∧
    (∀ s ∈ f.body, s.Known r'.vars) ∧ f.Fresh r'.vars r'.globals

/-- What follows the parameters of a function, in tables that **have grown by these**. -/
theorem ensures_functionBody (name : String) (loc : Nat) {first : Nat} {params : List VarId}
    {r r₁ : Reading} (hr₁ : r₁.Sound first) (hg₁ : r.Grows r₁) (hparams : r₁.HasParams params) :
    Ensures (do
      let body ← block
      let locals := (← get).scope.getD []
      modify fun r => { r with scope := none }
      return (⟨name, params, locals, body, 0, false, loc⟩ : Function)) r₁
      (r.HasFunction first name) := by
  rw [ensures_bind]
  refine (keeps_block r₁ hr₁).mono ?_
  rintro body r₂ ⟨hr₂, hg, hbody⟩
  simp only [ensures_bind, ensures_get, ensures_modify, ensures_pure]
  have hopen : r₂.scope.isSome = true := by rw [hg.isSome_scope, hparams.1]; rfl
  obtain ⟨locals, hlocals⟩ := Option.isSome_iff_exists.mp hopen
  rw [hlocals, Option.getD_some]
  refine ⟨r₂, rfl, hr₂, hg₁.trans hg, ⟨rfl, rfl⟩, ?_,
    fun s hs => (hbody s hs).mono (fun _ he => he.2) fun _ hs => hs.2, hr₂.fresh hlocals⟩
  have hvisible {id : VarId} (hid : id ∈ locals) : id ∈ r₂.visible :=
    List.mem_append_left _ (by rw [hlocals]; exact hid)
  refine ⟨hg.scope params hparams.1 locals hlocals, fun id hid => ?_, hr₂.ascending _ hlocals,
    fun id hid => ?_, le_rfl, fun id v hle _ hv hp hl => hr₂.named.own id v hle hv hp hl _ hlocals,
    fun id hid id' hid' => hr₂.named.distinct id (hvisible hid) id' (hvisible hid'),
    fun s hs => ?_, fun s hs => (hbody s hs).mono (fun e he => ?_) fun _ _ => trivial,
    fun h => by cases h⟩
  · obtain ⟨v, hv, hres⟩ := hparams.2 id hid
    exact ⟨v, hg.getElem? hv, hres⟩
  · obtain ⟨hle, v, hv, hl⟩ := hr₂.locals _ hlocals id hid
    exact ⟨⟨hle, (List.getElem?_eq_some_iff.mp hv).1⟩, v, hv, hl⟩
  · exact (hbody s hs).mono
      (fun _ he => he.1.mono List.prefix_rfl le_rfl fun _ hlt hle => ⟨hle, hlt⟩)
      fun _ hs => hs.1
  · exact hr₂.unhidden he.1 hlocals

/-- What follows the name of a function, in tables that have been opened for it. -/
theorem ensures_functionRest (name : String) (loc : Nat) {first : Nat} {r : Reading}
    (hr : r.Sound first) (hscope : r.scope = some []) :
    Ensures (do
      let _ ← expect "("
      let params ← listUntil ")" parameter
      if ← typeAhead then
        let _ ← type
      let body ← block
      let locals := (← get).scope.getD []
      modify fun r => { r with scope := none }
      return (⟨name, params, locals, body, 0, false, loc⟩ : Function)) r
      (r.HasFunction first name) := by
  rw [ensures_bind]
  refine (quiet_expect "(" r).mono ?_
  rintro _ r₁ ⟨hsame₁, -⟩
  rw [ensures_bind]
  have hnil : r₁.HasParams [] := ⟨hsame₁.scope.trans hscope, fun _ h => absurd h List.not_mem_nil⟩
  refine (ensures_listUntil ")" (fun hsame h => h.same hsame)
    (fun params r hr h => ensures_parameter hr h) (hsame₁.sound hr) hnil).mono ?_
  rintro params r₂ ⟨hr₂, hg₂, hparams⟩
  have hg : r.Grows r₂ := hsame₁.grows.trans hg₂
  rw [ensures_bind]
  refine (quiet_typeAhead r₂).mono ?_
  rintro typed r₃ ⟨hsame₃, -⟩
  have hr₃ := hsame₃.sound hr₂
  have hg₃ := hg.trans hsame₃.grows
  cases typed with
  | false => exact ensures_functionBody name loc hr₃ hg₃ (hparams.same hsame₃)
  | true =>
    refine (ensures_bind _ _ _ _).mpr ((quiet_type r₃).mono ?_)
    rintro _ r₄ ⟨hsame₄, -⟩
    exact ensures_functionBody name loc (hsame₄.sound hr₃) (hg₃.trans hsame₄.grows)
      ((hparams.same hsame₃).same hsame₄)

/-- While a function is read, the package-level variables **stay what they are**. -/
theorem Reading.Sound.globals_eq {r' : Reading} {floor' : Nat} (hr : r.Sound floor)
    (hr' : r'.Sound floor') (hg : r.Grows r') (hscope : r.scope.isSome = true) :
    r'.globals = r.globals := by
  refine hr'.ordered.eq_of_mem_iff hr.ordered fun id => ⟨fun hid => ?_, fun hid => ?_⟩
  · refine (hg.globals id hid).resolve_right fun hle => ?_
    obtain ⟨v, hv, hlocal, -⟩ := hr'.globals id hid
    rw [hg.added id v hle hv, hscope] at hlocal
    cases hlocal
  · obtain ⟨v, hv, hlocal, hdeclared⟩ := hr.globals id hid
    exact hr'.named.global id v (hg.getElem? hv) hdeclared hlocal

/-- **A function takes the stretch of the arena that is added while it is read.** -/
theorem ensures_function (taken : List String) (hr : r.Sound floor) :
    Ensures (function taken) r fun f r' =>
      (r'.Sound floor ∧ r'.scope = none ∧ r.vars <+: r'.vars ∧ r.strings <+: r'.strings ∧
        r'.globals = r.globals) ∧
        (f.name ∉ taken ∧ f.isImplicit = false) ∧
        f.Read r'.vars r'.strings.length r.vars.length r'.vars.length ∧
        (∀ s ∈ f.body, s.Known r'.vars) ∧ f.Fresh r'.vars r'.globals := by
  unfold function
  rw [ensures_bind]
  refine (quiet_expect "func" r).mono fun loc r₁ ⟨hsame₁, _⟩ => ?_
  rw [ensures_bind]
  refine (quiet_identifier r₁).mono fun ⟨name, nameLoc⟩ r₂ ⟨hsame₂, _⟩ => ?_
  dsimp only
  split
  · exact ensures_refuse_bind _ _ _ _
  next htaken =>
  rw [ensures_bind, ensures_modify]
  have hvars : r₂.vars = r.vars := hsame₂.vars.trans hsame₁.vars
  have hstrings : r₂.strings = r.strings := hsame₂.strings.trans hsame₁.strings
  have hr₂ := hsame₂.sound (hsame₁.sound hr)
  have hopened : ({ r₂ with scope := some [] } : Reading).Sound r.vars.length := by
    refine ⟨hr₂.globals, fun _ => hvars ▸ le_rfl, fun ls hls => ?_, fun ls hls id hid => ?_,
      ⟨hr₂.named.global, fun id v hle hv => ?_, hr₂.globals_distinct⟩, hr₂.slotless, hr₂.proper,
      hr₂.ordered, hr₂.blank⟩
    · cases hls; exact .nil
    · cases hls; cases hid
    · exact absurd (hvars ▸ (List.getElem?_eq_some_iff.mp hv).1) hle.not_gt
  refine (ensures_functionRest name loc hopened rfl).mono ?_
  rintro f _ ⟨r₄, rfl, hr₄, hg, ⟨rfl, hdeclared⟩, hf⟩
  have hglobals : r₄.globals = r.globals :=
    (hopened.globals_eq hr₄ hg rfl).trans (hsame₂.globals.trans hsame₁.globals)
  exact ⟨⟨⟨hr₄.globals, nofun, nofun, nofun,
    ⟨hr₄.named.global, fun _ _ _ _ _ _ => nofun, hr₄.globals_distinct⟩, hr₄.slotless, hr₄.proper,
    hr₄.ordered, hr₄.blank⟩, rfl, hvars ▸ hg.vars, hstrings ▸ hg.strings, hglobals⟩,
    ⟨htaken, hdeclared⟩, hf⟩

/-! ## The package -/

/-- What has been declared so far has been read. -/
structure Declared.Read (d : Declared) (r : Reading) : Prop where
  scope : r.scope = none
  sound : r.Sound 0
  names : (d.funcs.map (·.name)).Nodup
  declared : ∀ f ∈ d.funcs, f.isImplicit = false
  funcs : ReadInTurn r.vars r.strings.length 0 d.funcs r.vars.length
  inits : ∀ s ∈ d.inits,
    s.Everywhere (Expr.ReadRule r.vars r.strings.length fun _ => False) Stmt.ReadRule
  owned : ∀ (id : VarId) (v : Variable), r.vars[id]? = some v → v.isPlaceholder = false →
    v.isLocal = true → ∃ f ∈ d.funcs, id ∈ f.locals
  fresh : ∀ f ∈ d.funcs, f.Fresh r.vars r.globals
  known : ∀ f ∈ d.funcs, ∀ s ∈ f.body, s.Known r.vars
  knownInits : ∀ s ∈ d.inits, s.Known r.vars

section Declared

variable {d : Declared} {r r' : Reading}

theorem Declared.Read.initsMono (h : d.Read r) (hvars : r.vars <+: r'.vars)
    (hstrings : r.strings <+: r'.strings) : ∀ s ∈ d.inits,
      s.Everywhere (Expr.ReadRule r'.vars r'.strings.length fun _ => False) Stmt.ReadRule :=
  fun s hs => (h.inits s hs).mono
    (fun _ he => he.mono hvars hstrings.length_le fun _ _ => id) fun _ hs => hs

theorem Declared.Read.freshMono (h : d.Read r) (hvars : r.vars <+: r'.vars)
    (hglobals : ∀ id ∈ r'.globals, id ∈ r.globals ∨ r.vars.length ≤ id) :
    ∀ f ∈ d.funcs, f.Fresh r'.vars r'.globals := fun f hf => by
  obtain ⟨first, last, hread⟩ := h.funcs.exists_read hf
  exact (h.fresh f hf).mono
    (fun l hl => (hread.locals l hl).1.2.trans_le hread.last_le) hvars hglobals

/-- Tables that grow **outside of functions** leave what has been declared as it was. -/
theorem Declared.Read.mono (h : d.Read r) (hr : r'.Sound 0) (hscope : r'.scope = none)
    (hg : r.Grows r') : d.Read r' where
  scope := hscope
  sound := hr
  names := h.names
  declared := h.declared
  funcs := h.funcs.mono hg.vars hg.strings.length_le hg.vars.length_le
  inits := h.initsMono hg.vars hg.strings
  owned id v hv hp hl := by
    rcases lt_or_ge id r.vars.length with hlt | hge
    · exact h.owned id v (getElem?_of_extended hg.vars hlt hv) hp hl
    · rw [hg.added id v hge hv, h.scope] at hl
      cases hl
  fresh := h.freshMono hg.vars hg.globals
  known f hf s hs := (h.known f hf s hs).mono hg.vars
  knownInits s hs := (h.knownInits s hs).mono hg.vars

theorem Declared.Read.same (h : d.Read r) (hsame : r.SameTables r') : d.Read r' :=
  h.mono (hsame.sound h.sound) (hsame.scope.trans h.scope) hsame.grows

/-- Before anything is declared, **nothing has been read**. -/
theorem Declared.read_start (hr : r.Sound 0) (hscope : r.scope = none) (hvars : r.vars = []) :
    Declared.Read ⟨[], []⟩ r where
  scope := hscope
  sound := hr
  names := .nil
  declared _ h := absurd h List.not_mem_nil
  funcs := .nil (Nat.zero_le _)
  inits _ h := absurd h List.not_mem_nil
  owned id v hv := by
    rw [hvars] at hv
    cases hv
  fresh _ h := absurd h List.not_mem_nil
  known _ h := absurd h List.not_mem_nil
  knownInits _ h := absurd h List.not_mem_nil

end Declared

/-- Outside of functions a declaration is about **package-level variables** alone. -/
theorem ensures_globalDeclaration {d : Declared} {r : Reading} (h : d.Read r) :
    Ensures declaration r fun s r' => d.Read r' ∧
      s.Everywhere (Expr.ReadRule r'.vars r'.strings.length fun _ => False) Stmt.ReadRule ∧
      s.Known r'.vars := by
  intro s r' hrun
  obtain ⟨hr', hg, hs⟩ :=
    keeps_declaration r (h.sound.anyFloor h.scope r'.vars.length) s r' hrun
  have hscope : r'.scope = none := by
    have := hg.isSome_scope
    rw [h.scope] at this
    exact Option.isSome_eq_false_iff.mp this |> Option.isNone_iff_eq_none.mp
  exact ⟨h.mono (hr'.anyFloor hscope 0) hscope hg,
    hs.mono (fun _ he => he.1.mono List.prefix_rfl le_rfl fun _ hlt hle => absurd hle hlt.not_ge)
      fun _ hs => hs.1, hs.mono (fun _ he => he.2) fun _ hs => hs.2⟩

/-- One more function **has what was added as its own**. -/
theorem ensures_declaredFunction {d : Declared} {r : Reading} (h : d.Read r) :
    Ensures (function (d.funcs.map (·.name))) r fun f r' =>
      Declared.Read { d with funcs := d.funcs ++ [f] } r' := by
  refine (ensures_function _ h.sound).mono ?_
  rintro f r' ⟨⟨hr', hscope', hvars, hstrings, hglobals⟩, ⟨htaken, hdeclared⟩, hf, hknown, hfresh⟩
  refine ⟨hscope', hr', ?_, ?_, ?_, h.initsMono hvars hstrings, fun id v hv hp hl => ?_, ?_, ?_,
    fun s hs => (h.knownInits s hs).mono hvars⟩
  · rw [List.map_append, List.nodup_append]
    refine ⟨h.names, List.pairwise_singleton _ _, ?_⟩
    rintro name hname name' hname' rfl
    have heq : name = f.name := List.mem_singleton.mp hname'
    exact htaken (heq ▸ hname)
  · exact List.forall_mem_append.mpr ⟨h.declared, List.forall_mem_singleton.mpr hdeclared⟩
  · exact (h.funcs.mono hvars hstrings.length_le le_rfl).concat hvars.length_le hf
  · rcases lt_or_ge id r.vars.length with hlt | hge
    · obtain ⟨g, hg, hid⟩ := h.owned id v (getElem?_of_extended hvars hlt hv) hp hl
      exact ⟨g, List.mem_append_left _ hg, hid⟩
    · exact ⟨f, List.mem_append_right _ List.mem_cons_self,
        hf.listed id v hge (List.getElem?_eq_some_iff.mp hv).1 hv hp hl⟩
  · exact List.forall_mem_append.mpr
      ⟨h.freshMono hvars fun _ hid => .inl (hglobals ▸ hid), List.forall_mem_singleton.mpr hfresh⟩
  · exact List.forall_mem_append.mpr
      ⟨fun g hg s hs => (h.known g hg s hs).mono hvars, List.forall_mem_singleton.mpr hknown⟩

theorem ensures_packageRound {d : Declared} {r : Reading} (h : d.Read r) :
    Ensures (packageRound d) r (RoundKept Declared.Read Declared.Read) := by
  unfold packageRound
  rw [ensures_bind]
  refine (quiet_accept ";" r).mono fun blank r₁ ⟨hsame₁, _⟩ => ?_
  cases blank with
  | true => exact (ensures_pure _ _ _).mpr (h.same hsame₁)
  | false =>
  refine (ensures_bind _ _ _ _).mpr ((quiet_atEnd r₁).mono fun finished r₂ ⟨hsame₂, _⟩ => ?_)
  have h₂ := (h.same hsame₁).same hsame₂
  cases finished with
  | true => exact (ensures_pure _ _ _).mpr h₂
  | false =>
  refine (ensures_bind _ _ _ _).mpr ((quiet_ahead "func" r₂).mono
    fun isFunction r₃ ⟨hsame₃, _⟩ => ?_)
  have h₃ := h₂.same hsame₃
  cases isFunction with
  | true =>
    refine (ensures_bind _ _ _ _).mpr ((ensures_declaredFunction h₃).mono fun f r₄ h₄ => ?_)
    exact (ensures_pure _ _ _).mpr h₄
  | false =>
  refine (ensures_bind _ _ _ _).mpr ((quiet_ahead "var" r₃).mono
    fun isVariable r₄ ⟨hsame₄, _⟩ => ?_)
  have h₄ := h₃.same hsame₄
  cases isVariable with
  | true =>
    refine (ensures_bind _ _ _ _).mpr ((ensures_globalDeclaration h₄).mono ?_)
    rintro s r₅ ⟨h₅, hs, hknown⟩
    refine (ensures_pure _ _ _).mpr ?_
    split
    · exact h₅
    · exact ⟨h₅.scope, h₅.sound, h₅.names, h₅.declared, h₅.funcs,
        List.forall_mem_append.mpr ⟨h₅.inits, List.forall_mem_singleton.mpr hs⟩, h₅.owned, h₅.fresh,
        h₅.known, List.forall_mem_append.mpr ⟨h₅.knownInits, List.forall_mem_singleton.mpr hknown⟩⟩
  | false =>
    exact ((quiet_unexpected .declaration (Q := fun _ => False)) r₄).mono fun _ _ h => h.2.elim

/-- The body of the implicit function is **what is assigned at first**, and a call behind it. -/
theorem forall_implicitFunction {P : Expr → Prop} {Q : Stmt → Prop} {inits : List Stmt}
    (hinits : ∀ s ∈ inits, s.Everywhere P Q) (hret : Q (.ret (some (.call mainName [] .unknown 0)) 0))
    (hcall : P (.call mainName [] .unknown 0)) :
    ∀ s ∈ (implicitFunction inits).body, s.Everywhere P Q :=
  List.forall_mem_append.mpr ⟨hinits, List.forall_mem_singleton.mpr <| .ret hret fun e he => by
    cases he
    exact .call hcall fun _ harg => absurd harg List.not_mem_nil⟩

/-- **The implicit function** has no parameters and no locals. -/
theorem Declared.Read.implicitFunction {d : Declared} {r : Reading} (h : d.Read r) :
    (implicitFunction d.inits).Read r.vars r.strings.length 0 0 := by
  have hnone {P : VarId → Prop} : ∀ id ∈ ([] : List VarId), P id :=
    fun _ hid => absurd hid List.not_mem_nil
  have hbody : ∀ s ∈ (Grammar.implicitFunction d.inits).body, s.Everywhere
      (Expr.ReadRule r.vars r.strings.length fun id => 0 ≤ id ∧ id < 0) Stmt.ReadRule :=
    forall_implicitFunction (fun s hs => (h.inits s hs).mono
      (fun _ he => he.mono List.prefix_rfl le_rfl fun _ _ => False.elim) fun _ hs => hs) trivial rfl
  refine ⟨List.prefix_rfl, hnone, .nil, hnone, Nat.zero_le _,
    fun _ _ _ hlt => absurd hlt (Nat.not_lt_zero _), hnone, hbody, fun s hs => ?_, fun _ => rfl⟩
  refine (hbody s hs).mono (fun e he => ?_) fun _ _ => trivial
  cases e with
  | var id ty loc =>
    obtain ⟨v, hv, -⟩ := he.2
    exact ⟨v, hv, fun _ _ => hnone⟩
  | _ => trivial

theorem ensures_package {r : Reading} (hr : r.Sound 0) (hscope : r.scope = none)
    (hvars : r.vars = []) : Ensures package r fun p _ => p.Read := by
  unfold package
  rw [ensures_bind]
  refine (quiet_expect "package" r).mono ?_
  rintro _ r₁ ⟨hsame₁, -⟩
  rw [ensures_bind]
  refine (quiet_identifier r₁).mono ?_
  rintro ⟨name, _⟩ r₂ ⟨hsame₂, -⟩
  have hstart := Declared.read_start hr hscope hvars
  dsimp only
  rw [ensures_bind]
  refine (ensures_iterate (fun d r h => ensures_packageRound h)
    ((hstart.same hsame₁).same hsame₂)).mono fun d r₃ h => ?_
  simp only [ensures_bind, ensures_get, ensures_pure]
  have hknown : ∀ s ∈ (implicitFunction d.inits).body, s.Known r₃.vars :=
    forall_implicitFunction h.knownInits trivial trivial
  have hfresh : (implicitFunction d.inits).Fresh r₃.vars r₃.globals :=
    fun _ hl => absurd hl List.not_mem_nil
  refine ⟨h.sound.globals, h.sound.globals_distinct, h.sound.named.global, ?_, h.sound.slotless,
    h.sound.proper, .cons le_rfl le_rfl h.implicitFunction h.funcs, h.sound.ordered,
    ⟨_, _, rfl, rfl, h.declared⟩, fun id v hv hp hl => ?_,
    List.forall_mem_cons.mpr ⟨hfresh, h.fresh⟩, List.forall_mem_cons.mpr ⟨hknown, h.known⟩,
    h.sound.blank⟩
  · exact ((List.filter_sublist (l := d.funcs)).map _).nodup h.names
  · obtain ⟨f, hf, hid⟩ := h.owned id v hv hp hl
    exact ⟨f, List.mem_cons_of_mem _ hf, hid⟩

/-- At the start the tables are empty. -/
theorem Reading.sound_start (source : List Char) (tokens : List Token) :
    (Reading.start source tokens).Sound 0 where
  globals _ h := by cases h
  floor_le h := by cases h
  ascending _ h := by cases h
  locals _ h := by cases h
  named := ⟨nofun, nofun, nofun⟩
  slotless _ h := by cases h
  proper _ h := by cases h
  ordered := .nil
  blank _ h := by cases h

end Grammar

/-- **Every program that is read from tokens has been read as it should.** -/
theorem Program.read_of_ofTokens {source : List Char} {tokens : List Token} {p : Program}
    (h : Program.ofTokens source tokens = .ok p) : p.Read := by
  unfold Program.ofTokens at h
  cases hrun : Grammar.package.run (.start source tokens) with
  | error failure => rw [hrun] at h; cases h
  | ok result =>
    rw [hrun] at h
    cases h
    exact Grammar.ensures_package (Grammar.Reading.sound_start source tokens) rfl rfl
      result.1 result.2 hrun

end StackCompiler
