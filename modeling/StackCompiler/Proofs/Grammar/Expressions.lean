import StackCompiler.Grammar.Expressions
import StackCompiler.Proofs.Grammar.Tables
import StackCompiler.Proofs.Syntax.Everywhere

/-!
# Proofs/Grammar/Expressions — the expressions that are read

What is read is a tree **without types**, literals apart: its variables and strings are in the
tables, an address is only taken of a place, and a local is one of the function that is being read.
-/

namespace StackCompiler

/-! ## The rule of a tree that has been read -/

/-- The variable is in the arena and, if it is a local, is one of the function's **own**. -/
def InArena (vars : List Variable) (own : VarId → Prop) (id : VarId) : Prop :=
  ∃ v, vars[id]? = some v ∧ (v.isLocal = true → own id)

/-- What holds of a node that has just been read. -/
def Expr.ReadRule (vars : List Variable) (strings : Nat) (own : VarId → Prop) : Expr → Prop
  | .num _ ty _ => ty.isString = false ∧ ty.isArray = false ∧ ty.Proper
  | .str string ty _ => ty = .unknown ∧ string < strings
  | .var id ty _ => ty = .unknown ∧ InArena vars own id
  | .addr operand ty _ => ty = .unknown ∧ operand.isLvalue = true
  | .deref _ ty _ | .binary _ _ _ ty _ | .index _ _ ty _ | .call _ _ ty _ => ty = .unknown

/-- What holds of a statement that has just been read: what it assigns to are places. -/
def Stmt.ReadRule : Stmt → Prop
  | .assign targets _ _ => ∀ target ∈ targets, target.isLvalue = true
  | _ => True

/-- The expression is no name that was **read before it was declared**. -/
def Expr.IsKnown (vars : List Variable) : Expr → Prop
  | .var id _ _ => ∃ v, vars[id]? = some v ∧ v.isPlaceholder = false
  | _ => True

/-- Positions are only taken in what is known. -/
def Expr.KnownRule (vars : List Variable) : Expr → Prop
  | .index base _ _ _ => base.IsKnown vars
  | _ => True

/-- Values are only assigned to what is known. -/
def Stmt.KnownRule (vars : List Variable) : Stmt → Prop
  | .assign targets _ _ => ∀ target ∈ targets, target.IsKnown vars
  | _ => True

namespace Grammar

section Trees

variable {floor : Nat} {r r' : Reading}

/-- The expression is a tree that has been read by now. -/
abbrev Reading.HasExpr (r : Reading) (floor : Nat) (e : Expr) : Prop :=
  e.Everywhere fun e => e.ReadRule r.vars r.strings.length (floor ≤ ·) ∧ e.KnownRule r.vars

/-- The statement is a tree that has been read by now. -/
abbrev Reading.HasStmt (r : Reading) (floor : Nat) (s : Stmt) : Prop :=
  s.Everywhere (fun e => e.ReadRule r.vars r.strings.length (floor ≤ ·) ∧ e.KnownRule r.vars)
    fun s => s.ReadRule ∧ s.KnownRule r.vars

theorem Reading.Grows.inArena (h : r.Grows r') {own : VarId → Prop} {id : VarId}
    (hid : InArena r.vars own id) : InArena r'.vars own id := by
  obtain ⟨v, hv, hown⟩ := hid
  exact ⟨v, h.getElem? hv, hown⟩

theorem Reading.Grows.readRule (h : r.Grows r') {own : VarId → Prop} (e : Expr)
    (he : e.ReadRule r.vars r.strings.length own) :
    e.ReadRule r'.vars r'.strings.length own := by
  cases e with
  | str string ty loc => exact ⟨he.1, he.2.trans_le h.strings.length_le⟩
  | var id ty loc => exact ⟨he.1, h.inArena he.2⟩
  | _ => exact he

theorem Reading.Grows.isKnown (h : r.Grows r') {e : Expr} (he : e.IsKnown r.vars) :
    e.IsKnown r'.vars := by
  cases e with
  | var id ty loc =>
    obtain ⟨v, hv, hknown⟩ := he
    exact ⟨v, h.getElem? hv, hknown⟩
  | _ => trivial

theorem Reading.Grows.knownRule (h : r.Grows r') (e : Expr) (he : e.KnownRule r.vars) :
    e.KnownRule r'.vars := by
  cases e with
  | index base position ty loc => exact h.isKnown he
  | _ => trivial

theorem Reading.Grows.knownStmtRule (h : r.Grows r') (s : Stmt) (hs : s.KnownRule r.vars) :
    s.KnownRule r'.vars := by
  cases s with
  | assign targets values loc => exact fun target ht => h.isKnown (hs target ht)
  | _ => trivial

/-- A tree that has been read **stays one**. -/
theorem Reading.Grows.hasExpr (h : r.Grows r') {e : Expr} (he : r.HasExpr floor e) :
    r'.HasExpr floor e :=
  he.mono fun e he => ⟨h.readRule e he.1, h.knownRule e he.2⟩

theorem Reading.Grows.hasStmt (h : r.Grows r') {s : Stmt} (hs : r.HasStmt floor s) :
    r'.HasStmt floor s :=
  hs.mono (fun e he => ⟨h.readRule e he.1, h.knownRule e he.2⟩)
    fun s hs => ⟨hs.1, h.knownStmtRule s hs.2⟩

theorem Reading.Grows.hasExprs (h : r.Grows r') {es : List Expr}
    (hes : ∀ e ∈ es, r.HasExpr floor e) : ∀ e ∈ es, r'.HasExpr floor e :=
  fun e he => h.hasExpr (hes e he)

theorem Reading.Grows.hasStmts (h : r.Grows r') {ss : List Stmt}
    (hss : ∀ s ∈ ss, r.HasStmt floor s) : ∀ s ∈ ss, r'.HasStmt floor s :=
  fun s hs => h.hasStmt (hss s hs)

/-- The parser reads an expression. -/
abbrev ReadsExpr (floor : Nat) (x : Parser Expr) : Prop :=
  Keeps floor x fun e r => r.HasExpr floor e

/-- The parser reads a statement. -/
abbrev ReadsStmt (floor : Nat) (x : Parser Stmt) : Prop :=
  Keeps floor x fun s r => r.HasStmt floor s

end Trees

/-! ## Types -/

theorem quiet_typeAhead : Quiet typeAhead fun _ => True :=
  (quiet_ahead "*").andThen fun _ _ => (quiet_ahead "[").andThen fun _ _ =>
    (quiet_aheadKind .typeName).andThen fun _ _ => quiet_pure trivial

/-- What a type that has been read is like. -/
abbrev Declarable (ty : Ty) : Prop :=
  ty.Proper ∧ ty.isResolved = true

theorem ofName?_declarable {name : String} {ty : Ty} (h : Ty.ofName? name = some ty) :
    Declarable ty := by
  unfold Ty.ofName? at h
  split at h
  · cases h; exact ⟨trivial, rfl⟩
  split at h
  · cases h; exact ⟨trivial, rfl⟩
  split at h
  · cases h; exact ⟨trivial, rfl⟩
  split at h
  · cases h; exact ⟨trivial, rfl⟩
  split at h
  · cases h; exact ⟨trivial, rfl⟩
  · cases h

theorem quiet_arrayType {base : Ty} {len : Int64} {loc : Nat} (hbase : Declarable base)
    (hlen : ¬len ≤ 0) : Quiet (arrayType base len loc) Declarable := by
  have hpos : 0 < len.toInt := by
    have := mt Int64.le_iff_toInt_le.mpr hlen
    simpa using this
  simp only [arrayType]
  split
  · next hsize => exact quiet_pure ⟨⟨hbase.1, hbase.2, hpos, hsize⟩, rfl⟩
  · exact quiet_refuse _ _

theorem quiet_namedType : Quiet namedType Declarable := by
  refine quiet_peek.andThen fun token _ => ?_
  split
  · split
    · next h => exact quiet_advance.andThen fun _ _ => quiet_pure (ofName?_declarable h)
    · exact quiet_unexpected _
  · exact quiet_unexpected _

theorem quiet_typeTo (depth : Nat) : Quiet (typeTo depth) Declarable := by
  induction depth with
  | zero => exact quiet_broken _
  | succ depth ih =>
    refine (quiet_accept "*").andThen fun pointer _ => ?_
    cases pointer with
    | true => exact ih.andThen fun _ hbase => quiet_pure ⟨hbase.1, rfl⟩
    | false =>
      refine (quiet_accept "[").andThen fun array _ => ?_
      cases array with
      | false => exact quiet_namedType
      | true =>
        refine quiet_number.andThen fun ⟨len, loc⟩ _ => ?_
        by_cases hlen : len ≤ 0
        · simp only [hlen]
          exact quiet_refuse _ _
        · simp only [hlen]
          exact (quiet_expect "]").andThen fun _ _ => ih.andThen fun _ hbase =>
            quiet_arrayType hbase hlen

/-- A type that has been read is **proper**. -/
theorem quiet_type : Quiet type Declarable := by
  intro r
  unfold type bounded bound
  simp only [ensures_bind, ensures_get, ensures_pure]
  exact quiet_typeTo _ r

/-! ## Names -/

section Names

variable {floor : Nat}

/-- The number that a name is looked up under is **visible**, and its variable has that name. -/
theorem Reading.mem_visible_of_lookup? {r : Reading} {name : String} {id : VarId}
    (h : r.lookup? name = some id) : id ∈ r.visible := by
  simp only [Reading.lookup?, Option.orElse_eq_some] at h
  rcases h with h | ⟨-, h⟩
  · obtain ⟨locals, hlocals, hfind⟩ := Option.bind_eq_some_iff.mp h
    exact List.mem_append_left _ (by rw [hlocals]; exact List.mem_of_find?_eq_some hfind)
  · exact List.mem_append_right _ (List.mem_of_find?_eq_some h)

/-- Where a name is not found, **no visible variable has it**. -/
theorem Reading.name_ne_of_lookup? {r : Reading} {name : String} (h : r.lookup? name = none)
    {id : VarId} (hid : id ∈ r.visible) {v : Variable} (hv : r.vars[id]? = some v) :
    v.name ≠ name := by
  simp only [Reading.lookup?, Option.orElse_eq_none] at h
  have hnamed {ids : List VarId} (hfind : ids.find? (r.isNamed name) = none) (hid : id ∈ ids) :
      v.name ≠ name := by
    have := List.find?_eq_none.mp hfind id hid
    simpa [Reading.isNamed, hv] using this
  rcases List.mem_append.mp hid with hid | hid
  · cases hscope : r.scope with
    | none => rw [hscope] at hid; cases hid
    | some locals =>
      rw [hscope] at h hid
      exact hnamed h.1 hid
  · exact hnamed h.2 hid

theorem Reading.Sound.of_mem_visible {r : Reading} (hr : r.Sound floor) {id : VarId}
    (hid : id ∈ r.visible) : InArena r.vars (floor ≤ ·) id := by
  rcases List.mem_append.mp hid with hid | hid
  · obtain ⟨locals, hlocals⟩ : ∃ locals, r.scope = some locals := by
      cases hscope : r.scope with
      | none => rw [hscope] at hid; cases hid
      | some locals => exact ⟨locals, rfl⟩
    rw [hlocals] at hid
    obtain ⟨hle, v, hv, -⟩ := hr.locals locals hlocals id hid
    exact ⟨v, hv, fun _ => hle⟩
  · obtain ⟨v, hv, hglobal, -⟩ := hr.globals id hid
    exact ⟨v, hv, fun hlocal => by rw [hglobal] at hlocal; cases hlocal⟩

/-- What stands in an arena with **one more variable**. -/
theorem Reading.getElem?_addVariable {r : Reading} {name : String} {ty : Ty} {loc : Nat}
    {placeholder : Bool} {id : VarId} {v : Variable}
    (hv : (r.addVariable name ty loc placeholder).vars[id]? = some v) :
    r.vars[id]? = some v ∨ id = r.vars.length ∧ v = ⟨name, 0, r.scope.isSome, ty, loc, placeholder⟩ := by
  have hlt := (List.getElem?_eq_some_iff.mp hv).1
  simp only [Reading.addVariable, List.length_append, List.length_singleton] at hlt
  rcases Nat.lt_succ_iff_lt_or_eq.mp hlt with hlt | rfl
  · left
    rwa [Reading.addVariable, List.getElem?_append_left hlt] at hv
  · right
    rw [Reading.addVariable, List.getElem?_concat_length] at hv
    exact ⟨rfl, (Option.some.inj hv).symm⟩

theorem Reading.grows_addVariable (r : Reading) (name : String) (ty : Ty) (loc : Nat)
    (placeholder : Bool) : r.Grows (r.addVariable name ty loc placeholder) :=
  ⟨List.prefix_append _ _, List.prefix_rfl, rfl, (Reading.Grows.refl r).scope, fun id v hle hv => by
    rcases Reading.getElem?_addVariable hv with hv | ⟨-, rfl⟩
    · exact absurd (List.getElem?_eq_some_iff.mp hv).1 hle.not_gt
    · rfl, fun _ => .inl⟩

/-- What holds of all variables, and of the new one, holds in an arena with **one more variable**. -/
theorem Reading.forall_mem_addVariable {r : Reading} {name : String} {ty : Ty} {loc : Nat}
    {placeholder : Bool} {P : Variable → Prop} (h : ∀ v ∈ r.vars, P v)
    (hnew : P ⟨name, 0, r.scope.isSome, ty, loc, placeholder⟩) :
    ∀ v ∈ (r.addVariable name ty loc placeholder).vars, P v :=
  List.forall_mem_append.mpr ⟨h, List.forall_mem_singleton.mpr hnew⟩

/-- The number of a new variable is above all those that are **visible already**. -/
theorem Reading.Sound.lt_of_mem_visible {r : Reading} (hr : r.Sound floor) {id : VarId}
    (hid : id ∈ r.visible) : id < r.vars.length := by
  obtain ⟨v, hv, -⟩ := hr.of_mem_visible hid
  exact (List.getElem?_eq_some_iff.mp hv).1

/-- A visible variable **has been there before** the new one. -/
theorem Reading.Sound.getElem?_of_mem_visible {r : Reading} (hr : r.Sound floor) {name : String}
    {ty : Ty} {loc : Nat} {placeholder : Bool} {id : VarId} (hid : id ∈ r.visible) {v : Variable}
    (hv : (r.addVariable name ty loc placeholder).vars[id]? = some v) : r.vars[id]? = some v := by
  rcases Reading.getElem?_addVariable hv with hv | ⟨rfl, -⟩
  · exact hv
  · exact absurd (hr.lt_of_mem_visible hid) (lt_irrefl _)

/-- A placeholder is **no declaration**. -/
theorem Reading.Sound.addPlaceholder {r : Reading} (hr : r.Sound floor) (name : String)
    (loc : Nat) : (r.addVariable name .unknown loc true).Sound floor := by
  have hg := r.grows_addVariable name .unknown loc true
  refine ⟨fun id hid => ?_, fun h => ?_, hr.ascending, fun locals hl id hid => ?_,
    ⟨fun id v hv hp hlocal => ?_, fun id v hle hv hp hlocal => ?_,
      fun id hid id' hid' v v' hv hv' => ?_⟩, Reading.forall_mem_addVariable hr.slotless rfl,
    Reading.forall_mem_addVariable hr.proper Ty.proper_unknown, hr.ordered,
    Reading.forall_mem_addVariable hr.blank fun _ => rfl⟩
  · obtain ⟨v, hv, hglobal⟩ := hr.globals id hid
    exact ⟨v, hg.getElem? hv, hglobal⟩
  · exact (hr.floor_le h).trans hg.vars.length_le
  · obtain ⟨hle, v, hv, hlocal⟩ := hr.locals locals hl id hid
    exact ⟨hle, v, hg.getElem? hv, hlocal⟩
  · rcases Reading.getElem?_addVariable hv with hv | ⟨-, rfl⟩
    · exact hr.named.global id v hv hp hlocal
    · cases hp
  · rcases Reading.getElem?_addVariable hv with hv | ⟨-, rfl⟩
    · exact hr.named.own id v hle hv hp hlocal
    · cases hp
  · exact hr.named.distinct id hid id' hid' v v' (hr.getElem?_of_mem_visible hid hv)
      (hr.getElem?_of_mem_visible hid' hv')

theorem Reading.addVariable_inArena {r : Reading} (hr : r.Sound floor) (name : String) (ty : Ty)
    (loc : Nat) (placeholder : Bool) :
    InArena (r.addVariable name ty loc placeholder).vars (floor ≤ ·) r.vars.length :=
  ⟨_, List.getElem?_concat_length, hr.floor_le⟩

theorem keeps_readName (name : String) (loc : Nat) : ReadsExpr floor (readName name loc) := by
  intro r hr
  unfold readName
  simp only [ensures_bind, ensures_get]
  split
  · next id h =>
    exact kept_pure hr (.var ⟨⟨rfl, hr.of_mem_visible (Reading.mem_visible_of_lookup? h)⟩, trivial⟩)
  · simp only [ensures_bind, ensures_set, ensures_pure]
    exact ⟨hr.addPlaceholder name loc, r.grows_addVariable name .unknown loc true,
      .var ⟨⟨rfl, Reading.addVariable_inArena hr name .unknown loc true⟩, trivial⟩⟩

theorem keeps_variableOf (id : VarId) :
    Keeps floor (variableOf id) fun v r => r.vars[id]? = some v := by
  intro r hr
  unfold variableOf
  simp only [ensures_bind, ensures_get]
  split
  · next v hv => exact kept_pure hr hv
  · exact ensures_broken _ r

theorem keeps_intern (s : String) : Keeps floor (intern s) fun i r => i < r.strings.length := by
  intro r hr
  unfold intern
  simp only [ensures_bind, ensures_get]
  split
  · next i h => exact kept_pure hr (List.idxOf?_eq_some_iff.mp h).1
  · simp only [ensures_bind, ensures_set, ensures_pure]
    exact ⟨⟨hr.globals, hr.floor_le, hr.ascending, hr.locals,
      ⟨hr.named.global, hr.named.own, hr.named.distinct⟩, hr.slotless, hr.proper, hr.ordered,
      hr.blank⟩, ⟨List.prefix_rfl, List.prefix_append _ _, rfl, (Reading.Grows.refl r).scope,
      (Reading.Grows.refl r).added, fun _ => .inl⟩, by simp⟩

end Names

/-! ## Lists -/

section Lists

variable {α : Type} {floor : Nat} {item : Parser α} {P : α → Reading → Prop}

/-- Items with commas between them are read **one by one**, and stay what they are. -/
theorem keeps_commaList (hP : ∀ {a r r'}, r.Grows r' → P a r → P a r')
    (hitem : Keeps floor item P) :
    Keeps floor (commaList item) fun as r => ∀ a ∈ as, P a r := by
  intro r hr
  refine keeps_iterate (I := fun as r => ∀ a ∈ as, P a r) (fun as r hr has => ?_) hr
    fun _ h => absurd h List.not_mem_nil
  refine hitem.bind hr fun a r₁ hr₁ hg₁ ha => ?_
  refine (quiet_accept ",").bind hr₁ fun comma r₂ hr₂ hg₂ _ => ?_
  have hall : ∀ b ∈ as ++ [a], P b r₂ := by
    intro b hb
    rcases List.mem_append.mp hb with hb | hb
    · exact hP (hg₁.trans hg₂) (has b hb)
    · cases List.mem_singleton.mp hb; exact hP hg₂ ha
  cases comma <;> exact kept_pure hr₂ hall

/-- A list up to a bracket keeps what **each item of it keeps of the list so far**. -/
theorem ensures_listUntil (close : String) {I : List α → Reading → Prop}
    (hsame : ∀ {as r r'}, r.SameTables r' → I as r → I as r')
    (hitem : ∀ as r, r.Sound floor → I as r →
      Ensures item r (Kept floor r fun a r' => I (as ++ [a]) r'))
    {r : Reading} (hr : r.Sound floor) (hnil : I [] r) :
    Ensures (listUntil close item) r (Kept floor r I) := by
  refine (quiet_accept close).bindSame hr fun closed r₁ hr₁ hsame₁ _ => ?_
  cases closed with
  | true => exact kept_pure hr₁ (hsame hsame₁ hnil)
  | false =>
    refine keeps_iterate (I := I) (fun as r hr has => ?_) hr₁ (hsame hsame₁ hnil)
    refine Course.andThen (hitem as r hr has) fun a r₁ hr₁ _ ha => ?_
    refine (quiet_accept close).bindSame hr₁ fun closed r₂ hr₂ hsame₂ _ => ?_
    cases closed with
    | true => exact kept_pure hr₂ (hsame hsame₂ ha)
    | false =>
      refine (quiet_expect ",").bindSame hr₂ fun _ r₃ hr₃ hsame₃ _ => ?_
      exact kept_pure hr₃ (hsame hsame₃ (hsame hsame₂ ha))

theorem keeps_listUntil (close : String) (hP : ∀ {a r r'}, r.Grows r' → P a r → P a r')
    (hitem : Keeps floor item P) :
    Keeps floor (listUntil close item) fun as r => ∀ a ∈ as, P a r := by
  intro r hr
  refine ensures_listUntil close (fun hsame h a ha => hP hsame.grows (h a ha))
    (fun as r hr has => (hitem r hr).mono fun a r' ⟨hr', hg, ha⟩ => ⟨hr', hg, fun b hb => ?_⟩) hr
    fun _ h => absurd h List.not_mem_nil
  rcases List.mem_append.mp hb with hb | hb
  · exact hP hg (has b hb)
  · cases List.mem_singleton.mp hb; exact ha

end Lists

/-! ## Expressions -/

section Expressions

variable {floor : Nat} {item operand inner : Parser Expr}

theorem keeps_exprList (hitem : ReadsExpr floor item) :
    Keeps floor (commaList item) fun es r => ∀ e ∈ es, r.HasExpr floor e :=
  keeps_commaList (fun hg he => hg.hasExpr he) hitem

theorem keeps_exprsUntil (close : String) (hitem : ReadsExpr floor item) :
    Keeps floor (listUntil close item) fun es r => ∀ e ∈ es, r.HasExpr floor e :=
  keeps_listUntil close (fun hg he => hg.hasExpr he) hitem

theorem quiet_acceptOperator (level : Level) : Quiet (acceptOperator level) fun _ => True := by
  refine quiet_peek.andThen fun token _ => ?_
  split
  · exact quiet_pure trivial
  · exact quiet_advance.andThen fun _ _ => quiet_pure trivial

theorem Reading.HasExpr.join {r : Reading} {lhs rhs : Expr} (o : LevelOperator)
    (hl : r.HasExpr floor lhs) (hr : r.HasExpr floor rhs) (loc : Nat) :
    r.HasExpr floor (o.join lhs rhs loc) := by
  unfold LevelOperator.join
  split
  · exact .binary ⟨rfl, trivial⟩ hr hl
  · exact .binary ⟨rfl, trivial⟩ hl hr

theorem keeps_leftAssociated (level : Level) (hoperand : ReadsExpr floor operand) :
    ReadsExpr floor (leftAssociated level operand) := by
  intro r hr
  refine hoperand.bind hr fun first r hr _ hfirst => ?_
  refine keeps_iterate (I := fun e r => r.HasExpr floor e) (fun lhs r hr hlhs => ?_) hr hfirst
  refine quiet_here.bind hr fun loc r₁ hr₁ hg₁ _ => ?_
  refine (quiet_acceptOperator level).bind hr₁ fun op r₂ hr₂ hg₂ _ => ?_
  cases op with
  | none => exact kept_pure hr₂ ((hg₁.trans hg₂).hasExpr hlhs)
  | some o =>
    refine hoperand.bind hr₂ fun rhs r₃ hr₃ hg₃ hrhs => kept_pure hr₃ ?_
    exact Reading.HasExpr.join o ((hg₁.trans (hg₂.trans hg₃)).hasExpr hlhs) hrhs loc

theorem keeps_expressionOver (hoperand : ReadsExpr floor operand) :
    ReadsExpr floor (expressionOver operand) := by
  unfold expressionOver
  induction levels with
  | nil => exact hoperand
  | cons level levels ih => exact keeps_leftAssociated level ih

/-- An element is a place. -/
theorem keeps_indexed {base position : Expr} (loc : Nat) {r : Reading} (hr : r.Sound floor)
    (hbase : r.HasExpr floor base) (hposition : r.HasExpr floor position) :
    Ensures (indexed base position loc) r
      (Kept floor r fun e r => r.HasExpr floor e ∧ e.isLvalue = true ∧ e.IsKnown r.vars) := by
  have hindex {r' : Reading} (hr' : r'.Sound floor) (hg : r.Grows r')
      (hknown : base.IsKnown r'.vars) : Ensures (pure (.index base position .unknown loc)) r'
        (Kept floor r' fun e r => r.HasExpr floor e ∧ e.isLvalue = true ∧ e.IsKnown r.vars) :=
    kept_pure hr' ⟨.index ⟨rfl, hknown⟩ (hg.hasExpr hbase) (hg.hasExpr hposition), rfl, trivial⟩
  unfold indexed
  split
  · next id ty baseLoc =>
    refine (keeps_variableOf id).bind hr fun v r' hr' hg hv => ?_
    dsimp only
    by_cases hplaceholder : v.isPlaceholder = true
    · rw [if_pos hplaceholder]
      exact ensures_refuse_bind _ _ _ _
    rw [if_neg hplaceholder]
    have hknown : (Expr.var id ty baseLoc).IsKnown r'.vars :=
      ⟨v, hv, Bool.eq_false_iff.mpr hplaceholder⟩
    split
    · split
      · exact ensures_refuse_bind _ _ _ _
      · exact hindex hr' hg hknown
    · exact hindex hr' hg hknown
  · next hother =>
    refine hindex hr (.refl r) ?_
    cases base with
    | var id ty loc => exact (hother id ty loc rfl).elim
    | _ => trivial

theorem keeps_nameOrCall (hinner : ReadsExpr floor inner) :
    ReadsExpr floor (nameOrCall inner) := by
  intro r hr
  refine quiet_identifier.bind hr fun ⟨name, loc⟩ r hr _ _ => ?_
  refine (quiet_accept "(").bind hr fun called r hr _ _ => ?_
  cases called with
  | true =>
    refine (keeps_exprsUntil ")" hinner).bind hr fun args r hr _ hargs => ?_
    exact kept_pure hr (.call ⟨rfl, trivial⟩ hargs)
  | false => exact keeps_readName name loc r hr

theorem keeps_primary (hinner : ReadsExpr floor inner) : ReadsExpr floor (primary inner) := by
  intro r hr
  refine (quiet_accept "(").bind hr fun opened r hr _ _ => ?_
  cases opened with
  | true =>
    refine hinner.bind hr fun e r₁ hr₁ _ he => ?_
    exact (quiet_expect ")").bind hr₁ fun _ r₂ hr₂ hg₂ _ => kept_pure hr₂ (hg₂.hasExpr he)
  | false =>
    refine quiet_peek.bind hr fun token r hr _ _ => ?_
    split
    · exact quiet_here.bind hr fun _ r _ _ _ => ensures_refuse _ _ r
    · split
      · refine quiet_number.bind hr fun ⟨value, loc⟩ r hr _ _ => kept_pure hr (.num ⟨?_, trivial⟩)
        split <;> exact ⟨rfl, rfl, trivial⟩
      · refine quiet_advance.bind hr fun _ r hr _ _ => ?_
        exact (keeps_intern _).bind hr fun i r hr _ hi => kept_pure hr (.str ⟨⟨rfl, hi⟩, trivial⟩)
      · exact keeps_nameOrCall hinner r hr
      · exact (quiet_unexpected .expression (Q := fun _ => False)).keeps.mono
          (fun _ _ h => h.elim) r hr

theorem keeps_postfixed (hinner : ReadsExpr floor inner) : ReadsExpr floor (postfixed inner) := by
  intro r hr
  refine (keeps_primary hinner).bind hr fun first r hr _ hfirst => ?_
  refine keeps_iterate (I := fun e r => r.HasExpr floor e) (fun base r hr hbase => ?_) hr hfirst
  refine quiet_here.bind hr fun loc r₁ hr₁ hg₁ _ => ?_
  refine (quiet_accept "[").bind hr₁ fun opened r₂ hr₂ hg₂ _ => ?_
  cases opened with
  | false => exact kept_pure hr₂ ((hg₁.trans hg₂).hasExpr hbase)
  | true =>
    refine hinner.bind hr₂ fun position r₃ hr₃ hg₃ hposition => ?_
    refine (quiet_expect "]").bind hr₃ fun _ r₄ hr₄ hg₄ _ => ?_
    have hbase₄ := (hg₁.trans (hg₂.trans (hg₃.trans hg₄))).hasExpr hbase
    exact Course.andThen (keeps_indexed loc hr₄ hbase₄ (hg₄.hasExpr hposition))
      fun e r hr _ he => kept_pure hr he.1

theorem keeps_operandTo (depth : Nat) : ReadsExpr floor (operandTo depth) := by
  induction depth with
  | zero => exact fun r _ => ensures_broken _ r
  | succ depth ih =>
    intro r hr
    refine quiet_here.bind hr fun loc r hr _ _ => ?_
    refine (quiet_accept "+").bind hr fun plus r hr _ _ => ?_
    cases plus with
    | true => exact ih r hr
    | false =>
      refine (quiet_accept "-").bind hr fun minus r hr _ _ => ?_
      cases minus with
      | true =>
        exact ih.bind hr fun e r hr _ he =>
          kept_pure hr (.binary ⟨rfl, trivial⟩ (.num ⟨⟨rfl, rfl, trivial⟩, trivial⟩) he)
      | false =>
        refine (quiet_accept "&").bind hr fun address r hr _ _ => ?_
        cases address with
        | true =>
          refine ih.bind hr fun e r hr _ he => ?_
          split
          · next hplace => exact kept_pure hr (.addr ⟨⟨rfl, hplace⟩, trivial⟩ he)
          · exact ensures_refuse _ _ _
        | false =>
          refine (quiet_accept "*").bind hr fun star r hr _ _ => ?_
          cases star with
          | true => exact ih.bind hr fun e r hr _ he => kept_pure hr (.deref ⟨rfl, trivial⟩ he)
          | false => exact keeps_postfixed (keeps_expressionOver ih) r hr

/-- **What is read as an expression is a tree that has been read.** -/
theorem keeps_expression : ReadsExpr floor expression := by
  intro r hr
  unfold expression bounded bound
  simp only [ensures_bind, ensures_get, ensures_pure]
  exact keeps_expressionOver (keeps_operandTo _) r hr

end Expressions

end Grammar

end StackCompiler
