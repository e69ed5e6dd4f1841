import StackCompiler.Proofs.Grammar.Rounds

/-!
# Proofs/Grammar/Globals — what is known of package-level variables

No expression declares a variable (`Undeclaring`).  So a package-level variable that is declared
without a type is one that is declared with a value, and the implicit function **assigns this value
to it** (`Program.Initialized`).
-/

namespace StackCompiler

/-- The statement gives the variable a value, and nothing else one. -/
def Stmt.Initializes (id : VarId) (st : Stmt) : Prop :=
  ∃ value loc loc', st = .assign [.var id .unknown loc] [value] loc'

/-- A package-level variable has its type, or **is given a value** by one of the statements. -/
def InitializedBy (inits : List Stmt) (vars : List Variable) (globals : List VarId) : Prop :=
  ∀ id ∈ globals, (∃ v, vars[id]? = some v ∧ v.ty.isResolved = true) ∨
    ∃ st ∈ inits, st.Initializes id

/-- What the package-level variables lack of types comes from values that the implicit function gives
them. -/
def Program.Initialized (p : Program) : Prop :=
  ∃ entry fs, p.funcs = entry :: fs ∧ InitializedBy entry.body p.vars p.globals

section InitializedBy

variable {vars vars' : List Variable} {globals : List VarId} {inits inits' : List Stmt}

theorem InitializedBy.mono (h : InitializedBy inits vars globals) (hinits : inits ⊆ inits')
    (hvars : vars <+: vars') : InitializedBy inits' vars' globals := by
  intro id hid
  rcases h id hid with ⟨v, hv, hr⟩ | ⟨st, hst, hid⟩
  · exact .inl ⟨v, Grammar.Reading.getElem?_mono hvars hv, hr⟩
  · exact .inr ⟨st, hinits hst, hid⟩

theorem InitializedBy.concat (h : InitializedBy inits vars globals) {id : VarId}
    (hid : (∃ v, vars[id]? = some v ∧ v.ty.isResolved = true) ∨ ∃ st ∈ inits, st.Initializes id) :
    InitializedBy inits vars (globals ++ [id]) := by
  intro i hi
  rcases List.mem_append.mp hi with hi | hi
  · exact h i hi
  · exact List.mem_singleton.mp hi ▸ hid

end InitializedBy

namespace Grammar

/-! ## Parsers that declare nothing -/

section Undeclaring

variable {α β σ : Type}

/-- The later tables have no more package-level variables and no more locals. -/
structure Reading.Undeclared (r r' : Reading) : Prop where
  vars : r.vars <+: r'.vars
  globals : r'.globals = r.globals
  scope : r'.scope = r.scope

theorem Reading.Undeclared.refl (r : Reading) : r.Undeclared r :=
  ⟨List.prefix_rfl, rfl, rfl⟩

theorem Reading.Undeclared.trans {r r' r'' : Reading} (h : r.Undeclared r') (h' : r'.Undeclared r'') :
    r.Undeclared r'' :=
  ⟨h.vars.trans h'.vars, h'.globals.trans h.globals, h'.scope.trans h.scope⟩

/-- The parser **declares nothing**. -/
def Undeclaring (x : Parser α) : Prop :=
  ∀ r, Ensures x r fun _ r' => r.Undeclared r'

theorem Quiet.undeclaring {x : Parser α} {Q : α → Prop} (h : Quiet x Q) : Undeclaring x :=
  fun r => (h r).mono fun _ _ ⟨hsame, _⟩ =>
    ⟨hsame.vars ▸ List.prefix_rfl, hsame.globals, hsame.scope⟩

theorem undeclaring_pure (a : α) : Undeclaring (pure a) :=
  fun r => (ensures_pure a r _).mpr (.refl r)

theorem undeclaring_refuse (cause : Cause) (loc : Nat) : Undeclaring (refuse cause loc : Parser α) :=
  fun r => ensures_refuse cause loc r

theorem undeclaring_refuse_bind (cause : Cause) (loc : Nat) (f : α → Parser β) :
    Undeclaring (refuse cause loc >>= f) :=
  fun r => ensures_refuse_bind cause loc f r

theorem undeclaring_broken (fault : Fault) : Undeclaring (broken fault : Parser α) :=
  fun r => ensures_broken fault r

theorem Undeclaring.bind {x : Parser α} {f : α → Parser β} (hx : Undeclaring x)
    (hf : ∀ a, Undeclaring (f a)) : Undeclaring (x >>= f) :=
  fun r => (ensures_bind x f r _).mpr <| (hx r).mono fun a r' h =>
    (hf a r').mono fun _ _ => h.trans

theorem undeclaring_ite {p : Prop} [Decidable p] {x y : Parser α} (hx : Undeclaring x)
    (hy : Undeclaring y) : Undeclaring (if p then x else y) := by
  split
  · exact hx
  · exact hy

theorem undeclaring_iterate {round : σ → Parser (Round σ α)} (h : ∀ s, Undeclaring (round s))
    (s : σ) : Undeclaring (iterate round s) := by
  intro r
  refine ensures_iterate (I := fun _ r' => r.Undeclared r') (fun s r₁ h₁ => ?_) (.refl r)
  refine (h s r₁).mono ?_
  rintro (_ | _) r₂ h₂ <;> exact h₁.trans h₂

theorem undeclaring_mapM {f : α → Parser β} (h : ∀ a, Undeclaring (f a)) :
    ∀ as : List α, Undeclaring (as.mapM f)
  | [] => by
    rw [List.mapM_nil]
    exact undeclaring_pure _
  | a :: as => by
    rw [List.mapM_cons]
    exact (h a).bind fun _ => (undeclaring_mapM h as).bind fun _ => undeclaring_pure _

theorem undeclaring_listUntil (close : String) {item : Parser α} (h : Undeclaring item) :
    Undeclaring (listUntil close item) := by
  refine (quiet_accept close).undeclaring.bind fun closed =>
    undeclaring_ite (undeclaring_pure _) (undeclaring_iterate (fun items => ?_) [])
  refine h.bind fun a => (quiet_accept close).undeclaring.bind fun closed =>
    undeclaring_ite (undeclaring_pure _) ?_
  exact (quiet_expect ",").undeclaring.bind fun _ => undeclaring_pure _

/-! ### Expressions -/

theorem undeclaring_readName (name : String) (loc : Nat) : Undeclaring (readName name loc) := by
  intro r
  unfold readName
  simp only [ensures_bind, ensures_get]
  split
  · exact (ensures_pure _ _ _).mpr (.refl r)
  · simp only [ensures_bind, ensures_set, ensures_pure]
    exact ⟨List.prefix_append _ _, rfl, rfl⟩

theorem undeclaring_variableOf (id : VarId) : Undeclaring (variableOf id) := by
  intro r
  unfold variableOf
  simp only [ensures_bind, ensures_get]
  split
  · exact (ensures_pure _ _ _).mpr (.refl r)
  · exact ensures_broken _ _

theorem undeclaring_intern (s : String) : Undeclaring (intern s) := by
  intro r
  unfold intern
  simp only [ensures_bind, ensures_get]
  split
  · exact (ensures_pure _ _ _).mpr (.refl r)
  · simp only [ensures_bind, ensures_set, ensures_pure]
    exact ⟨List.prefix_rfl, rfl, rfl⟩

theorem undeclaring_indexed (base position : Expr) (loc : Nat) :
    Undeclaring (indexed base position loc) := by
  unfold indexed
  split
  · refine (undeclaring_variableOf _).bind fun v =>
      undeclaring_ite (undeclaring_refuse_bind _ _ _) ?_
    split
    · exact undeclaring_ite (undeclaring_refuse_bind _ _ _) (undeclaring_pure _)
    · exact undeclaring_pure _
  · exact undeclaring_pure _

variable {operand inner : Parser Expr}

theorem undeclaring_leftAssociated (level : Level) (h : Undeclaring operand) :
    Undeclaring (leftAssociated level operand) := by
  refine h.bind (undeclaring_iterate fun lhs => quiet_here.undeclaring.bind fun loc =>
    (quiet_acceptOperator level).undeclaring.bind fun op => ?_)
  cases op with
  | none => exact undeclaring_pure _
  | some o => exact h.bind fun _ => undeclaring_pure _

theorem undeclaring_expressionOver (h : Undeclaring operand) :
    Undeclaring (expressionOver operand) := by
  unfold expressionOver
  induction levels with
  | nil => exact h
  | cons level levels ih => exact undeclaring_leftAssociated level ih

theorem undeclaring_primary (h : Undeclaring inner) : Undeclaring (primary inner) := by
  refine (quiet_accept "(").undeclaring.bind fun opened => undeclaring_ite
    (h.bind fun _ => (quiet_expect ")").undeclaring.bind fun _ => undeclaring_pure _)
    (quiet_peek.undeclaring.bind fun token => ?_)
  split
  · exact quiet_here.undeclaring.bind fun _ => undeclaring_refuse _ _
  split
  · exact quiet_number.undeclaring.bind fun _ => undeclaring_pure _
  · exact quiet_advance.undeclaring.bind fun _ =>
      (undeclaring_intern _).bind fun _ => undeclaring_pure _
  · refine quiet_identifier.undeclaring.bind fun _ => (quiet_accept "(").undeclaring.bind fun called =>
      undeclaring_ite ?_ (undeclaring_readName _ _)
    exact (undeclaring_listUntil ")" h).bind fun _ => undeclaring_pure _
  · exact (quiet_unexpected .expression (Q := fun _ => True)).undeclaring

theorem undeclaring_postfixed (h : Undeclaring inner) : Undeclaring (postfixed inner) := by
  refine (undeclaring_primary h).bind (undeclaring_iterate fun base =>
    quiet_here.undeclaring.bind fun loc => (quiet_accept "[").undeclaring.bind fun opened =>
      undeclaring_ite ?_ (undeclaring_pure _))
  exact h.bind fun position => (quiet_expect "]").undeclaring.bind fun _ =>
    (undeclaring_indexed base position loc).bind fun _ => undeclaring_pure _

theorem undeclaring_operandTo (depth : Nat) : Undeclaring (operandTo depth) := by
  induction depth with
  | zero => exact undeclaring_broken _
  | succ depth ih =>
    refine quiet_here.undeclaring.bind fun loc => ?_
    refine (quiet_accept "+").undeclaring.bind fun _ => undeclaring_ite ih ?_
    refine (quiet_accept "-").undeclaring.bind fun _ =>
      undeclaring_ite (ih.bind fun _ => undeclaring_pure _) ?_
    refine (quiet_accept "&").undeclaring.bind fun _ => undeclaring_ite
      (ih.bind fun _ => undeclaring_ite (undeclaring_pure _) (undeclaring_refuse _ _)) ?_
    refine (quiet_accept "*").undeclaring.bind fun _ =>
      undeclaring_ite (ih.bind fun _ => undeclaring_pure _) ?_
    exact undeclaring_postfixed (undeclaring_expressionOver ih)

/-- **An expression declares nothing.** -/
theorem undeclaring_expression : Undeclaring expression :=
  quiet_get.undeclaring.bind fun _ => undeclaring_expressionOver (undeclaring_operandTo _)

/-! ### Declarations -/

theorem undeclaring_initial : Undeclaring initial := by
  refine (quiet_accept "=").undeclaring.bind fun given => undeclaring_ite
    ((quiet_accept "\x7b").undeclaring.bind fun list => undeclaring_ite ?_ ?_) (undeclaring_pure _)
  · exact (undeclaring_listUntil "\x7d" undeclaring_expression).bind fun _ => undeclaring_pure _
  · exact undeclaring_expression.bind fun _ => undeclaring_pure _

theorem undeclaring_initialAssignment (id : VarId) (ty : Ty) (isGlobal : Bool) (loc : Nat)
    (init : Initial) : Undeclaring (initialAssignment id ty isGlobal loc init) := by
  cases init with
  | value value => exact undeclaring_pure _
  | elements elements =>
    refine undeclaring_ite (undeclaring_ite (undeclaring_pure _) ?_) (undeclaring_refuse _ _)
    exact (undeclaring_mapM (fun _ => undeclaring_indexed _ _ _) _).bind fun _ => undeclaring_pure _
  | zero =>
    refine undeclaring_ite (undeclaring_pure _) (Undeclaring.bind ?_ fun _ => undeclaring_pure _)
    exact undeclaring_ite ((undeclaring_intern _).bind fun _ => undeclaring_pure _) (undeclaring_pure _)

end Undeclaring

/-! ## Package-level variables -/

section Globals

variable {d : Declared} {r : Reading}

/-- Of the package-level variables there is one more, which has its type **or is given a value** by the
statement. -/
def Reading.Initialized (r : Reading) (st : Stmt) (r' : Reading) : Prop :=
  r.vars <+: r'.vars ∧ ∃ id, r'.globals = r.globals ++ [id] ∧
    ((∃ v, r'.vars[id]? = some v ∧ v.ty.isResolved = true) ∨ st.isEmpty = false ∧ st.Initializes id)

theorem Reading.Initialized.of_undeclared {r₁ r₂ : Reading} (h : r.Undeclared r₁) {st : Stmt}
    (h' : r₁.Initialized st r₂) : r.Initialized st r₂ := by
  obtain ⟨hvars, id, hglobals, hid⟩ := h'
  exact ⟨h.vars.trans hvars, id, h.globals ▸ hglobals, hid⟩

theorem ensures_undeclaring_bind {α : Type} {x : Parser α} {f : α → Parser Stmt}
    (hx : Undeclaring x) (hscope : r.scope = none)
    (hf : ∀ a r', r'.scope = none → Ensures (f a) r' r'.Initialized) :
    Ensures (x >>= f) r r.Initialized :=
  (ensures_bind x f r _).mpr <| (hx r).mono fun a r' h =>
    (hf a r' (h.scope.trans hscope)).mono fun _ _ => .of_undeclared h

/-- A package-level variable is listed **last**, and gets what its declaration assigns. -/
theorem ensures_declaredGlobal (name : String) (ty : Ty) (loc : Nat) (init : Initial)
    (hscope : r.scope = none) :
    Ensures (do
      let isGlobal := (← get).scope.isNone
      let id ← declare name ty loc
      initialAssignment id ty isGlobal loc init) r fun st r' => r.vars <+: r'.vars ∧
        ∃ id, r'.globals = r.globals ++ [id] ∧ (∃ v, r'.vars[id]? = some v ∧ v.ty = ty) ∧
          ∃ r₁ isGlobal, (initialAssignment id ty isGlobal loc init).run r₁ = .ok (st, r') := by
  rw [ensures_bind, ensures_get]
  unfold declare
  simp only [ensures_bind, ensures_get]
  split
  · exact ensures_refuse_bind _ _ _ _
  simp only [ensures_bind, ensures_set, ensures_pure]
  intro st r' hrun
  have hgrown := undeclaring_initialAssignment _ _ _ _ _ _ st r' hrun
  rw [Reading.listed_addVariable_of_none hscope] at hgrown
  exact ⟨(List.prefix_append _ _).trans hgrown.vars, _, hgrown.globals,
    ⟨_, Reading.getElem?_mono hgrown.vars List.getElem?_concat_length, rfl⟩, _, _, hrun⟩

/-- What follows the name and the type of a declaration. -/
theorem ensures_initializedRest (name : String) {ty : Ty} (hty : ty = .unknown ∨ ty.isResolved = true)
    (loc : Nat) (hscope : r.scope = none) :
    Ensures (do
      let init ← initial
      endDeclaration init
      if let (.unknown, .zero) := (ty, init) then refuse (.typeOrInitializerMissing name) loc
      let isGlobal := (← get).scope.isNone
      let id ← declare name ty loc
      initialAssignment id ty isGlobal loc init) r r.Initialized := by
  refine ensures_undeclaring_bind undeclaring_initial hscope fun init r hscope => ?_
  refine ensures_undeclaring_bind (quiet_endDeclaration init).undeclaring hscope
    fun _ r hscope => ?_
  dsimp only
  split
  · exact ensures_refuse_bind _ _ _ _
  next hother =>
  refine (ensures_declaredGlobal name ty loc init hscope).mono ?_
  rintro st r' ⟨hvars, id, hglobals, ⟨v, hv, hvty⟩, r₁, isGlobal, hrun⟩
  refine ⟨hvars, id, hglobals, ?_⟩
  rcases hty with rfl | hr
  · cases init with
    | zero => exact (hother rfl).elim
    | value value =>
      cases hrun
      exact .inr ⟨rfl, _, _, _, rfl⟩
    | elements elements => cases hrun
  · exact .inl ⟨v, hv, hvty ▸ hr⟩

theorem ensures_initialized (hscope : r.scope = none) : Ensures declaration r r.Initialized := by
  refine ensures_undeclaring_bind (quiet_expect "var").undeclaring hscope fun _ r hscope => ?_
  refine ensures_undeclaring_bind quiet_identifier.undeclaring hscope ?_
  rintro ⟨name, loc⟩ r hscope
  refine ensures_undeclaring_bind quiet_typeAhead.undeclaring hscope fun typed r hscope => ?_
  cases typed with
  | false => exact ensures_initializedRest name (.inl rfl) loc hscope
  | true =>
    refine (ensures_bind _ _ _ _).mpr ((quiet_type r).mono fun ty r₁ ⟨hsame, hty⟩ => ?_)
    exact (ensures_initializedRest name (.inr hty.2) loc (hsame.scope.trans hscope)).mono
      fun _ _ => .of_undeclared ⟨hsame.vars ▸ List.prefix_rfl, hsame.globals, hsame.scope⟩

/-- What has been declared so far has been read, and the package-level variables **have types or
values**. -/
def Declared.Started (d : Declared) (r : Reading) : Prop :=
  d.Read r ∧ InitializedBy d.inits r.vars r.globals

theorem Declared.Started.same {r' : Reading} (h : d.Started r) (hsame : r.SameTables r') :
    d.Started r' := by
  refine ⟨h.1.same hsame, ?_⟩
  rw [hsame.vars, hsame.globals]
  exact h.2

theorem ensures_startedRound (h : d.Started r) :
    Ensures (packageRound d) r (RoundKept Declared.Started Declared.Started) := by
  have hround : Ensures (packageRound d) r (RoundKept
      (fun d r => InitializedBy d.inits r.vars r.globals) fun d r =>
        InitializedBy d.inits r.vars r.globals) := by
    unfold packageRound
    rw [ensures_bind]
    refine (quiet_accept ";" r).mono fun blank r₁ ⟨hsame₁, _⟩ => ?_
    have h₁ := h.same hsame₁
    cases blank with
    | true => exact (ensures_pure _ _ _).mpr h₁.2
    | false =>
    refine (ensures_bind _ _ _ _).mpr ((quiet_atEnd r₁).mono fun finished r₂ ⟨hsame₂, _⟩ => ?_)
    have h₂ := h₁.same hsame₂
    cases finished with
    | true => exact (ensures_pure _ _ _).mpr h₂.2
    | false =>
    refine (ensures_bind _ _ _ _).mpr ((quiet_ahead "func" r₂).mono
      fun isFunction r₃ ⟨hsame₃, _⟩ => ?_)
    have h₃ := h₂.same hsame₃
    cases isFunction with
    | true =>
      refine (ensures_bind _ _ _ _).mpr ((ensures_function _ h₃.1.sound).mono ?_)
      rintro f r₄ ⟨⟨-, -, hvars, -, hglobals⟩, -⟩
      refine (ensures_pure _ _ _).mpr ?_
      dsimp only [RoundKept]
      rw [hglobals]
      exact h₃.2.mono (List.Subset.refl _) hvars
    | false =>
    refine (ensures_bind _ _ _ _).mpr ((quiet_ahead "var" r₃).mono
      fun isVariable r₄ ⟨hsame₄, _⟩ => ?_)
    have h₄ := h₃.same hsame₄
    cases isVariable with
    | false =>
      exact ((quiet_unexpected .declaration (Q := fun _ => False)) r₄).mono fun _ _ h => h.2.elim
    | true =>
    refine (ensures_bind _ _ _ _).mpr ((ensures_initialized h₄.1.scope).mono ?_)
    rintro st r₅ ⟨hvars, id, hglobals, hid⟩
    refine (ensures_pure _ _ _).mpr ?_
    dsimp only [RoundKept]
    rw [hglobals]
    split
    · next hempty =>
      refine (h₄.2.mono (List.Subset.refl _) hvars).concat (.inl (hid.resolve_right ?_))
      rintro ⟨hsome, -⟩
      rw [hempty] at hsome
      cases hsome
    · exact (h₄.2.mono (List.subset_append_left _ _) hvars).concat (hid.imp_right fun ⟨_, hst⟩ =>
        ⟨st, List.mem_append_right _ (List.mem_singleton_self _), hst⟩)
  refine ((ensures_packageRound h.1).and hround).mono ?_
  rintro (_ | _) _ h <;> exact h

end Globals

end Grammar

/-- **Package-level variables have types, or are given values**, in every program that is read. -/
theorem Program.initialized_of_ofTokens {source : List Char} {tokens : List Token} {p : Program}
    (h : Program.ofTokens source tokens = .ok p) : p.Initialized := by
  unfold Program.ofTokens at h
  cases hrun : Grammar.package.run (.start source tokens) with
  | error failure => rw [hrun] at h; cases h
  | ok result =>
  rw [hrun] at h
  obtain rfl : result.1 = p := Except.ok.inj h
  obtain ⟨_, i, rest, d, -, -, -, hrounds, hp⟩ := Grammar.run_package_eq_ok_iff.mp hrun
  have hstart : Grammar.Declared.Started ⟨[], []⟩ (Grammar.Reading.start source tokens) :=
    ⟨Grammar.Declared.read_start (Grammar.Reading.sound_start _ _) rfl rfl,
      fun _ h => absurd h List.not_mem_nil⟩
  have hbehind : Grammar.Declared.Started ⟨[], []⟩
      { Grammar.Reading.start source tokens with previous := some i, rest := rest } :=
    hstart.same ⟨rfl, rfl, rfl, rfl⟩
  have hread := Grammar.ensures_iterate (fun _ _ => Grammar.ensures_startedRound) hbehind d result.2
    hrounds
  rw [hp]
  exact ⟨_, _, rfl, hread.2.mono (List.subset_append_left _ _) List.prefix_rfl⟩

end StackCompiler
