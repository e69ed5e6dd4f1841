import StackCompiler.Proofs.Grammar.Places

/-!
# Proofs/Grammar/Refusals — reading a package, or refusing it at a token

Statements are walked as expressions are: each of them takes a token, so a list of statements comes
to its end.  A package that is read stands at tokens (`Covers.placed`), and reading stops **at one of
them** (`Covers.stoppedAt`).
-/

namespace StackCompiler

/-- The function stands at tokens, with its variables in the arena. -/
structure Function.Placed (tokens : List Token) (arena : Nat) (f : Function) : Prop where
  loc : AtToken tokens f.loc
  body : ∀ s ∈ f.body, s.Placed tokens arena

theorem Function.Placed.mono {tokens : List Token} {f : Function} {arena arena' : Nat}
    (h : f.Placed tokens arena) (hle : arena ≤ arena') : f.Placed tokens arena' :=
  ⟨h.loc, stmts_placed_mono h.body hle⟩

/-- The program stands at tokens, and has its name from one of them. -/
structure Program.Placed (tokens : List Token) (p : Program) : Prop where
  package : Grammar.IsIdentifier tokens p.package
  vars : ∀ v ∈ p.vars, AtToken tokens v.loc
  funcs : ∀ f ∈ p.funcs, f.Placed tokens p.vars.length

namespace Grammar

variable {source : List Char} {tokens : List Token} {r : Reading} {n : Nat}

/-- The parser takes a statement of at least one token. -/
abbrev TakesStmt (source : List Char) (tokens : List Token) (n : Nat) (x : Parser Stmt) : Prop :=
  Takes source tokens n x fun s arena => s.Placed tokens arena

abbrev TakesStmts (source : List Char) (tokens : List Token) (n : Nat) (x : Parser (List Stmt)) :
    Prop :=
  Takes source tokens n x fun ss arena => ∀ s ∈ ss, s.Placed tokens arena

/-! ## Declarations -/

theorem ends_atStatementEnd {E : Failure → Prop} {Q : Bool → Reading → Prop}
    (h : ∀ found, Q found r) : Ends atStatementEnd r Q E :=
  (ends_bind _ _).mpr (ends_ahead fun _ _ => (ends_bind _ _).mpr (ends_ahead fun _ _ =>
    (ends_bind _ _).mpr (ends_atEnd fun _ => (ends_pure _).mpr (h _))))

theorem ends_endStatement (hend : EndsAtToken source tokens) (hr : r.Placed source tokens) :
    Ends endStatement r (Moved source tokens r fun _ _ => True) (StoppedAt source tokens) := by
  refine Course.ends_andThen (ends_accept hr) fun found r₁ hr₁ _ _ => ?_
  cases found with
  | true => exact moved_pure hr₁ trivial
  | false =>
  refine (ends_bind _ _).mpr (ends_ahead fun brace _ => (ends_bind _ _).mpr (ends_atEnd
    fun finished => ?_))
  cases brace || finished with
  | true => exact moved_pure hr₁ trivial
  | false =>
    exact Course.ends_andThen (ends_expect hend hr₁) fun _ r₂ hr₂ _ _ => moved_pure hr₂ trivial

/-- What a declared variable starts with stands at tokens. -/
def Initial.Placed (tokens : List Token) (arena : Nat) : Initial → Prop
  | .zero => True
  | .value e => e.Placed tokens arena
  | .elements es => ∀ e ∈ es, e.Placed tokens arena

theorem Initial.Placed.mono {arena arena' : Nat} {init : Initial} (h : init.Placed tokens arena)
    (hle : arena ≤ arena') : init.Placed tokens arena' := by
  cases init with
  | zero => trivial
  | value e => exact Expr.Placed.mono h hle
  | elements es => exact exprs_placed_mono h hle

theorem ends_initial (hend : EndsAtToken source tokens) (hr : r.Placed source tokens) :
    Ends initial r (Moved source tokens r fun init r' => init.Placed tokens r'.vars.length)
      (StoppedAt source tokens) := by
  refine Course.ends_andThen (ends_accept hr) fun given r₁ hr₁ _ _ => ?_
  cases given with
  | false => exact moved_pure hr₁ trivial
  | true =>
  refine Course.ends_andThen (ends_accept hr₁) fun list r₂ hr₂ _ _ => ?_
  cases list with
  | true =>
    exact Course.ends_andThen
      (takes_exprsUntil hend "\x7d" (takes_expression hend) r₂ hr₂ (Nat.lt_succ_self _))
      fun es r₃ hr₃ _ hes => moved_pure hr₃ hes.2
  | false =>
    exact Course.ends_andThen (takes_expression hend r₂ hr₂ (Nat.lt_succ_self _))
      fun e r₃ hr₃ _ he => moved_pure hr₃ he.2

theorem ends_endDeclaration (hend : EndsAtToken source tokens) (hr : r.Placed source tokens)
    (init : Initial) :
    Ends (endDeclaration init) r (Moved source tokens r fun _ _ => True) (StoppedAt source tokens) := by
  unfold endDeclaration
  split
  · refine (ends_bind _ _).mpr (ends_atLineStart hend hr fun fresh => ?_)
    cases fresh with
    | true => exact moved_pure hr trivial
    | false => exact ends_endStatement hend hr
  · exact ends_endStatement hend hr

theorem ends_zeroValue (hr : r.Placed source tokens) (ty : Ty) {loc : Nat}
    (hloc : AtToken tokens loc) :
    Ends (zeroValue ty loc) r (Moved source tokens r fun e r' => e.Placed tokens r'.vars.length)
      (StoppedAt source tokens) := by
  unfold zeroValue
  split
  · exact Course.ends_andThen (ends_intern hr "") fun i r₁ hr₁ _ _ => moved_pure hr₁ (.str hloc)
  · exact moved_pure hr (.num hloc)

theorem ends_elementwise {target : Expr} {elements : List Expr} {loc : Nat}
    (hr : r.Placed source tokens) (htarget : target.Placed tokens r.vars.length)
    (helements : ∀ e ∈ elements, e.Placed tokens r.vars.length) (hloc : AtToken tokens loc) :
    Ends (elementwise target elements loc) r (Moved source tokens r fun s r' =>
      s.Placed tokens r'.vars.length) (StoppedAt source tokens) := by
  unfold elementwise
  split
  · exact moved_pure hr (.empty trivial)
  refine Course.ends_andThen (Course.ends_mapM (c := places source tokens)
    (P := fun e r' => e.Placed tokens r'.vars.length) (fun hl he => he.mono hl.2) _ hr
    fun ⟨element, i⟩ hmem r' hr' hl => ?_) fun targets r₁ hr₁ ⟨_, hvars₁⟩ htargets => ?_
  · have helement := helements element (List.fst_mem_of_mem_zipIdx hmem)
    exact ends_indexed hr' (htarget.mono hl.2) (.num helement.here.atToken) helement.here.atToken
  · exact moved_pure hr₁ (.assign hloc htargets (exprs_placed_mono helements hvars₁))

theorem ends_initialAssignment {id : VarId} (ty : Ty) (isGlobal : Bool) {loc : Nat}
    {init : Initial} (hr : r.Placed source tokens) (hid : id < r.vars.length)
    (hinit : init.Placed tokens r.vars.length) (hloc : AtToken tokens loc) :
    Ends (initialAssignment id ty isGlobal loc init) r (Moved source tokens r fun s r' =>
      s.Placed tokens r'.vars.length) (StoppedAt source tokens) := by
  have hassign {arena : Nat} (hid : id < arena) {value : Expr} (hvalue : value.Placed tokens arena) :
      (Stmt.assign [.var id .unknown loc] [value] loc).Placed tokens arena :=
    .assign hloc (List.forall_mem_singleton.mpr (.var ⟨hloc, hid⟩))
      (List.forall_mem_singleton.mpr hvalue)
  cases init with
  | value value => exact moved_pure hr (hassign hid hinit)
  | elements es =>
    dsimp only [initialAssignment]
    split
    · exact ends_elementwise hr (.var ⟨hloc, hid⟩) hinit hloc
    · exact ends_refuse nofun hloc
  | zero =>
    dsimp only [initialAssignment]
    split
    · exact moved_pure hr (.empty trivial)
    · exact Course.ends_andThen (ends_zeroValue hr ty hloc) fun value r₁ hr₁ ⟨_, hvars₁⟩ hvalue =>
        moved_pure hr₁ (hassign (hid.trans_le hvars₁) hvalue)

/-- What follows the name and the type of a declaration. -/
theorem ends_declarationRest (hend : EndsAtToken source tokens) (hr : r.Placed source tokens)
    (name : String) (ty : Ty) {loc : Nat} (hloc : AtToken tokens loc) :
    Ends (do
      let init ← initial
      endDeclaration init
      if let (.unknown, .zero) := (ty, init) then refuse (.typeOrInitializerMissing name) loc
      let isGlobal := (← get).scope.isNone
      let id ← declare name ty loc
      initialAssignment id ty isGlobal loc init) r
      (Moved source tokens r fun s r' => s.Placed tokens r'.vars.length) (StoppedAt source tokens) := by
  refine Course.ends_andThen (ends_initial hend hr) fun init r₁ hr₁ _ hinit => ?_
  refine Course.ends_andThen (ends_endDeclaration hend hr₁ init) fun _ r₂ hr₂ ⟨_, hvars₂⟩ _ => ?_
  have hdeclare : Ends (do
      let isGlobal := (← get).scope.isNone
      let id ← declare name ty loc
      initialAssignment id ty isGlobal loc init) r₂
      (Moved source tokens r₂ fun s r' => s.Placed tokens r'.vars.length) (StoppedAt source tokens) := by
    refine (ends_bind _ _).mpr (ends_get.mpr ?_)
    refine Course.ends_andThen (ends_declare hr₂ name ty hloc) fun id r₃ hr₃ ⟨_, hvars₃⟩ hid => ?_
    exact ends_initialAssignment ty _ hr₃ hid (hinit.mono (hvars₂.trans hvars₃)) hloc
  dsimp only
  split
  · exact ends_refuse_bind nofun hloc
  · exact hdeclare

theorem takes_declaration (hend : EndsAtToken source tokens) : TakesStmt source tokens n declaration := by
  intro r hr _
  refine Course.ends_andThen (ends_expect hend hr) fun _ r₁ hr₁ _ ⟨hrest₁, _⟩ => ?_
  refine Course.ends_andThen (takes_identifier hend r₁ hr₁ (Nat.lt_succ_self _))
    fun ⟨name, loc⟩ r₂ hr₂ _ ⟨hrest₂, _, hloc⟩ => ?_
  refine (ends_bind _ _).mpr (ends_typeAhead fun typed => ?_)
  have hrestOf {r₃ : Reading} (hr₃ : r₃.Placed source tokens)
      (hrest₃ : r₃.rest.length ≤ r₂.rest.length) (ty : Ty) :=
    (ends_declarationRest hend hr₃ name ty hloc).mono fun s r₄ ⟨hr₄, hl, hs⟩ =>
      show Moved source tokens r₃ (fun (s : Stmt) r' => r'.rest.length < r.rest.length ∧
        s.Placed tokens r'.vars.length) s r₄ from ⟨hr₄, hl, by have := hl.1; omega, hs⟩
  cases typed with
  | true =>
    exact Course.ends_andThen (takes_type hend r₂ hr₂ (Nat.lt_succ_self _))
      fun ty r₃ hr₃ ⟨hrest₃, _⟩ _ => hrestOf hr₃ hrest₃ ty
  | false => exact hrestOf hr₂ le_rfl .unknown

/-! ## Simple statements -/

theorem takes_shortDeclaration (hend : EndsAtToken source tokens) :
    TakesStmt source tokens n shortDeclaration := by
  intro r hr _
  refine Course.ends_andThen (takes_commaList (P := fun (a : String × Nat) _ =>
    IsIdentifier tokens a.1 ∧ AtToken tokens a.2) (fun _ h => h) (takes_identifier hend) r hr
    (Nat.lt_succ_self _))
    fun names r₁ hr₁ _ ⟨hrest₁, hnames⟩ => ?_
  refine Course.ends_andThen (ends_expect hend hr₁) fun loc r₂ hr₂ _ ⟨hrest₂, hloc⟩ => ?_
  refine Course.ends_andThen (takes_exprList (takes_expression hend) r₂ hr₂ (Nat.lt_succ_self _))
    fun values r₃ hr₃ _ ⟨hrest₃, hvalues⟩ => ?_
  refine Course.ends_andThen (Course.ends_mapM (c := places source tokens)
    (P := fun e r' => e.Placed tokens r'.vars.length) (fun hl he => he.mono hl.2) names hr₃
    fun ⟨name, nameLoc⟩ hmem r' hr' hl => ?_) fun targets r₄ hr₄ ⟨hrest₄, hvars₄⟩ htargets => ?_
  · have hnameLoc := (hnames _ hmem).2
    exact Course.ends_andThen (ends_declare hr' name .unknown hnameLoc)
      fun id r'' hr'' _ hid => moved_pure hr'' (.var ⟨hnameLoc, hid⟩)
  · exact moved_pure hr₄ ⟨by omega, .assign hloc htargets (exprs_placed_mono hvalues hvars₄)⟩

theorem ends_checkTarget {target : Expr} (hr : r.Placed source tokens)
    (htarget : target.Placed tokens r.vars.length) :
    Ends (checkTarget target) r (Moved source tokens r fun _ _ => True) (StoppedAt source tokens) := by
  have hplace : Ends
      (if (!target.isLvalue) = true then refuse .notAssignable target.loc else pure ()) r
      (Moved source tokens r fun _ _ => True) (StoppedAt source tokens) := by
    split
    · exact ends_refuse nofun htarget.here.atToken
    · exact moved_pure hr trivial
  cases target with
  | var id ty loc =>
    refine (ends_bind _ _).mpr (ends_variableOf htarget.here.2 fun v => ?_)
    dsimp only
    split
    · exact ends_refuse_bind nofun htarget.here.1
    · exact hplace
  | _ => exact hplace

theorem takes_assignmentOrExpression (hend : EndsAtToken source tokens) :
    TakesStmt source tokens n assignmentOrExpression := by
  intro r hr _
  refine Course.ends_andThen (takes_exprList (takes_expression hend) r hr (Nat.lt_succ_self _))
    fun targets r₁ hr₁ _ ⟨hrest₁, htargets⟩ => ?_
  refine (ends_bind _ _).mpr (ends_ahead fun assigned _ => ?_)
  cases assigned with
  | true =>
    refine Course.ends_andThen (ends_expect hend hr₁) fun loc r₂ hr₂ ⟨_, hvars₂⟩ ⟨hrest₂, hloc⟩ => ?_
    refine Course.ends_andThen (Course.ends_forM (c := places source tokens) targets hr₂
      fun target hmem r' hr' hl => ends_checkTarget hr'
        ((htargets target hmem).mono (hvars₂.trans hl.2))) fun _ r₃ hr₃ ⟨hrest₃, hvars₃⟩ _ => ?_
    refine Course.ends_andThen (takes_exprList (takes_expression hend) r₃ hr₃ (Nat.lt_succ_self _))
      fun values r₄ hr₄ ⟨_, hvars₄⟩ ⟨hrest₄, hvalues⟩ => ?_
    exact moved_pure hr₄ ⟨by omega, .assign hloc
      (exprs_placed_mono htargets (hvars₂.trans (hvars₃.trans hvars₄))) hvalues⟩
  | false =>
    simp only [Bool.false_eq_true, if_false]
    split
    · next value hread =>
      exact moved_pure hr₁ ⟨hread.1, .expr trivial (hread.2 value List.mem_cons_self)⟩
    · exact ends_unexpected hend hr₁

theorem takes_simple (hend : EndsAtToken source tokens) : TakesStmt source tokens n simple := by
  intro r hr hn
  refine (ends_bind _ _).mpr (ends_get.mpr ?_)
  split
  · exact takes_shortDeclaration hend r hr hn
  · exact takes_assignmentOrExpression hend r hr hn

theorem takes_printing (hend : EndsAtToken source tokens) : TakesStmt source tokens n printing := by
  intro r hr _
  refine (ends_bind _ _).mpr (ends_here hend hr fun loc hloc _ => ?_)
  refine (ends_bind _ _).mpr (ends_peek ?_)
  split
  · exact ends_refuse nofun hloc
  refine Course.ends_andThen (ends_advance hr) fun _ r₁ hr₁ ⟨hrest₁, _⟩ _ => ?_
  refine Course.ends_andThen (ends_expect hend hr₁) fun _ r₂ hr₂ _ ⟨hrest₂, _⟩ => ?_
  refine Course.ends_andThen
    (takes_exprsUntil hend ")" (takes_expression hend) r₂ hr₂ (Nat.lt_succ_self _))
    fun args r₃ hr₃ _ ⟨hrest₃, hargs⟩ => ?_
  exact moved_pure hr₃ ⟨by omega, .print trivial hargs⟩

/-! ## Statements that hold others -/

section Nested

variable {statement : Parser Stmt} {body : Parser (List Stmt)}

/-- Statements between braces stand **behind the first of these**, so they may nest one deeper. -/
theorem takes_braced (hend : EndsAtToken source tokens) (hstatement : TakesStmt source tokens n statement) :
    TakesStmts source tokens (n + 1) (braced statement) := by
  intro r hr hn
  refine Course.ends_andThen (ends_expect hend hr) fun _ r₀ hr₀ _ ⟨hrest₀, _⟩ => ?_
  refine ends_iterate (I := fun ss r' => ∀ s ∈ ss, s.Placed tokens r'.vars.length) hr₀
    (fun ss r₁ hr₁ hrest₁ _ hss => ?_) fun _ h => absurd h List.not_mem_nil
  refine Course.ends_andThen (ends_accept hr₁) fun closed r₂ hr₂ ⟨hrest₂, hvars₂⟩ _ => ?_
  cases closed with
  | true => exact moved_pure hr₂ ⟨by omega, stmts_placed_mono hss hvars₂⟩
  | false =>
  refine Course.ends_andThen (ends_accept hr₂) fun blank r₃ hr₃ ⟨hrest₃, hvars₃⟩ hblank => ?_
  cases blank with
  | true =>
    have hblank := hblank rfl
    exact moved_pure hr₃ ⟨by omega, stmts_placed_mono hss (hvars₂.trans hvars₃)⟩
  | false =>
    refine Course.ends_andThen (hstatement r₃ hr₃ (by omega))
      fun s r₄ hr₄ ⟨_, hvars₄⟩ ⟨hrest₄, hs⟩ => moved_pure hr₄ ⟨by omega, ?_⟩
    exact forall_mem_concat (P := fun (s : Stmt) arena => s.Placed tokens arena) (fun hle h => h.mono hle)
      (hvars₂.trans (hvars₃.trans hvars₄)) hss hs

theorem takes_branchHead (hend : EndsAtToken source tokens) {loc : Nat} (hloc : AtToken tokens loc) :
    Takes source tokens n (branchHead loc) fun head arena =>
      head.1.Placed tokens arena ∧ head.2.Placed tokens arena := by
  intro r hr hn
  refine Course.ends_andThen (takes_simple hend r hr hn) fun first r₁ hr₁ _ ⟨hrest₁, hfirst⟩ => ?_
  refine Course.ends_andThen (ends_accept hr₁) fun more r₂ hr₂ ⟨hrest₂, hvars₂⟩ _ => ?_
  cases more with
  | true =>
    refine Course.ends_andThen (takes_expression hend r₂ hr₂ (Nat.lt_succ_self _))
      fun cond r₃ hr₃ ⟨_, hvars₃⟩ ⟨hrest₃, hcond⟩ => ?_
    exact moved_pure hr₃ ⟨by omega, hfirst.mono (hvars₂.trans hvars₃), hcond⟩
  | false =>
    simp only [Bool.false_eq_true, if_false]
    split
    · cases hfirst.mono hvars₂ with
      | expr _ hcond => exact moved_pure hr₂ ⟨by omega, .empty trivial, hcond⟩
    · exact ends_refuse nofun hloc

theorem takes_branchTo (hend : EndsAtToken source tokens) (hbody : TakesStmts source tokens n body)
    (depth : Nat) : ∀ {loc : Nat}, AtToken tokens loc →
      Takes source tokens (min depth n) (branchTo body loc depth)
        fun s arena => s.Placed tokens arena := by
  induction depth with
  | zero => exact fun _ _ _ hlt => absurd hlt (by omega)
  | succ depth ih =>
    intro loc hloc r hr hn
    refine Course.ends_andThen (takes_branchHead hend hloc r hr (Nat.lt_succ_self _))
      fun ⟨init, cond⟩ r₁ hr₁ _ ⟨hrest₁, hinit, hcond⟩ => ?_
    refine Course.ends_andThen (hbody r₁ hr₁ (by omega))
      fun ss r₂ hr₂ ⟨_, hvars₂⟩ ⟨hrest₂, hss⟩ => ?_
    refine Course.ends_andThen (ends_accept hr₂) fun more r₃ hr₃ ⟨hrest₃, hvars₃⟩ _ => ?_
    have hbranch {otherwise : Stmt} {arena : Nat} (hle : r₃.vars.length ≤ arena)
        (ho : otherwise.Placed tokens arena) :
        (Stmt.branch init cond ss otherwise).Placed tokens arena :=
      .branch trivial (hinit.mono (hvars₂.trans (hvars₃.trans hle)))
        (hcond.mono (hvars₂.trans (hvars₃.trans hle)))
        (stmts_placed_mono hss (hvars₃.trans hle)) ho
    cases more with
    | false => exact moved_pure hr₃ ⟨by omega, hbranch le_rfl (.empty trivial)⟩
    | true =>
    refine (ends_bind _ _).mpr (ends_here hend hr₃ fun elseLoc helseLoc _ => ?_)
    refine Course.ends_andThen (ends_accept hr₃) fun chained r₄ hr₄ ⟨hrest₄, hvars₄⟩ _ => ?_
    cases chained with
    | true =>
      refine Course.ends_andThen (ih helseLoc r₄ hr₄ (by omega))
        fun otherwise r₅ hr₅ ⟨_, hvars₅⟩ ⟨hrest₅, ho⟩ => ?_
      exact moved_pure hr₅ ⟨by omega, hbranch (hvars₄.trans hvars₅) ho⟩
    | false =>
      refine Course.ends_andThen (hbody r₄ hr₄ (by omega))
        fun other r₅ hr₅ ⟨_, hvars₅⟩ ⟨hrest₅, hother⟩ => ?_
      exact moved_pure hr₅ ⟨by omega, hbranch (hvars₄.trans hvars₅) (.block trivial hother)⟩

theorem takes_branch (hend : EndsAtToken source tokens) (hbody : TakesStmts source tokens n body)
    {loc : Nat} (hloc : AtToken tokens loc) : TakesStmt source tokens n (branch body loc) := by
  intro r hr hn
  unfold branch bounded bound
  simp only [ends_bind, ends_get, ends_pure]
  exact takes_branchTo hend hbody _ hloc r hr (by omega)

/-- A part that may be left out, with what comes after it in either case. -/
theorem ends_optional {α β : Type} {P : α → Nat → Prop} {R : β → Reading → Prop} {absent : Bool}
    {x : Parser α} {a : α} {f : α → Parser β}
    (hx : Takes source tokens (r.rest.length + 1) x P) (hr : r.Placed source tokens)
    (ha : P a r.vars.length)
    (hf : ∀ a r', r'.Placed source tokens → r'.rest.length ≤ r.rest.length →
      r.vars.length ≤ r'.vars.length → P a r'.vars.length →
      Ends (f a) r' (Moved source tokens r' R) (StoppedAt source tokens)) :
    Ends (if absent = true then pure a >>= f else x >>= f) r (Moved source tokens r R)
      (StoppedAt source tokens) := by
  cases absent with
  | true => exact Course.ends_andThen (moved_pure hr ha) fun a r' hr' hl => hf a r' hr' hl.1 hl.2
  | false =>
    exact Course.ends_andThen (hx r hr (Nat.lt_succ_self _)) fun a r' hr' hl ha =>
      hf a r' hr' hl.1 hl.2 ha.2

theorem takes_someExpression (hend : EndsAtToken source tokens) :
    Takes source tokens n (some <$> expression) fun cond arena =>
      ∀ e ∈ cond, e.Placed tokens arena := by
  intro r hr hn
  refine (ends_map _ _).mpr ((takes_expression hend r hr hn).mono fun e r' ⟨hr', hl, hrest, he⟩ => ?_)
  refine ⟨hr', hl, hrest, fun e' he' => ?_⟩
  cases he'
  exact he

/-- The three clauses of a loop stand at tokens. -/
def ClausesPlaced (tokens : List Token) (arena : Nat) (head : Stmt × Option Expr × Stmt) : Prop :=
  head.1.Placed tokens arena ∧ (∀ e ∈ head.2.1, Expr.Placed tokens arena e) ∧
    head.2.2.Placed tokens arena

theorem ends_loopHead (hend : EndsAtToken source tokens) (hr : r.Placed source tokens) {loc : Nat}
    (hloc : AtToken tokens loc) :
    Ends (loopHead loc) r (Moved source tokens r fun head r' =>
      ClausesPlaced tokens r'.vars.length head) (StoppedAt source tokens) := by
  have hempty {arena : Nat} : Stmt.empty.Placed tokens arena := .empty trivial
  refine (ends_bind _ _).mpr (ends_ahead fun endless _ => ?_)
  cases endless with
  | true => exact moved_pure hr ⟨hempty, (fun _ h => nomatch h), hempty⟩
  | false =>
  refine (ends_bind _ _).mpr (ends_ahead fun _ _ => ?_)
  refine ends_optional (takes_simple hend) hr hempty fun first r₁ hr₁ _ _ hfirst => ?_
  refine Course.ends_andThen (ends_accept hr₁) fun clauses r₂ hr₂ ⟨_, hvars₂⟩ _ => ?_
  cases clauses with
  | false =>
    simp only [Bool.false_eq_true, if_false]
    split
    · cases hfirst.mono hvars₂ with
      | expr _ hcond =>
        exact moved_pure hr₂ ⟨hempty, (fun e he => by cases he; exact hcond), hempty⟩
    · exact ends_refuse nofun hloc
  | true =>
    refine (ends_bind _ _).mpr (ends_ahead fun _ _ => ?_)
    refine ends_optional (takes_someExpression hend) hr₂ (fun _ h => nomatch h)
      fun cond r₃ hr₃ _ hvars₃ hcond => ?_
    refine Course.ends_andThen (ends_expect hend hr₃) fun _ r₄ hr₄ ⟨_, hvars₄⟩ _ => ?_
    refine (ends_bind _ _).mpr (ends_ahead fun _ _ => ?_)
    refine ends_optional (takes_simple hend) hr₄ hempty fun post r₅ hr₅ _ hvars₅ hpost => ?_
    have hle := hvars₄.trans hvars₅
    exact moved_pure hr₅ ⟨hfirst.mono (hvars₂.trans (hvars₃.trans hle)),
      fun e he => (hcond e he).mono hle, hpost⟩

theorem takes_loop (hend : EndsAtToken source tokens) (hbody : TakesStmts source tokens n body)
    {loc : Nat} (hloc : AtToken tokens loc) : TakesStmt source tokens n (loop body loc) := by
  intro r hr hn
  refine Course.ends_andThen (ends_loopHead hend hr hloc)
    fun ⟨init, cond, post⟩ r₁ hr₁ ⟨hrest₁, _⟩ ⟨hinit, hcond, hpost⟩ => ?_
  refine Course.ends_andThen (hbody r₁ hr₁ (by omega))
    fun ss r₂ hr₂ ⟨_, hvars₂⟩ ⟨hrest₂, hss⟩ => moved_pure hr₂ ⟨by omega, ?_⟩
  exact .loop trivial (hinit.mono hvars₂) (fun e he => (hcond e he).mono hvars₂)
    (hpost.mono hvars₂) hss

/-- A statement nests **no deeper than there are tokens**. -/
theorem takes_statementTo (hend : EndsAtToken source tokens) (depth : Nat) :
    TakesStmt source tokens depth (statementTo depth) := by
  induction depth with
  | zero => exact fun _ _ hlt => absurd hlt (Nat.not_lt_zero _)
  | succ depth ih =>
    have hbraced : TakesStmts source tokens (depth + 1) (braced (statementTo depth)) :=
      takes_braced hend ih
    intro r hr hn
    refine (ends_bind _ _).mpr (ends_here hend hr fun loc hloc _ => ?_)
    refine Course.ends_andThen (ends_accept hr) fun isReturn r₁ hr₁ ⟨hrest₁, _⟩ hreturn => ?_
    cases isReturn with
    | true =>
      have hreturn := hreturn rfl
      refine (ends_bind _ _).mpr (ends_atStatementEnd fun _ => ?_)
      refine ends_optional (takes_someExpression hend) hr₁ (fun _ h => nomatch h)
        fun value r₂ hr₂ hrest₂ _ hvalue => ?_
      refine Course.ends_andThen (ends_endStatement hend hr₂) fun _ r₃ hr₃ ⟨hrest₃, hvars₃⟩ _ => ?_
      exact moved_pure hr₃ ⟨by omega, .ret trivial fun e he => (hvalue e he).mono hvars₃⟩
    | false =>
    refine (ends_bind _ _).mpr (ends_ahead fun isBlock _ => ?_)
    cases isBlock with
    | true =>
      refine Course.ends_andThen (hbraced r₁ hr₁ (by omega)) fun ss r₂ hr₂ _ ⟨hrest₂, hss⟩ => ?_
      exact moved_pure hr₂ ⟨by omega, .block trivial hss⟩
    | false =>
    refine Course.ends_andThen (ends_accept hr₁) fun isBranch r₂ hr₂ ⟨hrest₂, _⟩ _ => ?_
    have hrest : r₂.rest.length ≤ r.rest.length := by omega
    have hthen {x : Parser Stmt} {r' : Reading} (hr' : r'.Placed source tokens)
        (hrest' : r'.rest.length ≤ r.rest.length) (hx : TakesStmt source tokens (depth + 1) x) :
        Ends x r' (Moved source tokens r' fun s r'' => r''.rest.length < r.rest.length ∧
          s.Placed tokens r''.vars.length) (StoppedAt source tokens) :=
      (hx r' hr' (by omega)).mono fun s r'' ⟨hr'', hl, hlt, hs⟩ => ⟨hr'', hl, by omega, hs⟩
    cases isBranch with
    | true => exact hthen hr₂ hrest (takes_branch hend hbraced hloc)
    | false =>
    refine Course.ends_andThen (ends_accept hr₂) fun isLoop r₃ hr₃ ⟨hrest₃, _⟩ _ => ?_
    cases isLoop with
    | true => exact hthen hr₃ (hrest₃.trans hrest) (takes_loop hend hbraced hloc)
    | false =>
    refine (ends_bind _ _).mpr (ends_ahead fun isDeclaration _ => ?_)
    cases isDeclaration with
    | true => exact hthen hr₃ (hrest₃.trans hrest) (takes_declaration hend)
    | false =>
    refine (ends_bind _ _).mpr (ends_aheadKind fun isPrinting => ?_)
    have hfinish (s : Stmt) (r₄ : Reading) (hr₄ : r₄.Placed source tokens)
        (hs : r₄.rest.length < r₃.rest.length ∧ s.Placed tokens r₄.vars.length) :
        Ends (do endStatement; return s) r₄ (Moved source tokens r₄ fun s r' =>
          r'.rest.length < r.rest.length ∧ s.Placed tokens r'.vars.length) (StoppedAt source tokens) := by
      obtain ⟨hrest₄, hs⟩ := hs
      refine Course.ends_andThen (ends_endStatement hend hr₄) fun _ r₅ hr₅ ⟨hrest₅, hvars₅⟩ _ => ?_
      exact moved_pure hr₅ ⟨by omega, hs.mono hvars₅⟩
    cases isPrinting with
    | true =>
      exact Course.ends_andThen (takes_printing hend r₃ hr₃ (Nat.lt_succ_self _))
        fun s r₄ hr₄ _ hs => hfinish s r₄ hr₄ hs
    | false =>
      exact Course.ends_andThen (takes_simple hend r₃ hr₃ (Nat.lt_succ_self _))
        fun s r₄ hr₄ _ hs => hfinish s r₄ hr₄ hs

theorem takes_block (hend : EndsAtToken source tokens) : TakesStmts source tokens n block := by
  intro r hr _
  unfold block bounded bound
  simp only [ends_bind, ends_get, ends_pure]
  exact takes_braced hend (takes_statementTo hend _) r hr (by omega)

end Nested

/-! ## Functions and the package -/

theorem takes_parameter (hend : EndsAtToken source tokens) :
    Takes source tokens n parameter fun _ _ => True := by
  intro r hr _
  refine Course.ends_andThen (takes_identifier hend r hr (Nat.lt_succ_self _))
    fun ⟨name, loc⟩ r₁ hr₁ _ ⟨hrest₁, _, hloc⟩ => ?_
  refine Course.ends_andThen (takes_type hend r₁ hr₁ (Nat.lt_succ_self _))
    fun ty r₂ hr₂ _ ⟨hrest₂, _⟩ => ?_
  dsimp only
  split
  · exact ends_refuse_bind nofun hloc
  · exact (ends_declare hr₂ name ty hloc).mono fun _ r₃ ⟨hr₃, hl, _⟩ =>
      ⟨hr₃, hl, by have := hl.1; omega, trivial⟩

/-- Opening or closing a function's scope leaves the tables placed. -/
theorem Reading.Placed.withScope (hr : r.Placed source tokens) {scope : Option (List VarId)}
    (hscope : scope.getD [] = []) : ({ r with scope := scope } : Reading).Placed source tokens where
  source := hr.source
  rest := hr.rest
  previous := hr.previous
  visible id hid := by
    rw [Reading.visible, hscope] at hid
    exact hr.visible id (List.mem_append_right _ hid)
  vars := hr.vars

theorem takes_function (hend : EndsAtToken source tokens) (taken : List String) :
    Takes source tokens n (function taken) fun f arena => f.Placed tokens arena := by
  intro r hr _
  refine Course.ends_andThen (ends_expect hend hr) fun loc r₁ hr₁ _ ⟨hrest₁, hloc⟩ => ?_
  refine Course.ends_andThen (takes_identifier hend r₁ hr₁ (Nat.lt_succ_self _))
    fun ⟨name, nameLoc⟩ r₂ hr₂ _ ⟨hrest₂, _, hnameLoc⟩ => ?_
  dsimp only
  split
  · exact ends_refuse_bind (by rintro ⟨⟩) hnameLoc
  refine Course.ends_andThen (c := places source tokens) (Q := fun _ r' => r'.rest = r₂.rest)
    ((ends_modify _).mpr ⟨hr₂.withScope rfl, ⟨le_rfl, le_rfl⟩, rfl⟩)
    fun _ r₃ hr₃ _ hrest₃ => ?_
  refine Course.ends_andThen (ends_expect hend hr₃) fun _ r₄ hr₄ _ ⟨hrest₄, _⟩ => ?_
  refine Course.ends_andThen (takes_listUntil hend ")" (P := fun _ _ => True) (fun _ h => h)
    (takes_parameter hend) r₄ hr₄ (Nat.lt_succ_self _)) fun params r₅ hr₅ _ ⟨hrest₅, _⟩ => ?_
  have hbody {r₆ : Reading} (hr₆ : r₆.Placed source tokens)
      (hrest₆ : r₆.rest.length ≤ r₅.rest.length) : Ends (do
      let body ← block
      let locals := (← get).scope.getD []
      modify fun r => { r with scope := none }
      return (⟨name, params, locals, body, 0, false, loc⟩ : Function)) r₆
      (Moved source tokens r₆ fun f r' => r'.rest.length < r.rest.length ∧
        f.Placed tokens r'.vars.length) (StoppedAt source tokens) := by
    refine Course.ends_andThen (takes_block hend r₆ hr₆ (Nat.lt_succ_self _))
      fun body r₇ hr₇ _ ⟨hrest₇, hss⟩ => ?_
    simp only [ends_bind, ends_get, ends_modify, ends_pure]
    rw [hrest₃] at hrest₄
    have hrest : r₇.rest.length < r.rest.length := by omega
    exact ⟨hr₇.withScope rfl, ⟨le_rfl, le_rfl⟩, hrest, hloc, hss⟩
  refine (ends_bind _ _).mpr (ends_typeAhead fun typed => ?_)
  cases typed with
  | false => exact hbody hr₅ le_rfl
  | true =>
    exact Course.ends_andThen (takes_type hend r₅ hr₅ (Nat.lt_succ_self _))
      fun _ r₆ hr₆ hleads _ => hbody hr₆ hleads.1

/-- What has been declared so far stands at tokens. -/
structure Declared.Placed (tokens : List Token) (arena : Nat) (d : Declared) : Prop where
  funcs : ∀ f ∈ d.funcs, f.Placed tokens arena
  inits : ∀ s ∈ d.inits, s.Placed tokens arena

theorem Declared.Placed.mono {d : Declared} {arena arena' : Nat} (h : d.Placed tokens arena)
    (hle : arena ≤ arena') : d.Placed tokens arena' :=
  ⟨fun f hf => (h.funcs f hf).mono hle, stmts_placed_mono h.inits hle⟩

theorem ends_packageRound (hend : EndsAtToken source tokens) (hr : r.Placed source tokens) {d : Declared}
    (hd : d.Placed tokens r.vars.length) :
    Ends (packageRound d) r (Moved source tokens r (RoundKept
      (fun d r' => r'.rest.length < r.rest.length ∧ d.Placed tokens r'.vars.length)
      fun d r' => d.Placed tokens r'.vars.length)) (StoppedAt source tokens) := by
  refine Course.ends_andThen (ends_accept hr) fun blank r₁ hr₁ ⟨hrest₁, hvars₁⟩ hblank => ?_
  cases blank with
  | true => exact moved_pure hr₁ ⟨hblank rfl, hd.mono hvars₁⟩
  | false =>
  refine (ends_bind _ _).mpr (ends_atEnd fun finished => ?_)
  cases finished with
  | true => exact moved_pure hr₁ (hd.mono hvars₁)
  | false =>
  refine (ends_bind _ _).mpr (ends_ahead fun isFunction _ => ?_)
  cases isFunction with
  | true =>
    refine Course.ends_andThen (takes_function hend _ r₁ hr₁ (Nat.lt_succ_self _))
      fun f r₂ hr₂ ⟨_, hvars₂⟩ ⟨hrest₂, hf⟩ => moved_pure hr₂ ⟨by omega, ?_⟩
    have hd₂ := hd.mono (hvars₁.trans hvars₂)
    exact ⟨forall_mem_concat (P := fun f arena => Function.Placed tokens arena f)
      (fun hle h => h.mono hle) le_rfl hd₂.funcs hf, hd₂.inits⟩
  | false =>
  refine (ends_bind _ _).mpr (ends_ahead fun isVariable _ => ?_)
  cases isVariable with
  | false => exact ends_unexpected hend hr₁
  | true =>
    refine Course.ends_andThen (takes_declaration hend r₁ hr₁ (Nat.lt_succ_self _))
      fun s r₂ hr₂ ⟨_, hvars₂⟩ ⟨hrest₂, hs⟩ => moved_pure hr₂ ⟨by omega, ?_⟩
    have hd₂ := hd.mono (hvars₁.trans hvars₂)
    split
    · exact hd₂
    · exact ⟨hd₂.funcs, forall_mem_concat (P := fun (s : Stmt) arena => s.Placed tokens arena)
        (fun hle h => h.mono hle) le_rfl hd₂.inits hs⟩

theorem ends_package (hend : EndsAtToken source tokens) (hr : r.Placed source tokens) :
    Ends package r (fun p _ => p.Placed tokens) (StoppedAt source tokens) := by
  refine (ends_bind _ _).mpr ((ends_expect hend hr).mono fun _ r₁ ⟨hr₁, _⟩ => ?_)
  refine (ends_bind _ _).mpr ((takes_identifier hend r₁ hr₁ (Nat.lt_succ_self _)).mono ?_)
  rintro ⟨name, _⟩ r₂ ⟨hr₂, -, -, hname, -⟩
  have hnone : Declared.Placed tokens r₂.vars.length ⟨[], []⟩ :=
    ⟨fun _ h => absurd h List.not_mem_nil, fun _ h => absurd h List.not_mem_nil⟩
  refine (ends_bind _ _).mpr ((ends_iterate (I := fun d r' => d.Placed tokens r'.vars.length) hr₂
    (fun d r₃ hr₃ _ _ hd => ends_packageRound hend hr₃ hd) hnone).mono ?_)
  rintro d r₃ ⟨hr₃, -, hd⟩
  simp only [ends_bind, ends_get, ends_pure]
  refine ⟨hname, hr₃.vars, List.forall_mem_cons.mpr ⟨⟨.inl rfl, fun s hs => ?_⟩, hd.funcs⟩⟩
  rcases List.mem_append.mp hs with hs | hs
  · exact hd.inits s hs
  · obtain rfl := List.mem_singleton.mp hs
    exact .ret trivial fun e he => by
      cases he
      exact .call (.inl rfl) fun _ harg => absurd harg List.not_mem_nil

theorem Reading.placed_start (source : List Char) {tokens tokens' : List Token}
    (h : ∀ t ∈ tokens, t ∈ tokens') : (Reading.start source tokens).Placed source tokens' where
  source := rfl
  rest := h
  previous _ h := by cases h
  visible _ h := by cases h
  vars _ h := by cases h

end Grammar

section Programs

variable {source : List Char} {tokens : List Token}

/-- Reading **stops at one of these tokens**, or where there is no place, if they are among them all that
it is given. -/
theorem errs_ofTokens {tokens' : List Token} (hend : EndsAtToken source tokens')
    (h : ∀ t ∈ tokens, t ∈ tokens') :
    Errs (Program.ofTokens source tokens) (StoppedAt source tokens') := by
  have hstops := Grammar.ends_package hend (Grammar.Reading.placed_start source h)
  exact (errs_bind _ _ _).mpr ⟨hstops.2.run, fun _ _ => errs_pure _ _⟩

theorem Covers.ends_ofTokens (hc : Covers source tokens) :
    Ends Grammar.package (.start source tokens) (fun p _ => p.Placed tokens)
      (StoppedAt source tokens) :=
  Grammar.ends_package hc.endsAtToken (Grammar.Reading.placed_start source fun _ ht => ht)

/-- **A program that is read stands at the tokens.** -/
theorem Covers.placed (hc : Covers source tokens) {p : Program}
    (h : Program.ofTokens source tokens = .ok p) : p.Placed tokens := by
  obtain ⟨⟨read, r⟩, hrun, h⟩ := bind_eq_ok_iff.mp h
  cases h
  exact hc.ends_ofTokens.1 read r hrun

/-- **Reading stops at a token**, unless the source is longer than places are counted. -/
theorem Covers.stoppedAt (hc : Covers source tokens) {failure : Failure}
    (h : Program.ofTokens source tokens = .error failure) :
    RefusedAt tokens failure ∨ Grammar.placeLimit ≤ Text.byteLength source :=
  (errs_ofTokens hc.endsAtToken (fun _ ht => ht) failure h).imp_right
    fun ⟨_, hstrays⟩ => hc.limit_le_of_strays hstrays

end Programs

end StackCompiler
