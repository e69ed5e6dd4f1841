import StackCompiler.Proofs.Grammar.Derivations

/-!
# Proofs/Grammar/Trees — a program is all that its tokens were read as

The parsers of declarations, statements and packages derive what they come to, like those of
expressions.  So a program **comes from its tokens in steps** that are followed one by one
(`Program.exists_derives`), and a declaration is read in the steps of `Declaring`.
-/

namespace StackCompiler

/-- The expression of a statement that may still be read as **no statement**, but as a condition. -/
def Stmt.looseExprs : Stmt → List Expr
  | .expr value => [value]
  | _ => []

/-- The statement, unless it may still be read as a condition. -/
def Stmt.looseStmts : Stmt → List Stmt
  | .expr _ => []
  | s => [s]

namespace Grammar

section Walk

variable {α β : Type} {r r' : Reading} {Q : α → Reading → Prop}

/-! ## Declarations -/

theorem passes_endStatement : Passes endStatement := fun _ =>
  derives_accept_bind (by decide) (fun _ h => (ensures_pure _ _ _).mpr h) <|
    ensures_ahead_bind fun brace => ensures_bind_of_run (run_atEnd _) <| by
      split
      · exact (ensures_pure _ _ _).mpr .nil
      · exact (passes_expect (by decide)).bind fun _ _ h => (ensures_pure _ _ _).mpr h

theorem passes_endDeclaration (init : Initial) : Passes (endDeclaration init) := by
  intro r
  cases init with
  | zero | value => exact passes_endStatement r
  | elements =>
    refine passes_atLineStart.bind fun broken r₁ h => ?_
    split
    · exact (ensures_pure _ _ _).mpr h
    · exact (passes_endStatement r₁).mono fun _ _ h' => h'.after h

theorem traces_initial : Traces initial Initial.exprs fun _ => [] := by
  intro r
  refine derives_accept_bind (by decide) (fun r₁ h => ?_) ((ensures_pure _ _ _).mpr .nil)
  refine derives_accept_bind (by decide) (fun r₂ h' => ?_) ?_
  · exact (traces_exprsUntil (by decide) traces_expression).bind fun es r₃ hes =>
      (ensures_pure _ _ _).mpr (hes.after (h.append h'))
  · exact traces_expression.bind fun e r₃ he => (ensures_pure _ _ _).mpr (he.after h)

/-- What follows the name and the type of a declaration, and comes to **what the whole comes to**. -/
theorem ensures_declarationRest {r named typed : Reading} {keyword name : Token} {ty : Ty}
    (hrest : r.rest = keyword :: name :: named.rest) (hvar : keyword.is "var" = true)
    (hkind : name.kind = .ident) (hsame : r.SameTables named)
    (hwritten : type.run named = .ok (ty, typed) ∨
      ty = .unknown ∧ typed = named ∧ typeAhead.run named = .ok (false, named)) :
    Ensures (do
      let init ← initial
      endDeclaration init
      if let (.unknown, .zero) := (ty, init) then refuse (.typeOrInitializerMissing name.text) name.loc
      let isGlobal := (← get).scope.isNone
      let id ← declare name.text ty name.loc
      initialAssignment id ty isGlobal name.loc init) typed fun s r' =>
      declaration.run r = .ok (s, r') →
        ∃ d : Declaring r s r', Derives d.named d.init.exprs [] d.ended := by
  refine ensures_bind_run fun init begun hinit => ensures_bind_run fun _ ended hend => ?_
  have hdeclare : Ensures (do
      let isGlobal := (← get).scope.isNone
      let id ← declare name.text ty name.loc
      initialAssignment id ty isGlobal name.loc init) ended fun s r' =>
      declaration.run r = .ok (s, r') →
        ∃ d : Declaring r s r', Derives d.named d.init.exprs [] d.ended := by
    refine ensures_bind_of_run (StateT.run_get ended) ?_
    refine (ensures_bind _ _ _ _).mpr ((ensures_declare name.text ty name.loc ended).mono ?_)
    rintro _ _ ⟨rfl, rfl⟩ s r' hassign hrun
    refine ⟨⟨keyword, name, named, ty, typed, init, begun, ended, hrun, hrest, hvar, hkind, hsame,
      hwritten, hinit, hend, hassign⟩, ?_⟩
    have htype : Derives named [] [] typed := by
      rcases hwritten with htype | ⟨-, rfl, -⟩
      · exact passes_type named ty typed htype
      · exact .nil
    exact ((traces_initial typed init begun hinit).after htype).passing
      (passes_endDeclaration init begun () ended hend)
  dsimp only
  split
  · exact ensures_refuse_bind _ _ _ _
  · exact hdeclare

/-- **Every declaration is read in its steps**, and what it starts with is read on the way. -/
theorem ensures_declaration (r : Reading) : Ensures declaration r fun s r' =>
    ∃ d : Declaring r s r', Derives d.named d.init.exprs [] d.ended := by
  have hwalk : Ensures declaration r fun s r' => declaration.run r = .ok (s, r') →
      ∃ d : Declaring r s r', Derives d.named d.init.exprs [] d.ended := by
    refine (ensures_bind _ _ _ _).mpr ((ensures_expected "var" r).mono ?_)
    rintro _ begun ⟨keyword, hkeyword, hvar, hsame⟩
    refine (ensures_bind _ _ _ _).mpr ((ensures_named begun).mono ?_)
    rintro _ named ⟨name, hname, hkind, rfl, hsame'⟩
    have hboth : r.SameTables named := ⟨hsame'.vars.trans hsame.vars,
      hsame'.globals.trans hsame.globals, hsame'.strings.trans hsame.strings,
      hsame'.scope.trans hsame.scope⟩
    rw [hname] at hkeyword
    obtain ⟨found, hfound⟩ : ∃ found, typeAhead.run named = .ok (found, named) := ⟨_, rfl⟩
    refine ensures_bind_of_run hfound ?_
    cases found with
    | true =>
      exact ensures_bind_run fun ty typed htype =>
        ensures_declarationRest hkeyword hvar hkind hboth (.inl htype)
    | false =>
      exact ensures_declarationRest hkeyword hvar hkind hboth (.inr ⟨rfl, rfl, hfound⟩)
  exact fun s r' hrun => hwalk s r' hrun hrun

/-! ### What a declaration comes to -/

/-- The element of that number, with the place of the value that it starts with. -/
def elementAt (target : Expr) (value : Expr × Nat) : Expr :=
  .index target (.num (Int64.ofNat value.2) .unknown value.1.loc) .unknown value.1.loc

/-- What a variable that has just been declared is assigned, from the tables that it stands in. -/
inductive Initial.Assigns (target : Expr) (ty : Ty) (loc : Nat) (r : Reading) :
    Initial → Stmt → Reading → Prop
  | value (e : Expr) : Assigns target ty loc r (.value e) (.assign [target] [e] loc) r
  | elements {es : List Expr} (hty : ty.isArray = true) (hne : es ≠ [])
      (hbounds : ∀ value ∈ es.zipIdx, (elementAt target value).BoundsRule r.vars) :
      Assigns target ty loc r (.elements es) (.assign (es.zipIdx.map (elementAt target)) es loc) r
  | noElements (hty : ty.isArray = true) : Assigns target ty loc r (.elements []) .empty r
  | zeroed (h : r.scope = none ∨ ty.isArray = true) : Assigns target ty loc r .zero .empty r
  | blank (hscope : r.scope ≠ none) (hty : ty.isString = true) :
      Assigns target ty loc r .zero (.assign [target] [.str (r.strings.idxOf "") .unknown loc] loc)
        { r with strings := interned r.strings "" }
  | number (hty : ty.isString = false) :
      Assigns target ty loc r .zero (.assign [target] [.num 0 ty loc] loc) r

theorem Initial.Assigns.rest_eq {target : Expr} {ty : Ty} {loc : Nat} {init : Initial} {s : Stmt}
    (h : init.Assigns target ty loc r s r') : r'.rest = r.rest := by
  cases h <;> rfl

theorem Initial.Assigns.vars_eq {target : Expr} {ty : Ty} {loc : Nat} {init : Initial} {s : Stmt}
    (h : init.Assigns target ty loc r s r') : r'.vars = r.vars := by
  cases h <;> rfl

theorem ensures_elementwise (target : Expr) (values : List (Expr × Nat)) (r : Reading) :
    Ensures (values.mapM fun (element, i) =>
      indexed target (.num (Int64.ofNat i) .unknown element.loc) element.loc) r fun targets r' =>
      r' = r ∧ targets = values.map (elementAt target) ∧
        ∀ value ∈ values, (elementAt target value).BoundsRule r.vars := by
  induction values with
  | nil => exact (ensures_pure _ _ _).mpr ⟨rfl, rfl, nofun⟩
  | cons value values ih =>
    rw [List.mapM_cons]
    refine (ensures_bind _ _ _ _).mpr ((ensures_indexed _ _ _ r).mono ?_)
    rintro _ r₁ ⟨rfl, rfl, hvalue⟩
    refine (ensures_bind _ _ _ _).mpr (ih.mono ?_)
    rintro _ r₂ ⟨rfl, rfl, hvalues⟩
    exact (ensures_pure _ _ _).mpr ⟨rfl, rfl, List.forall_mem_cons.mpr ⟨hvalue, hvalues⟩⟩

theorem ensures_initialAssignment (id : VarId) (ty : Ty) (loc : Nat) (init : Initial) (r : Reading) :
    Ensures (initialAssignment id ty r.scope.isNone loc init) r
      (init.Assigns (.var id .unknown loc) ty loc r) := by
  cases init with
  | value e => exact (ensures_pure _ _ _).mpr (.value e)
  | elements es =>
    dsimp only [initialAssignment]
    split
    next hty =>
      unfold elementwise
      cases es with
      | nil => exact (ensures_pure _ _ _).mpr (.noElements hty)
      | cons e es =>
        refine (ensures_bind _ _ _ _).mpr ((ensures_elementwise _ _ r).mono ?_)
        rintro _ _ ⟨rfl, rfl, hbounds⟩
        exact (ensures_pure _ _ _).mpr (.elements hty (List.cons_ne_nil _ _) hbounds)
    · exact ensures_refuse _ _ _
  | zero =>
    dsimp only [initialAssignment]
    split
    next hnone =>
      rw [Bool.or_eq_true, Option.isNone_iff_eq_none] at hnone
      exact (ensures_pure _ _ _).mpr (.zeroed hnone)
    next hsome =>
      rw [Bool.or_eq_true, Option.isNone_iff_eq_none, not_or] at hsome
      unfold zeroValue
      split
      next hty =>
        rw [bind_assoc]
        refine ensures_bind_of_run (run_intern _ _) ?_
        exact ensures_bind_of_run (x := pure _) rfl ((ensures_pure _ _ _).mpr (.blank hsome.1 hty))
      next hty =>
        exact ensures_bind_of_run (x := pure _) rfl
          ((ensures_pure _ _ _).mpr (.number (Bool.eq_false_iff.mpr hty)))

namespace Declaring

variable {s : Stmt} (d : Declaring r s r')

/-- The variable that is declared. -/
def added : Variable :=
  ⟨d.name.text, 0, d.ended.scope.isSome, d.ty, d.name.loc, false⟩

/-- The variable as a target. -/
def target : Expr :=
  .var d.ended.vars.length .unknown d.name.loc

/-- The tables in which the variable is declared. -/
def tables : Reading :=
  (d.ended.addVariable d.name.text d.ty d.name.loc false).listed d.ended.vars.length

theorem tables_rest : d.tables.rest = d.ended.rest :=
  Reading.listed_rest _ _

theorem tables_strings : d.tables.strings = d.ended.strings :=
  Reading.listed_strings _ _

theorem tables_vars : d.tables.vars = d.ended.vars ++ [d.added] :=
  Reading.listed_vars _ _

theorem isNone_scope : d.tables.scope.isNone = d.ended.scope.isNone := by
  cases hscope : d.ended.scope <;> simp [tables, Reading.listed, Reading.addVariable, hscope]

theorem isLocal_added : d.added.isLocal = d.tables.scope.isSome := by
  cases hscope : d.ended.scope <;> simp [added, tables, Reading.listed, Reading.addVariable, hscope]

/-- **What a declaration assigns** is said by what it starts with. -/
theorem assigns : d.init.Assigns d.target d.ty d.name.loc d.tables s r' := by
  have hrun := d.assign_eq
  rw [← d.isNone_scope] at hrun
  exact ensures_initialAssignment _ _ _ _ _ _ _ hrun

theorem rest_after : r'.rest = d.ended.rest :=
  d.assigns.rest_eq.trans d.tables_rest

theorem vars_after : r'.vars = d.ended.vars ++ [d.added] :=
  d.assigns.vars_eq.trans d.tables_vars

end Declaring

/-- The parser makes a statement. -/
abbrev TracesStmt (x : Parser Stmt) : Prop :=
  Traces x (fun _ => []) fun s => [s]

theorem traces_declaration : TracesStmt declaration := fun r =>
  (ensures_declaration r).mono fun _ _ ⟨d, h⟩ => .declared d h

/-! ## Simple statements -/

/-- What may still be a condition is **a statement after all**. -/
theorem Derives.ofLoose {s : Stmt} (h : Derives r s.looseExprs s.looseStmts r') :
    Derives r [] [s] r' := by
  cases s with
  | expr => exact .stmt h
  | _ => exact h

theorem Derives.ofStmt {s : Stmt} (h : Derives r [] [s] r') (hs : ∀ value, s ≠ .expr value) :
    Derives r s.looseExprs s.looseStmts r' := by
  cases s with
  | expr value => exact absurd rfl (hs value)
  | _ => exact h

theorem traces_mapM {f : β → Parser α} {es : α → List Expr} {ss : α → List Stmt}
    (h : ∀ b, Traces (f b) es ss) (bs : List β) :
    Traces (bs.mapM f) (fun as => as.flatMap es) fun as => as.flatMap ss := by
  intro r
  induction bs generalizing r with
  | nil => exact (ensures_pure _ _ _).mpr .nil
  | cons b bs ih =>
    rw [List.mapM_cons]
    refine (h b).bind fun a r₁ ha => (ensures_bind _ _ _ _).mpr ((ih r₁).mono fun as r₂ has => ?_)
    exact (ensures_pure _ _ _).mpr (ha.append has)

theorem passes_forM {f : β → Parser Unit} (h : ∀ b, Passes (f b)) (bs : List β) :
    Passes (bs.forM f) := by
  intro r
  induction bs generalizing r with
  | nil => exact (ensures_pure _ _ _).mpr .nil
  | cons b bs ih =>
    exact (h b).bind fun _ r₁ hb => (ih r₁).mono fun _ _ hbs => hbs.after hb

/-- The parser makes a statement, which may still be a condition **if it is an expression**. -/
abbrev TracesLoose (x : Parser Stmt) : Prop :=
  Traces x Stmt.looseExprs Stmt.looseStmts

/-- An assignment of **all that it has** on both sides. -/
theorem Derives.assign {targets values : List Expr} (h : Derives r (targets ++ values) [] r')
    (loc : Nat) : Derives r (Stmt.assign targets values loc).looseExprs
      (Stmt.assign targets values loc).looseStmts r' :=
  (Derives.stmt (s := .assign targets values loc) h).ofStmt nofun

/-- A name on the left of a short declaration **is declared where it is read**. -/
theorem traces_target (name : String × Nat) :
    TracesExpr (do return .var (← declare name.1 .unknown name.2) .unknown name.2) := fun _ =>
  (derives_declare rfl name.2).bind fun _ _ h =>
    (ensures_pure _ _ _).mpr ((Derives.var _ _ _ _).after h)

theorem traces_shortDeclaration : TracesLoose shortDeclaration := by
  intro r
  refine (passes_commaList passes_identifier).bind fun names r₁ hnames => ?_
  refine (passes_expect (by decide)).bind fun loc r₂ hloc => ?_
  refine (traces_exprList traces_expression).bind fun values r₃ hvalues => ?_
  refine (traces_exprs (traces_mapM traces_target names)).bind fun targets r₄ htargets => ?_
  have hall := (hvalues.after (hnames.append hloc)).append htargets
  exact (ensures_pure _ _ _).mpr (.assign (hall.perm List.perm_append_comm .nil) loc)

theorem passes_checkTarget (target : Expr) : Passes (checkTarget target) := by
  have hplace (r : Reading) : Ensures
      (if (!target.isLvalue) = true then refuse .notAssignable target.loc else pure ()) r
      fun _ r' => Derives r [] [] r' := by
    split
    · exact ensures_refuse _ _ _
    · exact (ensures_pure _ _ _).mpr .nil
  intro r
  cases target with
  | var id ty loc =>
    refine (ensures_bind _ _ _ _).mpr ((ensures_variableOf id r).mono ?_)
    rintro v _ ⟨rfl, -⟩
    split
    · exact ensures_refuse_bind _ _ _ _
    · exact hplace _
  | _ => exact hplace r

theorem traces_assignmentOrExpression : TracesLoose assignmentOrExpression := by
  intro r
  refine (traces_exprList traces_expression).bind fun targets r₁ htargets => ?_
  refine ensures_ahead_bind fun assigned => ?_
  cases assigned with
  | true =>
    refine (passes_expect (by decide)).bind fun loc r₂ hloc => ?_
    refine (passes_forM passes_checkTarget targets).bind fun _ r₃ hchecked => ?_
    refine (traces_exprList traces_expression).bind fun values r₄ hvalues => ?_
    have hall := (htargets.passing (hloc.append hchecked)).append hvalues
    exact (ensures_pure _ _ _).mpr (.assign hall loc)
  | false =>
    simp only [Bool.false_eq_true, if_false]
    split
    · exact (ensures_pure _ _ _).mpr htargets
    · exact ensures_unexpected _

theorem traces_simple : TracesLoose simple := by
  intro r
  refine ensures_bind_of_run (StateT.run_get r) ?_
  split
  · exact traces_shortDeclaration r
  · exact traces_assignmentOrExpression r

/-- A printing statement is the name of its printer **with values in parentheses behind it**. -/
theorem ensures_printing {Q : Stmt → Reading → Prop}
    (h : ∀ (printer : Printer) (t : Token) (rest : List Token), r.rest = t :: rest → Ensures (do
      advance
      let _ ← expect "("
      return Stmt.print printer (← listUntil ")" expression) r.stop) r Q) :
    Ensures printing r Q := by
  refine ensures_here_bind (ensures_peek_bind ?_)
  split
  · exact ensures_refuse _ _ _
  next printer hprinter =>
  obtain ⟨t, ht, -⟩ := Option.bind_eq_some_iff.mp hprinter
  obtain ⟨rest, hr⟩ := List.head?_eq_some_iff.mp ht
  exact h printer t rest hr

/-- A printing statement begins with **a name of the library**. -/
theorem derives_printing (hkind : ∀ t ∈ r.rest.head?, t.kind = .stdlib) :
    Ensures printing r fun s r' => Derives r [] [s] r' := by
  refine ensures_printing fun printer t rest hr => ?_
  have hstdlib := hkind t (by rw [hr]; rfl)
  have hcommon : t.IsCommon := Token.isCommon_of_kind (hstdlib ▸ nofun) (hstdlib ▸ nofun)
  refine ensures_bind_of_run (run_advance hr) ?_
  refine (passes_expect (by decide)).bind fun _ r₂ hopen => ?_
  refine (traces_exprsUntil (by decide) traces_expression).bind fun args r₃ hargs => ?_
  exact (ensures_pure _ _ _).mpr (.stmt (hargs.after ((Derives.taken hr hcommon).append hopen)))

/-! ## Statements that hold others -/

variable {statement : Parser Stmt} {body : Parser (List Stmt)}

/-- The parser makes a list of statements. -/
abbrev TracesStmts (x : Parser (List Stmt)) : Prop :=
  Traces x (fun _ => []) fun ss => ss

theorem traces_braced (hstatement : TracesStmt statement) : TracesStmts (braced statement) := by
  intro r
  refine (passes_expect (by decide)).bind fun _ r₁ hopen => ?_
  refine ensures_iterate (I := fun ss r' => Derives r [] ss r') (fun ss r₂ hss => ?_) hopen
  refine derives_accept_bind (by decide)
    (fun r₃ h => (ensures_pure _ _ _).mpr (hss.passing h)) ?_
  refine derives_accept_bind (by decide)
    (fun r₃ h => (ensures_pure _ _ _).mpr (hss.passing h)) ?_
  exact hstatement.bind fun s r₃ hs => (ensures_pure _ _ _).mpr (hss.append hs)

theorem Derives.empty (r : Reading) : Derives r [] [.empty] r :=
  .stmt (s := .empty) .nil

/-- What comes before a condition, and the condition. -/
theorem traces_branchHead (loc : Nat) :
    Traces (branchHead loc) (fun head => [head.2]) fun head => [head.1] := by
  intro r
  refine traces_simple.bind fun first r₁ hfirst => ?_
  refine derives_accept_bind (by decide) (fun r₂ h => ?_) ?_
  · exact traces_expression.bind fun cond r₃ hcond =>
      (ensures_pure _ _ _).mpr (hfirst.ofLoose.append (hcond.after h))
  · simp only [Bool.false_eq_true, if_false]
    split
    · exact (ensures_pure _ _ _).mpr (Derives.append hfirst (.empty r₁))
    · exact ensures_refuse _ _ _

theorem traces_branchTo (hbody : TracesStmts body) (depth : Nat) :
    ∀ loc, TracesStmt (branchTo body loc depth) := by
  induction depth with
  | zero => exact fun _ r => ensures_broken _ r
  | succ depth ih =>
    intro loc r
    refine (traces_branchHead loc).bind fun ⟨init, cond⟩ r₁ hhead => hbody.bind fun ss r₂ hss => ?_
    have hbranch {otherwise : Stmt} {r₃ : Reading} (h : Derives r₂ [] [otherwise] r₃) :
        Derives r [] [.branch init cond ss otherwise] r₃ := .stmt (hhead.append (hss.append h))
    refine derives_accept_bind (by decide) (fun r₃ helse => ?_)
      ((ensures_pure _ _ _).mpr (hbranch (.empty r₂)))
    refine ensures_here_bind (derives_accept_bind (by decide) (fun r₄ hif => ?_) ?_)
    · exact (ih r₃.stop).bind fun otherwise r₅ h =>
        (ensures_pure _ _ _).mpr (hbranch (h.after (helse.append hif)))
    · exact hbody.bind fun other r₄ h =>
        (ensures_pure _ _ _).mpr (hbranch ((Derives.stmt (s := .block other) h).after helse))

theorem traces_branch (hbody : TracesStmts body) (loc : Nat) : TracesStmt (branch body loc) :=
  passes_bounded fun depth => traces_branchTo hbody depth loc

/-- A part that may be left out, and **what stands for it then**. -/
theorem traces_optional {absent : Bool} {x : Parser β} {b : β} {f : β → Parser α} {es : β → List Expr}
    {ss : β → List Stmt} (hx : Traces x es ss) (hb : ∀ r, Derives r (es b) (ss b) r)
    (hf : ∀ b r', Derives r (es b) (ss b) r' → Ensures (f b) r' Q) :
    Ensures (if absent = true then pure b >>= f else x >>= f) r Q := by
  cases absent with
  | true => exact ensures_bind_of_run (x := pure b) rfl (hf b r (hb r))
  | false => exact hx.bind hf

theorem traces_someExpression :
    Traces (some <$> expression) (fun value => value.toList) fun _ => [] := fun r =>
  (ensures_map _ _ _ _).mpr (traces_expression r)

theorem traces_loopHead (loc : Nat) :
    Traces (loopHead loc) (fun head => head.2.1.toList) fun head => [head.1, head.2.2] := by
  have hempty (r : Reading) : Derives r [] [.empty, .empty] r := (Derives.empty r).append (.empty r)
  intro r
  refine ensures_ahead_bind fun endless => ?_
  cases endless with
  | true => exact (ensures_pure _ _ _).mpr (hempty r)
  | false =>
    refine ensures_ahead_bind fun _ => ?_
    refine traces_optional traces_simple Derives.empty fun first r₁ hfirst => ?_
    refine derives_accept_bind (by decide) (fun r₂ h => ?_) ?_
    · refine ensures_ahead_bind fun _ => ?_
      refine traces_optional traces_someExpression (fun _ => .nil) fun cond r₃ hcond => ?_
      refine (passes_expect (by decide)).bind fun _ r₄ h' => ensures_ahead_bind fun _ => ?_
      refine traces_optional traces_simple Derives.empty fun post r₅ hpost => ?_
      have hclauses := (hfirst.ofLoose.passing h).append ((hcond.passing h').append hpost.ofLoose)
      exact (ensures_pure _ _ _).mpr (hclauses.perm (by simp) .rfl)
    · simp only [Bool.false_eq_true, if_false]
      split
      · exact (ensures_pure _ _ _).mpr (Derives.append hfirst (hempty r₁))
      · exact ensures_refuse _ _ _

theorem traces_loop (hbody : TracesStmts body) (loc : Nat) : TracesStmt (loop body loc) := by
  intro r
  refine (traces_loopHead loc).bind fun ⟨init, cond, post⟩ r₁ hhead => hbody.bind fun ss r₂ hss => ?_
  have hall := hhead.append hss
  rw [List.append_nil] at hall
  exact (ensures_pure _ _ _).mpr (.stmt hall)

theorem traces_statementTo (depth : Nat) : TracesStmt (statementTo depth) := by
  induction depth with
  | zero => exact fun r => ensures_broken _ r
  | succ depth ih =>
    have hbraced : TracesStmts (braced (statementTo depth)) := traces_braced ih
    intro r
    refine ensures_here_bind (derives_accept_bind (by decide) (fun r₁ hreturn => ?_) ?_)
    · refine ensures_bind_of_run (x := atStatementEnd) rfl ?_
      refine traces_optional traces_someExpression (fun _ => .nil) fun value r₂ hvalue => ?_
      refine passes_endStatement.bind fun _ r₃ hend => (ensures_pure _ _ _).mpr (.stmt ?_)
      exact (hvalue.after hreturn).passing hend
    refine ensures_ahead_bind fun isBlock => ?_
    cases isBlock with
    | true => exact hbraced.bind fun ss r₁ hss => (ensures_pure _ _ _).mpr (.stmt (s := .block ss) hss)
    | false =>
    refine derives_accept_bind (by decide) (fun r₁ hif => ?_) ?_
    · exact (traces_branch hbraced r.stop r₁).mono fun _ _ h => h.after hif
    refine derives_accept_bind (by decide) (fun r₁ hfor => ?_) ?_
    · exact (traces_loop hbraced r.stop r₁).mono fun _ _ h => h.after hfor
    refine ensures_ahead_bind fun isDeclaration => ?_
    cases isDeclaration with
    | true => exact traces_declaration r
    | false =>
    have hend {s : Stmt} {r₁ : Reading} (hs : Derives r [] [s] r₁) :
        Ensures (do endStatement; return s) r₁ fun s r' => Derives r [] [s] r' :=
      passes_endStatement.bind fun _ r₂ h => (ensures_pure _ _ _).mpr (hs.passing h)
    refine ensures_bind_of_run (x := aheadKind .stdlib) rfl ?_
    split
    next hstdlib =>
      refine (ensures_bind _ _ _ _).mpr ((derives_printing fun t ht => ?_).mono fun s r₁ => hend)
      rw [Option.mem_def.mp ht] at hstdlib
      exact beq_iff_eq.mp hstdlib
    · exact traces_simple.bind fun s r₁ hs => hend hs.ofLoose

theorem traces_block : TracesStmts block :=
  passes_bounded fun depth => traces_braced (traces_statementTo depth)

/-! ## Packages -/

theorem passes_parameter : Passes parameter := by
  intro r
  refine passes_identifier.bind fun ⟨name, loc⟩ r₁ hname => passes_type.bind fun ty r₂ hty => ?_
  dsimp only
  split
  · exact ensures_refuse_bind _ _ _ _
  next harray =>
  exact (derives_declare (Bool.eq_false_iff.mpr harray) loc r₂).mono fun _ _ h =>
    h.after (hname.append hty)

/-- A function is made of **the statements of its body**. -/
theorem traces_function (taken : List String) :
    Traces (function taken) (fun _ => []) fun f => f.body := by
  intro r
  refine (passes_expect (by decide)).bind fun loc r₁ hfunc => ?_
  refine passes_identifier.bind fun ⟨name, nameLoc⟩ r₂ hname => ?_
  dsimp only
  split
  · exact ensures_refuse_bind _ _ _ _
  have hhead := hfunc.append hname
  have hscope (r : Reading) (scope : Option (List VarId)) : Derives r [] [] { r with scope := scope } :=
    .named rfl rfl List.prefix_rfl fun id v hle hv =>
      absurd (List.getElem?_eq_some_iff.mp hv).1 hle.not_gt
  refine ensures_bind_of_run (StateT.run_modify _ _) ?_
  refine (passes_expect (by decide)).bind fun _ r₃ hopen => ?_
  refine (passes_listUntil (by decide) passes_parameter).bind fun params r₄ hparams => ?_
  have hparams := hhead.append ((hscope r₂ (some [])).append (hopen.append hparams))
  have hbody {r₅ : Reading} (htype : Derives r₄ [] [] r₅) : Ensures (do
      let body ← block
      let locals := (← get).scope.getD []
      modify fun r => { r with scope := none }
      return (⟨name, params, locals, body, 0, false, loc⟩ : Function)) r₅ fun f r' =>
        Derives r [] f.body r' := by
    refine traces_block.bind fun body r₆ hbody => ensures_bind_of_run (StateT.run_get r₆) ?_
    refine ensures_bind_of_run (StateT.run_modify _ _) ((ensures_pure _ _ _).mpr ?_)
    exact (hbody.after (hparams.append htype)).passing (hscope r₆ none)
  refine passes_typeAhead_bind fun found => ?_
  cases found with
  | true => exact passes_type.bind fun _ r₅ htype => hbody htype
  | false => exact hbody .nil

/-- The statements of what a package has declared. -/
def Declared.stmts (d : Declared) : List Stmt :=
  d.inits ++ d.funcs.flatMap (·.body)

theorem derives_packageRound {d : Declared} {r₀ : Reading} (h : Derives r₀ [] d.stmts r) :
    Ensures (packageRound d) r (RoundKept (fun d r' => Derives r₀ [] d.stmts r')
      fun d r' => Derives r₀ [] d.stmts r' ∧ r'.rest.head?.all (·.kind == .eof) = true) := by
  refine derives_accept_bind (by decide)
    (fun r₁ h' => (ensures_pure _ _ _).mpr (h.passing h')) ?_
  refine ensures_bind_of_run (run_atEnd r) ?_
  split
  next hend => exact (ensures_pure _ _ _).mpr ⟨h, hend⟩
  refine ensures_ahead_bind fun isFunction => ?_
  cases isFunction with
  | true =>
    refine (traces_function _).bind fun f r₁ hf => (ensures_pure _ _ _).mpr ?_
    have hall := h.append hf
    simpa [RoundKept, Declared.stmts] using hall
  | false =>
  refine ensures_ahead_bind fun isDeclaration => ?_
  cases isDeclaration with
  | true =>
    refine traces_declaration.bind fun init r₁ hinit => (ensures_pure _ _ _).mpr ?_
    have hall := (h.append hinit).perm (.refl _) List.perm_append_comm
    cases hempty : init.isEmpty with
    | true =>
      obtain rfl : init = .empty := by
        cases init with
        | empty => rfl
        | _ => cases hempty
      exact hall.dropped
    | false =>
      have hinits : (init :: d.inits).Perm (d.inits ++ [init]) := (List.perm_append_singleton _ _).symm
      exact hall.perm (.refl _) (hinits.append_right _)
  | false => exact ensures_unexpected _

/-- A package is made of **the statements of its functions**, and read to its end. -/
theorem ensures_derives_package (r : Reading) : Ensures package r fun p r' =>
    Derives r [] (p.funcs.flatMap (·.body)) r' ∧ r'.rest.head?.all (·.kind == .eof) = true ∧
      p.vars = r'.vars ∧ p.strings = r'.strings := by
  refine (passes_expect (by decide)).bind fun _ r₁ hpackage => ?_
  refine passes_identifier.bind fun ⟨name, loc⟩ r₂ hname => (ensures_bind _ _ _ _).mpr ?_
  have hstart : Derives r [] (Declared.mk [] []).stmts r₂ := hpackage.append hname
  refine (ensures_iterate (fun d r h => derives_packageRound h) hstart).mono fun d r₃ ⟨h, hend⟩ => ?_
  refine ensures_bind_of_run (StateT.run_get r₃) ((ensures_pure _ _ _).mpr ⟨?_, hend, rfl, rfl⟩)
  -- the implicit function returns a call behind the initial assignments
  have hreturn : Derives r₃ [] [.ret (some (.call mainName [] .unknown 0)) 0] r₃ :=
    .stmt (s := .ret (some (.call mainName [] .unknown 0)) 0) (.plain .nil rfl nofun)
  refine (h.append hreturn).perm (.refl _) ?_
  simp only [Declared.stmts, implicitFunction, List.flatMap_cons, List.append_assoc]
  exact List.perm_append_comm.append_left _

end Walk

end Grammar

/-- **What a program is made of**: its statements are all that its tokens were read as. -/
theorem Program.exists_derives {source : List Char} {tokens : List Token} {p : Program}
    (h : Program.ofTokens source tokens = .ok p) : ∃ last : Grammar.Reading,
      Grammar.Derives (.start source tokens) [] (p.funcs.flatMap (·.body)) last ∧
        last.rest.head?.all (·.kind == .eof) = true ∧ p.vars = last.vars ∧
          p.strings = last.strings := by
  obtain ⟨⟨p', last⟩, hrun, hp⟩ := bind_eq_ok_iff.mp h
  obtain rfl : p' = p := Except.ok.inj hp
  exact ⟨last, Grammar.ensures_derives_package _ p' last hrun⟩

end StackCompiler
