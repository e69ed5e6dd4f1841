import StackCompiler.Proofs.Grammar.Beside

/-!
# Proofs/Grammar/Unplaced — what is read does not depend on places

Statements and declarations are read side by side as expressions are.  The end of a declaration is
the one place where a parser looks at the source itself, and it stands there **behind the brace** of
a list of elements.  So two sources that are spaced alike spell programs that are the same but for
places, or are refused for one cause (`agree_ofTokens`).
-/

namespace StackCompiler

namespace Grammar

variable {w : Comparison}

/-! ## Declarations -/

theorem inStep_atStatementEnd : InStep w Eq atStatementEnd atStatementEnd := by
  refine (inStep_ahead ";").bind ?_
  rintro semicolon _ rfl
  refine (inStep_ahead "\x7d").bind ?_
  rintro brace _ rfl
  refine inStep_atEnd.bind ?_
  rintro finished _ rfl
  exact parallel_pure rfl

theorem inStep_endStatement : InStep w Eq endStatement endStatement := by
  refine (inStep_accept ";").bind ?_
  rintro semicolon _ rfl
  refine parallel_ite (fun _ => parallel_pure rfl) fun _ => ?_
  refine (inStep_ahead "\x7d").bind ?_
  rintro brace _ rfl
  refine inStep_atEnd.bind ?_
  rintro finished _ rfl
  refine parallel_ite (fun _ => parallel_pure rfl) fun _ => ?_
  exact (inStep_expect ";").bind fun _ _ _ => parallel_pure rfl

/-- What a variable starts with, with other numbers and with all places at 0. -/
def Initial.numbered (n : Numbering) : Initial → Initial
  | .zero => .zero
  | .value e => .value (e.numbered n)
  | .elements es => .elements (es.map (Expr.numbered n))

namespace Comparison

/-- Variables start with the same but for places and numbers. -/
abbrev Initials (w : Comparison) : Initial → Initial → Prop :=
  Meets (Initial.numbered w.numbers) (Initial.numbered w.numbers')

/-- The statements are the same but for places and numbers. -/
abbrev Stmts (w : Comparison) : Stmt → Stmt → Prop :=
  Meets (Stmt.numbered w.numbers) (Stmt.numbered w.numbers')

abbrev StmtLists (w : Comparison) : List Stmt → List Stmt → Prop :=
  Meets (List.map (Stmt.numbered w.numbers)) (List.map (Stmt.numbered w.numbers'))

end Comparison

theorem inStep_initial : InStep w w.Initials initial initial := by
  refine (inStep_accept "=").bind ?_
  rintro given _ rfl
  refine parallel_ite (fun _ => ?_) fun _ => parallel_pure rfl
  refine (inStep_accept "\x7b").bind ?_
  rintro listed _ rfl
  refine parallel_ite (fun _ => ?_) fun _ => ?_
  · exact (inStep_listUntil "\x7d" inStep_expression).bind fun es es' hes =>
      parallel_pure (congrArg Initial.elements hes)
  · exact inStep_expression.bind fun e e' he => parallel_pure (congrArg Initial.value he)

/-! ### Line breaks -/

section Brace

variable {α σ : Type} {r : Reading}

/-- A token that is accepted is **what was taken last**. -/
theorem ensures_accept_previous (text : String) :
    Ensures (accept text) r fun found r' => found = true → r'.previous.any (·.is text) = true := by
  have hahead : Ensures (ahead text) r fun found r' =>
      found = r.rest.head?.any (·.is text) ∧ r' = r := by
    rintro found r' ⟨⟩
    exact ⟨rfl, rfl⟩
  refine (ensures_bind _ _ _ _).mpr (hahead.mono fun found r' ⟨hfound, hr'⟩ => ?_)
  subst hr'
  cases found with
  | false => exact (ensures_pure _ _ _).mpr nofun
  | true =>
    obtain ⟨t, ht, htext⟩ := (Option.any_eq_true _ _).mp hfound.symm
    obtain ⟨rest, hrest⟩ := List.head?_eq_some_iff.mp ht
    refine (ensures_bind _ _ _ _).mpr ((ensures_modify _ _ _).mpr ((ensures_pure _ _ _).mpr ?_))
    rw [hrest]
    exact fun _ => htext

/-- What the last round of a repetition ensures holds **of the whole**. -/
theorem ensures_iterate_last {Q : α → Reading → Prop} {round : σ → Parser (Round σ α)}
    (hround : ∀ state r', Ensures (round state) r' fun o r'' =>
      ∀ a, o = .done a → Q a r'') {state : σ} : Ensures (iterate round state) r Q := by
  have hrounds : ∀ n state r', Ensures (rounds round n state) r' Q := by
    intro n
    induction n with
    | zero => exact fun state r' => ensures_throw _ _ _
    | succ n ih =>
      intro state r'
      refine (ensures_bind _ _ _ _).mpr ((hround state r').mono fun o r'' ho => ?_)
      cases o with
      | again state => exact ih state r''
      | done a => exact (ensures_pure _ _ _).mpr (ho a rfl)
  unfold iterate bounded bound
  simp only [ensures_bind, ensures_get, ensures_pure]
  exact hrounds _ state r

/-- A list ends **with its closing bracket**. -/
theorem ensures_listUntil_closed (close : String) (item : Parser α) :
    Ensures (listUntil close item) r fun _ r' => r'.previous.any (·.is close) = true := by
  refine (ensures_bind _ _ _ _).mpr ((ensures_accept_previous close).mono fun closed r₁ hr₁ => ?_)
  cases closed with
  | true => exact (ensures_pure _ _ _).mpr (hr₁ rfl)
  | false =>
  refine ensures_iterate_last fun items r₂ => (ensures_bind _ _ _ _).mpr fun a r₃ _ => ?_
  refine (ensures_bind _ _ _ _).mpr ((ensures_accept_previous close).mono fun closed r₄ hr₄ => ?_)
  cases closed with
  | true => exact (ensures_pure _ _ _).mpr fun _ _ => hr₄ rfl
  | false =>
    exact (ensures_bind _ _ _ _).mpr fun _ r₅ _ => (ensures_pure _ _ _).mpr (by rintro _ ⟨⟩)

/-- Behind the elements of an array stands **the brace** that closes them. -/
theorem ensures_initial_closed :
    Ensures initial r fun init r' => ∀ elements, init = .elements elements →
      r'.previous.any (·.is "\x7d") = true := by
  refine (ensures_bind _ _ _ _).mpr fun given r₁ _ => ?_
  cases given with
  | false => exact (ensures_pure _ _ _).mpr nofun
  | true =>
  refine (ensures_bind _ _ _ _).mpr fun listed r₂ _ => ?_
  cases listed with
  | false => exact (ensures_bind _ _ _ _).mpr fun e r₃ _ => (ensures_pure _ _ _).mpr nofun
  | true =>
    refine (ensures_bind _ _ _ _).mpr ((ensures_listUntil_closed _ _).mono fun es r₃ hr₃ => ?_)
    exact (ensures_pure _ _ _).mpr fun _ _ => hr₃

end Brace

/-! ### The assignment of an initial value -/

/-- The parsers read **one statement**, from two places. -/
abbrev StatesAlike (w : Comparison) (x y : Parser Stmt) : Prop :=
  InStep w w.Stmts x y

/-- Where no token is left, a declaration ends **whether or not a line breaks**. -/
theorem Reading.Of.run_endDeclaration_last {c : CutSource} {r : Reading} (h : r.Of c) {t : Token}
    (ht : r.previous = some t) (hrest : r.rest = []) (elements : List Expr) :
    (endDeclaration (.elements elements)).run r = .ok ((), r) := by
  unfold endDeclaration
  dsimp only
  rw [run_bind_of_ok (h.run_atLineStart ht)]
  obtain ⟨source, previous, rest, vars, globals, scope, strings⟩ := r
  subst hrest
  cases breaksBehind c.source t [] <;> rfl

theorem agree_endDeclaration {r r' : Reading} (h : Reading.Beside w r r') {init init' : Initial}
    (hinit : w.Initials init init')
    (hbrace : ∀ elements, init = .elements elements → r.previous.any (·.is "\x7d") = true) :
    Agree ((endDeclaration init).run r) ((endDeclaration init').run r')
      fun p q => p.1 = q.1 ∧ Reading.Beside w p.2 q.2 := by
  cases init with
  | zero =>
    cases init' <;> cases hinit
    exact inStep_endStatement r r' h
  | value e =>
    cases init' with
    | zero | elements => cases hinit
    | value e' => exact inStep_endStatement r r' h
  | elements es =>
    cases init' with
    | zero | value => cases hinit
    | elements es' =>
      by_cases hrest : r.rest = []
      · have hrest' : r'.rest = [] := List.forall₂_nil_left_iff.mp (hrest ▸ h.rest)
        obtain ⟨t, ht, -⟩ := (Option.any_eq_true _ _).mp (hbrace es rfl)
        obtain ⟨t', ht'⟩ := Option.isSome_iff_exists.mp (h.previous.symm.trans (by rw [ht]; rfl))
        rw [h.left.run_endDeclaration_last ht hrest, h.right.run_endDeclaration_last ht' hrest']
        exact ⟨rfl, h⟩
      unfold endDeclaration
      dsimp only
      rw [StateT.run_bind, StateT.run_bind]
      refine (h.agree_atLineStart (hbrace es rfl) hrest).bind ?_
      rintro ⟨breaks, r₁⟩ ⟨_, r₁'⟩ ⟨rfl, hr₁⟩
      exact parallel_ite (fun _ => parallel_pure rfl) (fun _ => inStep_endStatement) r₁ r₁' hr₁

theorem inStep_zeroValue (ty : Ty) (loc loc' : Nat) :
    ReadsAlike w (zeroValue ty loc) (zeroValue ty loc') := by
  refine parallel_ite (fun _ => (inStep_intern "").bind fun i i' hi => ?_) fun _ =>
    parallel_pure rfl
  exact parallel_pure (congrArg (Expr.str · .unknown 0) hi)

theorem stmts_assign {targets targets' values values' : List Expr} (loc loc' : Nat)
    (ht : w.ExprLists targets targets') (hv : w.ExprLists values values') :
    w.Stmts (.assign targets values loc) (.assign targets' values' loc') := by
  rw [Comparison.Stmts, Meets, Stmt.numbered, Stmt.numbered, ht, hv]

theorem meets_zipIdx {α β γ : Type} {f : α → γ} {g : β → γ} {as : List α} {bs : List β}
    (h : Meets (List.map f) (List.map g) as bs) :
    Meets (List.map (Prod.map f id)) (List.map (Prod.map g id)) as.zipIdx bs.zipIdx := by
  rw [Meets, ← List.zipIdx_map, ← List.zipIdx_map, h]

theorem inStep_elementwise {target target' : Expr} {es es' : List Expr} (loc loc' : Nat)
    (htarget : w.Exprs target target') (hes : w.ExprLists es es') :
    StatesAlike w (elementwise target es loc) (elementwise target' es' loc') := by
  have hempty : es.isEmpty = es'.isEmpty := by
    rw [← List.isEmpty_map (f := Expr.numbered w.numbers), hes, List.isEmpty_map]
  unfold elementwise
  rw [hempty]
  refine parallel_ite (fun _ => parallel_pure rfl) fun _ => ?_
  refine (Parallel.mapM (S := w.Exprs) ?_
    (forall₂_meets_iff.mpr (meets_zipIdx hes))).bind fun targets targets' htargets =>
      parallel_pure (stmts_assign loc loc' (forall₂_meets_iff.mp htargets) hes)
  rintro ⟨e, i⟩ ⟨e', i'⟩ h
  obtain ⟨-, rfl⟩ := Prod.mk.inj h
  have hposition : w.Exprs (.num (Int64.ofNat i) .unknown e.loc)
      (.num (Int64.ofNat i) .unknown e'.loc) := rfl
  exact inStep_indexed htarget hposition e.loc e'.loc

theorem inStep_initialAssignment {id id' : VarId} (hid : w.Ids id id') (ty : Ty) (isGlobal : Bool)
    (loc loc' : Nat) {init init' : Initial} (hinit : w.Initials init init') :
    StatesAlike w (initialAssignment id ty isGlobal loc init)
      (initialAssignment id' ty isGlobal loc' init') := by
  have htarget : w.Exprs (.var id .unknown loc) (.var id' .unknown loc') :=
    congrArg (Expr.var · .unknown 0) hid
  cases init with
  | zero =>
    cases init' <;> cases hinit
    refine parallel_ite (fun _ => parallel_pure rfl) fun _ => ?_
    refine (inStep_zeroValue ty loc loc').bind fun e e' he => parallel_pure ?_
    exact stmts_assign loc loc' (congrArg (fun e => [e]) htarget) (congrArg (fun e => [e]) he)
  | value e =>
    cases init' with
    | zero | elements => cases hinit
    | value e' =>
      exact parallel_pure (stmts_assign loc loc' (congrArg (fun e => [e]) htarget)
        (congrArg (fun e => [e]) (Initial.value.inj hinit)))
  | elements es =>
    cases init' with
    | zero | value => cases hinit
    | elements es' =>
      exact parallel_ite
        (fun _ => inStep_elementwise loc loc' htarget (Initial.elements.inj hinit))
        fun _ => inStep_refuse _ _ _

theorem inStep_declarationRest (name : String) (ty : Ty) (loc loc' : Nat) :
    StatesAlike w
      (do
        let init ← initial
        endDeclaration init
        if let (.unknown, .zero) := (ty, init) then refuse (.typeOrInitializerMissing name) loc
        let isGlobal := (← get).scope.isNone
        let id ← declare name ty loc
        initialAssignment id ty isGlobal loc init)
      (do
        let init ← initial
        endDeclaration init
        if let (.unknown, .zero) := (ty, init) then refuse (.typeOrInitializerMissing name) loc'
        let isGlobal := (← get).scope.isNone
        let id ← declare name ty loc'
        initialAssignment id ty isGlobal loc' init) := by
  refine inStep_initial.bindAfter (fun _ => ensures_initial_closed) ?_
  intro init init' r r' hinit hr hbrace
  rw [StateT.run_bind, StateT.run_bind]
  refine (agree_endDeclaration hr hinit hbrace).bind fun ⟨_, r₁⟩ ⟨_, r₁'⟩ ⟨_, hr₁⟩ => ?_
  have hdeclare : StatesAlike w
      (do
        let isGlobal := (← get).scope.isNone
        let id ← declare name ty loc
        initialAssignment id ty isGlobal loc init)
      (do
        let isGlobal := (← get).scope.isNone
        let id ← declare name ty loc'
        initialAssignment id ty isGlobal loc' init') := by
    refine parallel_get.bind fun r r' h => ?_
    have hscope : r.scope.isNone = r'.scope.isNone := by
      rw [← Option.isNone_map (f := List.map w.numbers.var), h.scope, Option.isNone_map]
    rw [hscope]
    exact (inStep_declare name ty loc loc').bind fun id id' hid =>
      inStep_initialAssignment hid ty _ loc loc' hinit
  dsimp only
  split
  · next hpair =>
    obtain ⟨rfl, rfl⟩ := Prod.mk.inj hpair
    cases init' <;> cases hinit
    exact inStep_refuse_bind _ _ _ r₁ r₁' hr₁
  · next hother =>
    split
    · next hpair =>
      obtain ⟨rfl, rfl⟩ := Prod.mk.inj hpair
      cases init <;> cases hinit
      exact (hother rfl).elim
    · exact hdeclare r₁ r₁' hr₁

theorem inStep_declaration : StatesAlike w declaration declaration := by
  refine (inStep_expect "var").bind fun _ _ _ => inStep_identifier.bind ?_
  rintro ⟨name, loc⟩ ⟨_, loc'⟩ rfl
  refine inStep_typeAhead.bind ?_
  rintro typed _ rfl
  cases typed with
  | true =>
    refine inStep_type.bind ?_
    rintro ty _ rfl
    exact inStep_declarationRest name ty loc loc'
  | false => exact inStep_declarationRest name .unknown loc loc'

/-! ## Simple statements -/

theorem isShortDeclaration_eq : ∀ {ts ts' : List Token}, List.Forall₂ Token.Alike ts ts' →
    isShortDeclaration ts = isShortDeclaration ts'
  | _, _, .nil => rfl
  | _, _, .cons _ .nil => rfl
  | _, _, .cons hname (.cons hnext h) => by
    rw [isShortDeclaration, isShortDeclaration, hname.kind, hnext.is_eq, hnext.is_eq,
      isShortDeclaration_eq h]

theorem inStep_exprs : InStep w w.ExprLists (commaList expression) (commaList expression) :=
  inStep_commaList inStep_expression

theorem inStep_shortDeclaration : StatesAlike w shortDeclaration shortDeclaration := by
  refine (inStep_commaList inStep_identifier).bind fun names names' hnames => ?_
  refine (inStep_expect ":=").bind fun loc loc' _ => ?_
  refine inStep_exprs.bind fun values values' hvalues => ?_
  refine (Parallel.mapM (S := w.Exprs) ?_
    (forall₂_meets_iff.mpr hnames)).bind fun targets targets' htargets =>
      parallel_pure (stmts_assign loc loc' (forall₂_meets_iff.mp htargets) hvalues)
  rintro ⟨name, nameLoc⟩ ⟨_, nameLoc'⟩ rfl
  exact (inStep_declare name .unknown nameLoc nameLoc').bind fun id id' hid =>
    parallel_pure (congrArg (Expr.var · .unknown 0) hid)

theorem inStep_checkTarget {target target' : Expr} (h : w.Exprs target target') :
    InStep w Eq (checkTarget target) (checkTarget target') := by
  have hlvalue : InStep w Eq
      (if !target.isLvalue then refuse .notAssignable target.loc else pure ())
      (if !target'.isLvalue then refuse .notAssignable target'.loc else pure ()) := by
    rw [isLvalue_of_exprs h]
    exact parallel_ite (fun _ => inStep_refuse _ _ _) fun _ => parallel_pure rfl
  unfold checkTarget
  dsimp only
  split
  · next id ty loc =>
    obtain ⟨id', loc', rfl, hid⟩ := exists_var_of_meets h
    refine (inStep_variableOf hid).bind fun v v' hv => ?_
    obtain ⟨name, offset, isLocal, vty, vloc, isPlaceholder⟩ := v
    obtain ⟨name', offset', isLocal', vty', vloc', isPlaceholder'⟩ := v'
    obtain ⟨rfl, rfl, rfl, rfl, _, rfl⟩ := Variable.mk.inj hv
    exact parallel_ite (fun _ => inStep_refuse_bind _ _ _) fun _ => hlvalue
  · next hother =>
    cases target' with
    | var id ty loc =>
      obtain ⟨id', loc', rfl, -⟩ := exists_var_of_meets h.symm
      exact (hother _ _ _ rfl).elim
    | _ => exact hlvalue

theorem inStep_assignmentOrExpression :
    StatesAlike w assignmentOrExpression assignmentOrExpression := by
  refine inStep_exprs.bind fun targets targets' htargets => (inStep_ahead "=").bind ?_
  rintro assigned _ rfl
  refine parallel_ite (fun _ => ?_) fun _ => ?_
  · refine (inStep_expect "=").bind fun loc loc' _ => ?_
    refine (Parallel.forM (R := w.Exprs) (fun _ _ => inStep_checkTarget)
      (forall₂_meets_iff.mpr htargets)).bind fun _ _ _ => ?_
    exact inStep_exprs.bind fun values values' hvalues =>
      parallel_pure (stmts_assign loc loc' htargets hvalues)
  · have hforall := forall₂_meets_iff.mpr htargets
    cases hforall with
    | nil => exact inStep_unexpected _
    | cons he hes =>
      cases hes with
      | nil => exact parallel_pure (congrArg Stmt.expr he)
      | cons => exact inStep_unexpected _

theorem inStep_simple : StatesAlike w simple simple := by
  refine parallel_get.bind fun r r' h => ?_
  rw [isShortDeclaration_eq h.rest]
  exact parallel_ite (fun _ => inStep_shortDeclaration) fun _ => inStep_assignmentOrExpression

theorem inStep_printing : StatesAlike w printing printing := by
  refine inStep_here.bind fun loc loc' _ => inStep_peek.bind fun t t' ht => ?_
  have hprinter : (t.bind fun token => Printer.ofName? token.text) =
      t'.bind fun token => Printer.ofName? token.text := by
    cases ht with
    | none => rfl
    | some ht => simp only [Option.bind_some, ht.text]
  rw [hprinter]
  split
  · exact inStep_refuse _ _ _
  · next printer _ =>
    refine inStep_advance.bind fun _ _ _ => (inStep_expect "(").bind fun _ _ _ => ?_
    refine (inStep_listUntil ")" inStep_expression).bind fun args args' hargs =>
      parallel_pure (congrArg (Stmt.print printer · 0) hargs)

/-! ## Statements that hold others -/

/-- The parsers read **a list of statements**, from two places. -/
abbrev BlocksAlike (w : Comparison) (x y : Parser (List Stmt)) : Prop :=
  InStep w w.StmtLists x y

section Blocks

variable {statement : Parser Stmt} {block : Parser (List Stmt)}

theorem inStep_braced (h : StatesAlike w statement statement) :
    BlocksAlike w (braced statement) (braced statement) := by
  refine (inStep_expect "\x7b").bind fun _ _ _ => ?_
  refine inStep_iterate (S := w.StmtLists) (fun body body' hbody => ?_) rfl
  refine (inStep_accept "\x7d").bind ?_
  rintro closed _ rfl
  refine parallel_ite (fun _ => parallel_pure (.done hbody)) fun _ => (inStep_accept ";").bind ?_
  rintro semicolon _ rfl
  refine parallel_ite (fun _ => parallel_pure (.again hbody)) fun _ => ?_
  exact h.bind fun st st' hst => parallel_pure (.again (meets_concat hbody hst))

theorem exists_expr_of_meets {n n' : Numbering} {e : Expr} {st : Stmt}
    (h : Meets (Stmt.numbered n) (Stmt.numbered n') (.expr e) st) :
    ∃ e', st = .expr e' ∧ Meets (Expr.numbered n) (Expr.numbered n') e e' := by
  cases st with
  | expr e' => exact ⟨e', rfl, Stmt.expr.inj h⟩
  | _ => cases h

theorem inStep_branchHead (loc loc' : Nat) :
    InStep w (Meets (Prod.map (Stmt.numbered w.numbers) (Expr.numbered w.numbers))
        (Prod.map (Stmt.numbered w.numbers') (Expr.numbered w.numbers')))
      (branchHead loc) (branchHead loc') := by
  refine inStep_simple.bind fun first first' hfirst => (inStep_accept ";").bind ?_
  rintro semicolon _ rfl
  refine parallel_ite (fun _ => inStep_expression.bind fun e e' he =>
    parallel_pure (Prod.ext hfirst he)) fun _ => ?_
  split
  · obtain ⟨e', rfl, he⟩ := exists_expr_of_meets hfirst
    exact parallel_pure (Prod.ext rfl he)
  · next hother =>
    split
    · obtain ⟨e, rfl, _⟩ := exists_expr_of_meets hfirst.symm
      exact (hother _ rfl).elim
    · exact inStep_refuse _ _ _

theorem stmts_block {body body' : List Stmt} (h : w.StmtLists body body') :
    w.Stmts (.block body) (.block body') := by
  rw [Comparison.Stmts, Meets, Stmt.numbered_block, Stmt.numbered_block, h]

theorem stmts_branch {init init' otherwise otherwise' : Stmt} {cond cond' : Expr}
    {body body' : List Stmt} (hinit : w.Stmts init init') (hcond : w.Exprs cond cond')
    (hbody : w.StmtLists body body') (hotherwise : w.Stmts otherwise otherwise') :
    w.Stmts (.branch init cond body otherwise) (.branch init' cond' body' otherwise') := by
  rw [Comparison.Stmts, Meets, Stmt.numbered_branch, Stmt.numbered_branch, hinit, hcond, hbody,
    hotherwise]

theorem inStep_branchTo (h : BlocksAlike w block block) (depth : Nat) (loc loc' : Nat) :
    StatesAlike w (branchTo block loc depth) (branchTo block loc' depth) := by
  induction depth generalizing loc loc' with
  | zero => exact inStep_broken _
  | succ depth ih =>
    refine (inStep_branchHead loc loc').bind ?_
    rintro ⟨init, cond⟩ ⟨init', cond'⟩ hhead
    obtain ⟨hinit, hcond⟩ := Prod.mk.inj hhead
    refine h.bind fun body body' hbody => (inStep_accept "else").bind ?_
    rintro other _ rfl
    refine parallel_ite (fun _ => ?_) fun _ => parallel_pure (stmts_branch hinit hcond hbody rfl)
    refine inStep_here.bind fun elseLoc elseLoc' _ => (inStep_accept "if").bind ?_
    rintro again _ rfl
    refine parallel_ite (fun _ => ?_) fun _ => ?_
    · exact (ih elseLoc elseLoc').bind fun st st' hst =>
        parallel_pure (stmts_branch hinit hcond hbody hst)
    · exact h.bind fun body₂ body₂' hbody₂ =>
        parallel_pure (stmts_branch hinit hcond hbody (stmts_block hbody₂))

theorem inStep_branch (h : BlocksAlike w block block) (loc loc' : Nat) :
    StatesAlike w (branch block loc) (branch block loc') :=
  inStep_bounded fun depth => inStep_branchTo h depth loc loc'

/-- A part that may be left out, with what comes after it in either case. -/
theorem inStep_optional {α β γ δ : Type} {R : α → β → Prop} {S : γ → δ → Prop} {absent : Bool}
    {x : Parser α} {y : Parser β} {a : α} {b : β} {f : α → Parser γ} {g : β → Parser δ}
    (hx : InStep w R x y) (ha : R a b) (hf : ∀ a b, R a b → InStep w S (f a) (g b)) :
    InStep w S (if absent = true then pure a >>= f else x >>= f)
      (if absent = true then pure b >>= g else y >>= g) :=
  parallel_ite (fun _ => (parallel_pure ha).bind hf) fun _ => hx.bind hf

theorem inStep_someExpression :
    InStep w (Meets (Option.map (Expr.numbered w.numbers)) (Option.map (Expr.numbered w.numbers')))
      (some <$> expression) (some <$> expression) :=
  inStep_expression.map fun _ _ h => congrArg some h

/-- The clauses of a loop, with other numbers and with all places at 0. -/
def clausesNumbered (n : Numbering) (clauses : Stmt × Option Expr × Stmt) :
    Stmt × Option Expr × Stmt :=
  (clauses.1.numbered n, clauses.2.1.map (Expr.numbered n), clauses.2.2.numbered n)

theorem inStep_loopHead (loc loc' : Nat) :
    InStep w (Meets (clausesNumbered w.numbers) (clausesNumbered w.numbers')) (loopHead loc)
      (loopHead loc') := by
  refine (inStep_ahead "\x7b").bind ?_
  rintro endless _ rfl
  refine parallel_ite (fun _ => parallel_pure rfl) fun _ => (inStep_ahead ";").bind ?_
  rintro bare _ rfl
  refine inStep_optional inStep_simple rfl fun first first' hfirst => (inStep_accept ";").bind ?_
  rintro clauses _ rfl
  refine parallel_ite (fun _ => (inStep_ahead ";").bind ?_) fun _ => ?_
  · rintro always _ rfl
    refine inStep_optional inStep_someExpression rfl fun cond cond' hcond => ?_
    refine (inStep_expect ";").bind fun _ _ _ => (inStep_ahead "\x7b").bind ?_
    rintro still _ rfl
    refine inStep_optional inStep_simple rfl fun post post' hpost => parallel_pure ?_
    exact Prod.ext hfirst (Prod.ext hcond hpost)
  · split
    · obtain ⟨e', rfl, he⟩ := exists_expr_of_meets hfirst
      exact parallel_pure (Prod.ext rfl (Prod.ext (congrArg some he) rfl))
    · next hother =>
      split
      · obtain ⟨e, rfl, _⟩ := exists_expr_of_meets hfirst.symm
        exact (hother _ rfl).elim
      · exact inStep_refuse _ _ _

theorem inStep_loop (h : BlocksAlike w block block) (loc loc' : Nat) :
    StatesAlike w (loop block loc) (loop block loc') := by
  refine (inStep_loopHead loc loc').bind ?_
  rintro ⟨init, cond, post⟩ ⟨init', cond', post'⟩ hhead
  obtain ⟨hinit, htail⟩ := Prod.mk.inj hhead
  obtain ⟨hcond, hpost⟩ := Prod.mk.inj htail
  refine h.bind fun body body' hbody => parallel_pure ?_
  rw [Comparison.Stmts, Meets, Stmt.numbered_loop, Stmt.numbered_loop, hinit, hcond, hpost, hbody]

theorem inStep_statementTo (depth : Nat) :
    StatesAlike w (statementTo depth) (statementTo depth) := by
  induction depth with
  | zero => exact inStep_broken _
  | succ depth ih =>
    have hbraced := inStep_braced ih
    have hend (st st' : Stmt) (h : w.Stmts st st') :
        StatesAlike w (do endStatement; return st) (do endStatement; return st') :=
      inStep_endStatement.bind fun _ _ _ => parallel_pure h
    refine inStep_here.bind fun loc loc' _ => (inStep_accept "return").bind ?_
    rintro isReturn _ rfl
    refine parallel_ite (fun _ => inStep_atStatementEnd.bind ?_) fun _ =>
      (inStep_ahead "\x7b").bind ?_
    · rintro bare _ rfl
      exact inStep_optional inStep_someExpression rfl fun value value' hvalue =>
        inStep_endStatement.bind fun _ _ _ => parallel_pure (congrArg (Stmt.ret · 0) hvalue)
    rintro isBlock _ rfl
    refine parallel_ite (fun _ => hbraced.bind fun body body' hbody =>
      parallel_pure (stmts_block hbody)) fun _ => (inStep_accept "if").bind ?_
    rintro isBranch _ rfl
    refine parallel_ite (fun _ => inStep_branch hbraced loc loc') fun _ =>
      (inStep_accept "for").bind ?_
    rintro isLoop _ rfl
    refine parallel_ite (fun _ => inStep_loop hbraced loc loc') fun _ => (inStep_ahead "var").bind ?_
    rintro isDeclaration _ rfl
    refine parallel_ite (fun _ => inStep_declaration) fun _ => (inStep_aheadKind .stdlib).bind ?_
    rintro isPrinting _ rfl
    exact parallel_ite (fun _ => inStep_printing.bind hend) fun _ => inStep_simple.bind hend

/-- **Statements are read whatever their places are.** -/
theorem inStep_block : BlocksAlike w Grammar.block Grammar.block :=
  inStep_bounded fun depth => inStep_braced (inStep_statementTo depth)

end Blocks

/-! ## The package -/

theorem inStep_parameter : InStep w w.Ids parameter parameter := by
  refine inStep_identifier.bind ?_
  rintro ⟨name, loc⟩ ⟨_, loc'⟩ rfl
  refine inStep_type.bind ?_
  rintro ty _ rfl
  exact parallel_ite (fun _ => inStep_refuse_bind _ _ _) fun _ => inStep_declare name ty loc loc'

theorem Reading.Beside.outside {r r' : Reading} (h : Reading.Beside w r r') :
    Reading.Beside w { r with scope := none } { r' with scope := none } :=
  { h with scope := rfl }

theorem Reading.Beside.inside {r r' : Reading} (h : Reading.Beside w r r') :
    Reading.Beside w { r with scope := some [] } { r' with scope := some [] } :=
  { h with scope := rfl }

namespace Comparison

/-- The functions are the same but for places and numbers. -/
abbrev Functions (w : Comparison) : Function → Function → Prop :=
  Meets (Function.numbered w.numbers) (Function.numbered w.numbers')

end Comparison

theorem inStep_functionRest (name : String) {params params' : List VarId}
    (hparams : Meets (List.map w.numbers.var) (List.map w.numbers'.var) params params')
    (loc loc' : Nat) :
    InStep w w.Functions
      (do
        let body ← block
        let locals := (← get).scope.getD []
        modify fun r => { r with scope := none }
        return ⟨name, params, locals, body, 0, false, loc⟩)
      (do
        let body ← block
        let locals := (← get).scope.getD []
        modify fun r => { r with scope := none }
        return ⟨name, params', locals, body, 0, false, loc'⟩) := by
  refine inStep_block.bind fun body body' hbody => parallel_get.bind fun r r' h => ?_
  have hlocals : Meets (List.map w.numbers.var) (List.map w.numbers'.var) (r.scope.getD [])
      (r'.scope.getD []) := by
    have hscope := h.scope
    cases hr : r.scope <;> cases hr' : r'.scope <;> rw [hr, hr'] at hscope
    · rfl
    · cases hscope
    · cases hscope
    · exact Option.some.inj hscope
  refine (parallel_modify fun r r' h => h.outside).bind fun _ _ _ => parallel_pure ?_
  simp only [Comparison.Functions, Meets, Function.numbered, Stmt.numberedAll_eq_map, hbody, hparams,
    hlocals]

theorem inStep_function {taken taken' : List String}
    (htaken : ∀ name, name ∈ taken ↔ name ∈ taken') :
    InStep w w.Functions (function taken) (function taken') := by
  refine (inStep_expect "func").bind fun loc loc' _ => inStep_identifier.bind ?_
  rintro ⟨name, nameLoc⟩ ⟨_, nameLoc'⟩ rfl
  dsimp only
  simp only [htaken]
  refine parallel_ite (fun _ => inStep_refuse_bind _ _ _) fun _ => ?_
  refine (parallel_modify fun r r' h => h.inside).bind fun _ _ _ => ?_
  refine (inStep_expect "(").bind fun _ _ _ => ?_
  refine (inStep_listUntil ")" inStep_parameter).bind fun params params' hparams => ?_
  refine inStep_typeAhead.bind ?_
  rintro typed _ rfl
  refine parallel_ite (fun _ => inStep_type.bind fun _ _ _ => ?_) fun _ => ?_
  · exact inStep_functionRest name hparams loc loc'
  · exact inStep_functionRest name hparams loc loc'

/-- What has been declared is the same but for places and numbers, **beyond what had been declared**
before. -/
structure Comparison.Declarations (w : Comparison) (before before' : List Function)
    (d d' : Declared) : Prop where
  funcs : ∃ fs fs', d.funcs = before ++ fs ∧ d'.funcs = before' ++ fs' ∧
    Meets (List.map (Function.numbered w.numbers)) (List.map (Function.numbered w.numbers')) fs fs'
  inits : w.StmtLists d.inits d'.inits

section Declared

variable {before before' : List Function} {d d' : Declared}

theorem Comparison.Declarations.names (h : w.Declarations before before' d d')
    (hbefore : ∀ name, name ∈ before.map (·.name) ↔ name ∈ before'.map (·.name)) (name : String) :
    name ∈ d.funcs.map (·.name) ↔ name ∈ d'.funcs.map (·.name) := by
  obtain ⟨fs, fs', hd, hd', hfs⟩ := h.funcs
  have hnames (n : Numbering) (fs : List Function) :
      (fs.map (Function.numbered n)).map (·.name) = fs.map (·.name) := List.map_map
  rw [hd, hd', List.map_append, List.map_append, List.mem_append, List.mem_append, hbefore name,
    ← hnames w.numbers fs, hfs, hnames]

theorem inStep_packageRound
    (hbefore : ∀ name, name ∈ before.map (·.name) ↔ name ∈ before'.map (·.name))
    (h : w.Declarations before before' d d') :
    InStep w (Round.Rel (w.Declarations before before') (w.Declarations before before')) (packageRound d)
      (packageRound d') := by
  obtain ⟨fs, fs', hd, hd', hfs⟩ := h.funcs
  refine (inStep_accept ";").bind ?_
  rintro semicolon _ rfl
  refine parallel_ite (fun _ => parallel_pure (.again h)) fun _ => inStep_atEnd.bind ?_
  rintro finished _ rfl
  refine parallel_ite (fun _ => parallel_pure (.done h)) fun _ => (inStep_ahead "func").bind ?_
  rintro isFunction _ rfl
  refine parallel_ite (fun _ => ?_) fun _ => (inStep_ahead "var").bind ?_
  · refine (inStep_function (h.names hbefore)).bind fun f f' hf => parallel_pure (.again ⟨?_, h.inits⟩)
    refine ⟨fs ++ [f], fs' ++ [f'], ?_, ?_, meets_concat hfs hf⟩
    · rw [hd, List.append_assoc]
    · rw [hd', List.append_assoc]
  rintro isVariable _ rfl
  refine parallel_ite (fun _ => ?_) fun _ => inStep_unexpected _
  refine inStep_declaration.bind fun init init' hinit => parallel_pure (.again ?_)
  rw [← init.isEmpty_numbered w.numbers, ← init'.isEmpty_numbered w.numbers', hinit]
  split
  · exact h
  · exact ⟨h.funcs, meets_concat h.inits hinit⟩

end Declared

/-- The programs are the same but for places and numbers. -/
structure Comparison.Programs (w : Comparison) (p p' : Program) : Prop where
  package : p.package = p'.package
  vars : ∀ id id', w.Ids id id' → SameVariable p.vars[id]? p'.vars[id']?
  globals : Meets (List.map w.numbers.var) (List.map w.numbers'.var) p.globals p'.globals
  strings : w.Tables p.strings p'.strings
  funcs : Meets (List.map (Function.numbered w.numbers)) (List.map (Function.numbered w.numbers'))
    p.funcs p'.funcs

theorem functions_implicit {inits inits' : List Stmt} (h : w.StmtLists inits inits') :
    w.Functions (implicitFunction inits) (implicitFunction inits') := by
  simp only [Comparison.Functions, Meets, implicitFunction, Function.numbered,
    Stmt.numberedAll_eq_map, List.map_append, h]
  rfl

theorem inStep_package : InStep w w.Programs package package := by
  refine (inStep_expect "package").bind fun _ _ _ => inStep_identifier.bind ?_
  rintro ⟨name, loc⟩ ⟨_, loc'⟩ rfl
  refine (inStep_iterate (S := w.Declarations [] []) (R := w.Declarations [] [])
    (fun _ _ => inStep_packageRound fun _ => Iff.rfl) ⟨⟨[], [], rfl, rfl, rfl⟩, rfl⟩).bind
      fun d d' hd => ?_
  refine parallel_get.bind fun r r' h => parallel_pure ⟨rfl, h.vars, h.globals, h.strings, ?_⟩
  obtain ⟨fs, fs', hfuncs, hfuncs', hfs⟩ := hd.funcs
  rw [List.nil_append] at hfuncs hfuncs'
  rw [hfuncs, hfuncs', Meets, List.map_cons, List.map_cons, functions_implicit hd.inits, hfs]

/-- Readings of two sources **start side by side**. -/
theorem Reading.beside_start {c c' : CutSource}
    (h : SpacedAlike c.source c'.source c.tokens c'.tokens) :
    Reading.Beside (.ofSources c c') (.start c.source c.tokens) (.start c'.source c'.tokens) where
  left := ⟨rfl, fun _ => id⟩
  right := ⟨rfl, fun _ => id⟩
  previous := rfl
  spaced := h.within
  vars := by
    rintro id _ rfl
    rfl
  fresh i j := Nat.add_left_cancel_iff (n := 0)
  globals := rfl
  scope := rfl
  strings := rfl

end Grammar

/-- **What is read does not depend on places.** -/
theorem agree_ofTokens {c c' : CutSource}
    (h : SpacedAlike c.source c'.source c.tokens c'.tokens) :
    Agree (Program.ofTokens c.source c.tokens) (Program.ofTokens c'.source c'.tokens)
      (SameBy Program.unplaced) := by
  refine (Grammar.inStep_package _ _ (Grammar.Reading.beside_start h)).bind ?_
  rintro ⟨p, _⟩ ⟨p', _⟩ ⟨hp, -⟩
  have hvars : p.vars.map Variable.unplaced = p'.vars.map Variable.unplaced := by
    refine List.ext_getElem? fun id => ?_
    rw [List.getElem?_map, List.getElem?_map]
    exact hp.vars id id rfl
  have hglobals : p.globals = p'.globals := by
    simpa only [Grammar.Comparison.ofNumbers, Meets, List.map_id] using hp.globals
  have hstrings : p.strings = p'.strings := hp.strings
  change p.unplaced = p'.unplaced
  rw [Program.unplaced, Program.unplaced, hp.package, hvars, hglobals, hstrings]
  exact congrArg (Program.mk _ _ _ _) hp.funcs

end StackCompiler
