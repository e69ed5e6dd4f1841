import StackCompiler.Proofs.Grammar.Spans

/-!
# Proofs/Grammar/Nesting — a function ends with its closing brace

Statements are read as expressions are: from their own tokens, which nest.  Behind a block there is
**no look ahead**, since a brace ends it; so a function is read alike whatever stands behind it
(`spans_function`).
-/

namespace StackCompiler.Grammar

variable {r : Reading}

/-- What is flat **nests**. -/
theorem Absorbs.nested {α : Type} {x y : Parser α} (h : Absorbs Flat x y r) : Absorbs Nested x y r :=
  Spans.mono h (fun _ _ hts => hts.nested) fun _ _ _ => id

theorem nested_pure {α : Type} {a : α} : Absorbs Nested (pure a) (pure a) r :=
  spans_pure joins_nested.nil

theorem nested_accept_bind {α : Type} {text : String}
    (htext : text ≠ "\x7b" ∧ text ≠ "\x7d" ∧ text ≠ "func") {f g : Bool → Parser α}
    (h : ∀ found r', Absorbs Nested (f found) (g found) r') :
    Absorbs Nested (accept text >>= f) (accept text >>= g) r :=
  absorbs_accept_bind joins_nested (fun _ ht => (flat_of_is ht htext).nested) h

theorem nested_expect_bind {α : Type} {text : String}
    (htext : text ≠ "\x7b" ∧ text ≠ "\x7d" ∧ text ≠ "func") {f g : Nat → Parser α}
    (h : ∀ loc r', Absorbs Nested (f loc) (g loc) r') :
    Absorbs Nested (expect text >>= f) (expect text >>= g) r :=
  absorbs_expect_bind joins_nested (fun _ ht => (flat_of_is ht htext).nested) h

/-! ## Declarations -/

theorem nested_atStatementEnd_bind {α : Type} {f g : Bool → Parser α}
    (h : ∀ found, Absorbs Nested (f found) (g found) r) :
    Absorbs Nested (atStatementEnd >>= f) (atStatementEnd >>= g) r := by
  unfold atStatementEnd
  simp only [bind_assoc, pure_bind]
  exact spans_ahead_bind fun _ _ => spans_ahead_bind fun _ _ =>
    spans_atEnd_bind fun _ => h _

theorem flat_endStatement : Absorbs Flat endStatement endStatement r := by
  refine flat_accept_bind (by decide) fun semicolon r => ?_
  refine spans_ite (fun _ => spans_pure joins_flat.nil) fun _ => ?_
  refine spans_ahead_bind fun brace _ => spans_atEnd_bind fun finished => ?_
  refine spans_ite (fun _ => spans_pure joins_flat.nil) fun _ => ?_
  exact flat_expect_bind (by decide) fun _ _ => spans_pure joins_flat.nil

theorem nested_initial : Absorbs Nested initial initial r := by
  refine nested_accept_bind (by decide) fun given r => spans_ite (fun _ => ?_) fun _ => nested_pure
  refine spans_accept_bind (fun r' => ?_) ?_ fun _ ts _ _ _ hlook => (hlook.append ts).head?
  · refine (Spans.bind (spans_listUntil fun _ => flat_expression)
      (Q := fun _ _ ts => ts = []) (fun _ _ _ => spans_pure rfl) ?_
      fun _ _ ts _ _ _ hlook => hlook.append ts)
    rintro _ _ ts _ ⟨inner, last, rfl, hlast, hinner⟩ rfl first hfirst
    rw [List.append_nil]
    exact Braced.nested ⟨first, _, rfl, hfirst, inner, last, rfl, hlast, hinner.nested⟩
  · exact Absorbs.bind joins_nested flat_expression.nested fun _ _ _ => nested_pure

theorem nested_endDeclaration (init : Initial) :
    Absorbs Nested (endDeclaration init) (endDeclaration init) r := by
  unfold endDeclaration
  split
  · refine Absorbs.bind joins_nested (absorbs_atLineStart joins_nested) fun breaks r _ => ?_
    exact spans_ite (fun _ => nested_pure) fun _ => flat_endStatement.nested
  · exact flat_endStatement.nested

theorem absorbs_mapM {α β : Type} {S : List Token → Prop} (hS : Joins S) {f : α → Parser β}
    (hf : ∀ a r, Absorbs S (f a) (f a) r) (as : List α) :
    Absorbs S (as.mapM f) (as.mapM f) r := by
  induction as generalizing r with
  | nil => exact spans_pure hS.nil
  | cons a as ih =>
    rw [List.mapM_cons]
    exact Absorbs.bind hS (hf a r) fun _ _ _ => Absorbs.bind hS ih fun _ _ _ => spans_pure hS.nil

theorem nested_elementwise (target : Expr) (elements : List Expr) (loc : Nat) :
    Absorbs Nested (elementwise target elements loc) (elementwise target elements loc) r := by
  refine spans_ite (fun _ => nested_pure) fun _ => ?_
  exact Absorbs.bind joins_nested
    (absorbs_mapM joins_nested (fun _ _ => absorbs_indexed joins_nested _ _ _) _)
    fun _ _ _ => nested_pure

theorem nested_initialAssignment (id : VarId) (ty : Ty) (isGlobal : Bool) (loc : Nat)
    (init : Initial) : Absorbs Nested (initialAssignment id ty isGlobal loc init)
      (initialAssignment id ty isGlobal loc init) r := by
  cases init with
  | value value => exact nested_pure
  | elements elements => exact spans_ite (fun _ => nested_elementwise _ _ _) fun _ => spans_refuse _ _
  | zero =>
    have hzero : Absorbs Nested (zeroValue ty loc) (zeroValue ty loc) r :=
      spans_ite
        (fun _ => Absorbs.bind joins_nested (absorbs_intern joins_nested "") fun _ _ _ => nested_pure)
        fun _ => nested_pure
    exact spans_ite (fun _ => nested_pure) fun _ =>
      Absorbs.bind joins_nested hzero fun _ _ _ => nested_pure

theorem nested_declarationRest (name : String) (ty : Ty) (loc : Nat) :
    Absorbs Nested
      (do
        let init ← initial
        endDeclaration init
        if let (.unknown, .zero) := (ty, init) then refuse (.typeOrInitializerMissing name) loc
        let isGlobal := (← get).scope.isNone
        let id ← declare name ty loc
        initialAssignment id ty isGlobal loc init)
      (do
        let init ← initial
        endDeclaration init
        if let (.unknown, .zero) := (ty, init) then refuse (.typeOrInitializerMissing name) loc
        let isGlobal := (← get).scope.isNone
        let id ← declare name ty loc
        initialAssignment id ty isGlobal loc init) r := by
  refine Absorbs.bind joins_nested nested_initial fun init r _ => ?_
  refine Absorbs.bind joins_nested (nested_endDeclaration init) fun _ r _ => ?_
  dsimp only
  split
  · exact spans_refuse_bind _ _
  · refine spans_get_bind (fun _ _ => rfl) ?_
    exact Absorbs.bind joins_nested (absorbs_declare joins_nested name ty loc) fun id _ _ =>
      nested_initialAssignment id ty _ loc init

theorem nested_declaration : Absorbs Nested declaration declaration r := by
  refine nested_expect_bind (by decide) fun _ r => ?_
  refine Absorbs.bind joins_nested flat_identifier.nested fun ⟨name, loc⟩ r _ => ?_
  refine Absorbs.bind joins_nested (absorbs_typeAhead joins_nested) fun typed r _ => ?_
  cases typed with
  | true =>
    exact Absorbs.bind joins_nested flat_type.nested fun ty _ _ => nested_declarationRest name ty loc
  | false => exact nested_declarationRest name .unknown loc

/-! ## Simple statements -/

theorem flat_exprs : Absorbs Flat (commaList expression) (commaList expression) r :=
  flat_commaList fun _ => flat_expression

theorem flat_shortDeclaration : Absorbs Flat shortDeclaration shortDeclaration r := by
  refine Absorbs.bind joins_flat (flat_commaList fun _ => flat_identifier) fun names r _ => ?_
  refine flat_expect_bind (by decide) fun loc r => ?_
  refine Absorbs.bind joins_flat flat_exprs fun values r _ => ?_
  refine Absorbs.bind joins_flat (absorbs_mapM joins_flat (fun name r => ?_) names) fun _ _ _ =>
    spans_pure joins_flat.nil
  exact Absorbs.bind joins_flat (absorbs_declare joins_flat _ _ _) fun _ _ _ => spans_pure joins_flat.nil

theorem flat_checkTarget (target : Expr) : Absorbs Flat (checkTarget target) (checkTarget target) r := by
  have hlvalue (r : Reading) : Absorbs Flat
      (if !target.isLvalue then refuse .notAssignable target.loc else pure ())
      (if !target.isLvalue then refuse .notAssignable target.loc else pure ()) r :=
    spans_ite (fun _ => spans_refuse _ _) fun _ => spans_pure joins_flat.nil
  unfold checkTarget
  dsimp only
  split
  · refine Absorbs.bind joins_flat (absorbs_variableOf joins_flat _) fun v r _ => ?_
    exact spans_ite (fun _ => spans_refuse_bind _ _) fun _ => hlvalue r
  · exact hlvalue r

theorem flat_assignmentOrExpression :
    Absorbs Flat assignmentOrExpression assignmentOrExpression r := by
  refine Absorbs.bind joins_flat flat_exprs fun targets r _ => ?_
  refine spans_ahead_bind fun assigned _ => spans_ite (fun _ => ?_) fun _ => ?_
  · refine flat_expect_bind (by decide) fun loc r => ?_
    have hcheck (targets : List Expr) (r : Reading) :
        Absorbs Flat (targets.forM checkTarget) (targets.forM checkTarget) r := by
      induction targets generalizing r with
      | nil => exact spans_pure joins_flat.nil
      | cons target targets ih =>
        exact Absorbs.bind joins_flat (flat_checkTarget target) fun _ r _ => ih r
    refine Absorbs.bind joins_flat (hcheck targets r) fun _ r _ => ?_
    exact Absorbs.bind joins_flat flat_exprs fun _ _ _ => spans_pure joins_flat.nil
  · split
    · exact spans_pure joins_flat.nil
    · exact spans_unexpected _

/-- A short declaration is told by its **own tokens and a look ahead**. -/
theorem flat_simple : Absorbs Flat simple simple r := by
  have hrun (r : Reading) : simple.run r =
      if isShortDeclaration r.rest then shortDeclaration.run r else assignmentOrExpression.run r := by
    rw [simple, StateT.run_bind, StateT.run_get, pure_bind]
    split <;> rfl
  have hbranch {x : Parser Stmt} {short : Bool} (hx : Absorbs Flat x x r)
      (hshort : isShortDeclaration r.rest = short)
      (hsimple : ∀ r', isShortDeclaration r'.rest = short → simple.run r' = x.run r') :
      Absorbs Flat simple simple r := by
    intro a r' ha
    obtain ⟨taken, hrest, hflat, hstrings, hcomes⟩ := hx a r' (hsimple r hshort ▸ ha)
    refine ⟨taken, hrest, hflat, hstrings, fun rest strings hlook hprefix => ?_⟩
    have hshort' : isShortDeclaration (taken ++ rest) = short := by
      rw [← hshort, hrest, hlook.short]
    rw [ComesTo, hsimple (r.before (taken ++ rest) strings) hshort']
    exact hcomes rest strings hlook hprefix
  cases hshort : isShortDeclaration r.rest with
  | true =>
    refine hbranch flat_shortDeclaration hshort fun r' h => ?_
    rw [hrun, if_pos h]
  | false =>
    refine hbranch flat_assignmentOrExpression hshort fun r' h => ?_
    rw [hrun, if_neg (Bool.eq_false_iff.mp h)]

theorem flat_printing : Absorbs Flat printing printing r := by
  refine spans_here_bind fun loc => spans_peek_bind ?_
  cases hr : r.rest with
  | nil => exact spans_refuse _ _
  | cons t rest =>
    dsimp only [List.head?_cons, Option.bind_some]
    split
    · exact spans_refuse _ _
    · next printer hprinter =>
      have htext {text : String} (ht : t.text = text) : Printer.ofName? text = some printer :=
        ht ▸ hprinter
      have hother (text : String) (hnone : Printer.ofName? text = none) : t.is text = false := by
        by_contra his
        have hsome := htext (Token.is_iff.mp (Bool.eq_true_of_not_eq_false his)).2
        rw [hnone] at hsome
        cases hsome
      have ht : Flat [t] := List.forall_mem_singleton.mpr
        ⟨hother _ (by decide), hother _ (by decide), hother _ (by decide)⟩
      refine Absorbs.bind joins_flat (spans_advance hr ht) fun _ r _ => ?_
      refine flat_expect_bind (by decide) fun _ r => ?_
      exact Absorbs.bind joins_flat (flat_listUntil (by decide) fun _ => flat_expression)
        fun _ _ _ => spans_pure joins_flat.nil

/-! ## Statements that hold others -/

section Blocks

variable {statement statement' : Parser Stmt} {block block' : Parser (List Stmt)}

/-- The parsers read statements between braces, **whatever comes behind them**. -/
abbrev Blocks (x y : Parser (List Stmt)) : Prop :=
  ∀ r, Spans r (fun _ _ _ => True) (fun _ => Braced) x y

theorem blocks_braced (h : ∀ r, Absorbs Nested statement statement' r) :
    Blocks (braced statement) (braced statement') := by
  have hcloses : Concludes Nested (fun _ _ _ => True) fun _ : List Stmt => EndsWith "\x7d" Nested :=
    ⟨joins_nested, EndsWith.append joins_nested, fun h _ => h.looksLike (by decide) _ _⟩
  intro r
  refine Spans.bind spans_expect (Q := fun _ _ => EndsWith "\x7d" Nested) (fun _ r _ => ?_) ?_
    fun _ _ _ _ _ h _ => h.looksLike (by decide) _ _
  · refine hcloses.iterate (fun body r => ?_) []
    refine hcloses.acceptBind (fun r' => spans_pure fun t ht => EndsWith.singleton joins_nested ht) ?_
    refine hcloses.acceptBind (fun r' => spans_pure fun t ht => (flat_of_is ht (by decide)).nested) ?_
    exact hcloses.bind (h r) fun _ _ => hcloses.again _
  · rintro _ _ _ ts ⟨first, rfl, hfirst⟩ hts
    exact ⟨first, ts, rfl, hfirst, hts⟩

theorem Blocks.reads (h : Blocks block block') : Absorbs Nested block block' r :=
  (h r).mono (fun _ _ hts => hts.nested) fun _ _ _ _ => trivial

theorem nested_branchHead (loc : Nat) : Absorbs Nested (branchHead loc) (branchHead loc) r := by
  refine Absorbs.bind joins_nested flat_simple.nested fun first r _ => ?_
  refine nested_accept_bind (by decide) fun semicolon r => spans_ite (fun _ => ?_) fun _ => ?_
  · exact Absorbs.bind joins_nested flat_expression.nested fun _ _ _ => nested_pure
  · split
    · exact nested_pure
    · exact spans_refuse _ _

theorem nested_branch (h : Blocks block block') (loc : Nat) :
    Absorbs Nested (branch block loc) (branch block' loc) r := by
  refine spans_bounded fun n m => spans_depth (x := fun loc n => branchTo block loc n)
    (y := fun loc n => branchTo block' loc n) (fun _ => rfl) (fun _ => rfl)
    (fun n m ih loc r => ?_) n m loc
  refine Absorbs.bind joins_nested (nested_branchHead loc) fun ⟨init, cond⟩ r _ => ?_
  refine Absorbs.bind joins_nested h.reads fun body r _ => ?_
  refine nested_accept_bind (by decide) fun other r => spans_ite (fun _ => ?_) fun _ => nested_pure
  refine spans_here_bind fun elseLoc => ?_
  refine nested_accept_bind (by decide) fun again r => spans_ite (fun _ => ?_) fun _ => ?_
  · exact Absorbs.bind joins_nested (ih elseLoc r) fun _ _ _ => nested_pure
  · exact Absorbs.bind joins_nested h.reads fun _ _ _ => nested_pure

/-- A part that may be left out, with what comes after it in either case. -/
theorem nested_optional {α β : Type} {absent : Bool} {x y : Parser α} {a : α} {f g : α → Parser β}
    (hx : Absorbs Nested x y r) (hf : ∀ a r, Absorbs Nested (f a) (g a) r) :
    Absorbs Nested (if absent = true then pure a >>= f else x >>= f)
      (if absent = true then pure a >>= g else y >>= g) r :=
  spans_ite (fun _ => Absorbs.bind joins_nested nested_pure fun _ _ _ => hf _ _) fun _ =>
    Absorbs.bind joins_nested hx fun _ _ _ => hf _ _

theorem nested_someExpression : Absorbs Nested (some <$> expression) (some <$> expression) r := by
  rw [← bind_pure_comp]
  exact Absorbs.bind joins_nested flat_expression.nested fun _ _ _ => nested_pure

theorem nested_loopHead (loc : Nat) : Absorbs Nested (loopHead loc) (loopHead loc) r := by
  refine spans_ahead_bind fun endless _ => ?_
  refine spans_ite (fun _ => nested_pure) fun _ => spans_ahead_bind fun bare _ => ?_
  refine nested_optional flat_simple.nested fun first r => ?_
  refine nested_accept_bind (by decide) fun clauses r => spans_ite (fun _ => ?_) fun _ => ?_
  · refine spans_ahead_bind fun always _ => ?_
    refine nested_optional nested_someExpression fun cond r => ?_
    refine nested_expect_bind (by decide) fun _ r => spans_ahead_bind fun still _ => ?_
    exact nested_optional flat_simple.nested fun post r => nested_pure
  · split
    · exact nested_pure
    · exact spans_refuse _ _

theorem nested_loop (h : Blocks block block') (loc : Nat) :
    Absorbs Nested (loop block loc) (loop block' loc) r :=
  Absorbs.bind joins_nested (nested_loopHead loc) fun _ _ _ =>
    Absorbs.bind joins_nested h.reads fun _ _ _ => nested_pure

theorem nested_statementTo (n m : Nat) : Absorbs Nested (statementTo n) (statementTo m) r := by
  refine spans_depth (x := fun _ => statementTo) (y := fun _ => statementTo) (fun _ => rfl)
    (fun _ => rfl) (fun n m ih _ r => ?_) n m ()
  have hbraced := blocks_braced (ih ())
  have hend (st : Stmt) (r : Reading) :
      Absorbs Nested (do endStatement; return st) (do endStatement; return st) r :=
    Absorbs.bind joins_nested flat_endStatement.nested fun _ _ _ => nested_pure
  refine spans_here_bind fun loc => nested_accept_bind (by decide) fun isReturn r => ?_
  refine spans_ite (fun _ => ?_) fun _ => spans_ahead_bind fun isBlock _ => ?_
  · refine nested_atStatementEnd_bind fun bare => nested_optional nested_someExpression fun value r => ?_
    exact Absorbs.bind joins_nested flat_endStatement.nested fun _ _ _ => nested_pure
  refine spans_ite (fun _ => Absorbs.bind joins_nested hbraced.reads fun _ _ _ => nested_pure)
    fun _ => nested_accept_bind (by decide) fun isBranch r => ?_
  refine spans_ite (fun _ => nested_branch hbraced loc)
    fun _ => nested_accept_bind (by decide) fun isLoop r => ?_
  refine spans_ite (fun _ => nested_loop hbraced loc)
    fun _ => spans_ahead_bind fun isDeclaration _ => ?_
  refine spans_ite (fun _ => nested_declaration)
    fun _ => spans_aheadKind_bind fun isPrinting => ?_
  exact spans_ite (fun _ => Absorbs.bind joins_nested flat_printing.nested fun st r _ => hend st r)
    fun _ => Absorbs.bind joins_nested flat_simple.nested fun st r _ => hend st r

/-- **A block** is read whatever comes behind it. -/
theorem blocks_block : Blocks Grammar.block Grammar.block := fun _ =>
  spans_bounded fun n m => blocks_braced (fun _ => nested_statementTo n m) _

end Blocks

/-! ## Functions and the package -/

/-- What stands behind the name of a function: **no brace before its body**. -/
def Headed (ts : List Token) : Prop :=
  ∃ header body, ts = header ++ body ∧ Flat header ∧ Braced body

/-- The tokens of one function. -/
def OfFunction (ts : List Token) : Prop :=
  ∃ first tail, ts = first :: tail ∧ first.is "func" = true ∧ Headed tail

section Functions

variable {ts : List Token}

theorem Braced.looksLike (h : Braced ts) (rest rest' : List Token) :
    LooksLike (ts ++ rest) (ts ++ rest') := by
  obtain ⟨first, inner, rfl, -, hinner⟩ := h
  exact (hinner.looksLike (by decide) rest rest').append [first]

theorem Headed.looksLike (h : Headed ts) (rest rest' : List Token) :
    LooksLike (ts ++ rest) (ts ++ rest') := by
  obtain ⟨header, body, rfl, -, hbody⟩ := h
  rw [List.append_assoc, List.append_assoc]
  exact (hbody.looksLike rest rest').append header

theorem OfFunction.looksLike (h : OfFunction ts) (rest rest' : List Token) :
    LooksLike (ts ++ rest) (ts ++ rest') := by
  obtain ⟨first, tail, rfl, -, htail⟩ := h
  exact (htail.looksLike rest rest').append [first]

/-- The **brace that closes the first one** is the last token of a function. -/
theorem OfFunction.closing? (h : OfFunction ts) (rest : List Token) :
    closing? 0 (ts ++ rest) = some rest := by
  obtain ⟨first, _, rfl, hfirst, header, body, rfl, hheader, hbody⟩ := h
  have hopen : first.is "\x7b" = false := Token.is_eq_false_of_is hfirst (by decide)
  have hclose : first.is "\x7d" = false := Token.is_eq_false_of_is hfirst (by decide)
  rw [List.cons_append, Grammar.closing?, hopen, hclose, if_neg Bool.false_ne_true,
    if_neg Bool.false_ne_true, List.append_assoc, hheader.closing?, hbody.closing?, if_pos rfl]

/-- A function starts **at its first token only**. -/
theorem OfFunction.tail (h : OfFunction ts) : ∀ t ∈ ts.tail, t.is "func" = false := by
  obtain ⟨first, _, rfl, -, header, body, rfl, hheader, hbody⟩ := h
  exact (joins_nested.append hheader.nested hbody.nested).plain

/-- What belongs to the head of a function, before its body. -/
theorem spans_header {α β : Type} {x y : Parser α} {f g : α → Parser β} (h : Absorbs Flat x y r)
    (hf : ∀ a r', x.run r = .ok (a, r') →
      Spans r' (fun _ _ _ => True) (fun _ => Headed) (f a) (g a)) :
    Spans r (fun _ _ _ => True) (fun _ => Headed) (x >>= f) (y >>= g) := by
  refine Spans.bind h hf ?_ fun _ _ _ _ _ hts _ => hts.looksLike _ _
  rintro _ _ ts _ hts ⟨header, body, rfl, hheader, hbody⟩
  exact ⟨ts ++ header, body, (List.append_assoc _ _ _).symm, joins_flat.append hts hheader, hbody⟩

theorem flat_parameter : Absorbs Flat parameter parameter r := by
  refine Absorbs.bind joins_flat flat_identifier fun ⟨name, loc⟩ r _ => ?_
  refine Absorbs.bind joins_flat flat_type fun ty r _ => ?_
  exact spans_ite (fun _ => spans_refuse_bind _ _) fun _ => absorbs_declare joins_flat name ty loc

theorem spans_functionRest (name : String) (params : List VarId) (loc : Nat) :
    Spans r (fun _ _ _ => True) (fun _ => Headed)
      (do
        let body ← block
        let locals := (← get).scope.getD []
        modify fun r => { r with scope := none }
        return (⟨name, params, locals, body, 0, false, loc⟩ : Function))
      (do
        let body ← block
        let locals := (← get).scope.getD []
        modify fun r => { r with scope := none }
        return (⟨name, params, locals, body, 0, false, loc⟩ : Function)) := by
  refine Spans.bind (blocks_block r) (Q := fun _ _ ts => ts = []) (fun body r _ => ?_) ?_
    fun _ _ _ _ _ _ _ => trivial
  · exact spans_of_steady (fun _ _ => rfl) fun _ => rfl
  · rintro _ _ ts _ hts rfl
    rw [List.append_nil]
    exact ⟨[], ts, rfl, joins_flat.nil, hts⟩

/-- **A function** is read whatever comes behind it. -/
theorem spans_function (taken : List String) :
    Spans r (fun _ _ _ => True) (fun _ => OfFunction) (function taken) (function taken) := by
  refine Spans.bind spans_expect (Q := fun _ _ => Headed) (fun loc r _ => ?_) ?_
    fun _ _ _ _ _ hts _ => hts.looksLike _ _
  · refine spans_header flat_identifier fun ⟨name, nameLoc⟩ r _ => ?_
    refine spans_ite (fun _ => spans_refuse_bind _ _) fun _ => ?_
    refine spans_header (spans_of_steady (fun _ _ => rfl) fun _ => joins_flat.nil) fun _ r _ => ?_
    refine spans_header (flat_expect (by decide)) fun _ r _ => ?_
    refine spans_header (flat_listUntil (by decide) fun _ => flat_parameter) fun params r _ => ?_
    refine spans_header (absorbs_typeAhead joins_flat) fun typed r _ => ?_
    refine spans_ite (fun _ => spans_header flat_type fun _ r _ => ?_) fun _ => ?_
    · exact spans_functionRest name params loc
    · exact spans_functionRest name params loc
  · rintro _ _ _ tail ⟨first, rfl, hfirst⟩ htail
    exact ⟨first, tail, rfl, hfirst, htail⟩

/-- What a round of a package takes: **no start of a function, or a function**. -/
def OfRound (ts : List Token) : Prop :=
  (∀ t ∈ ts, t.is "func" = false) ∨ OfFunction ts

theorem spans_packageRound (d : Declared) :
    Spans r (fun _ => LooksLike) (fun _ => OfRound) (packageRound d) (packageRound d) := by
  have hnone : OfRound [] := .inl fun _ ht => absurd ht List.not_mem_nil
  refine spans_accept_bind (fun r' => spans_pure fun t ht => .inl ?_) ?_
    fun _ ts _ _ _ hlook => (hlook.append ts).head?
  · exact (flat_of_is ht (by decide)).nested.plain
  refine spans_atEnd_bind fun finished => spans_ite (fun _ => spans_pure hnone) fun _ => ?_
  refine spans_ahead_bind fun isFunction _ => spans_ite (fun _ => ?_) fun _ => ?_
  · refine Spans.bind (spans_function _) (Q := fun _ _ ts => ts = []) (fun _ _ _ => spans_pure rfl) ?_
      fun _ _ _ _ _ _ _ => trivial
    rintro _ _ ts _ hts rfl
    rw [List.append_nil]
    exact .inr hts
  refine spans_ahead_bind fun isVariable _ => spans_ite (fun _ => ?_) fun _ => spans_unexpected _
  refine Spans.mono (P := fun _ => Nested) ?_ (fun _ _ hts => .inl hts.plain) fun _ _ _ => id
  exact Absorbs.bind joins_nested nested_declaration fun _ _ _ => nested_pure

end Functions

end StackCompiler.Grammar
