import StackCompiler.Proofs.Grammar.Onward
import StackCompiler.Proofs.Grammar.Refusals

/-!
# Proofs/Grammar/Halting — reading stops, whatever the tokens are

Statements take tokens as expressions do, and blocks and chains of conditions nest behind a token.  So
reading stops for **every list of tokens** (`halts_ofTokens`), be they cut from a source or not: no
repetition and no step into the depth goes on without a token.  Only the source may be asked for a
place that it does not have, if there is a token that strays.
-/

namespace StackCompiler

namespace Grammar

variable {α β σ : Type} {r : Reading} {n : Nat}

/-! ## Simple statements -/

theorem Traces.suffix {x : Parser α} {es : α → List Expr} {ss : α → List Stmt} (h : Traces x es ss)
    (r : Reading) : Ensures x r fun _ r' => r'.rest <:+ r.rest :=
  (h r).mono fun _ _ hderives => hderives.suffix

theorem Advances.commaList {item : Parser α} (h : Advances item) : Advances (commaList item) :=
  advances_of_concurBelow fun n => concurBelow_commaList (h.concurBelow n)

theorem Advances.listUntil {item : Parser α} (h : Advances item) (close : String) :
    Advances (listUntil close item) :=
  advances_of_concurBelow fun n => concurBelow_listUntil close (h.concurBelow n)

/-- A step that takes a token, and **others behind it**. -/
theorem ensures_onward_bind {x : Parser α} {f : α → Parser β} (hx : Ensures x r fun _ r' => r.Onward r')
    (hf : ∀ a r', Ensures (f a) r' fun _ r'' => r''.rest <:+ r'.rest) :
    Ensures (x >>= f) r fun _ r' => r.Onward r' :=
  (ensures_bind _ _ _ _).mpr (hx.mono fun a r' hr' => (hf a r').mono fun _ _ => hr'.trans_suffix)

theorem ensures_accept_bind {text : String} {x y : Parser α} {Q : α → Reading → Prop}
    (htrue : ∀ r', r.Onward r' → Ensures x r' Q) (hfalse : Ensures y r Q) :
    Ensures (accept text >>= fun found => if found = true then x else y) r Q :=
  (concur_accept_bind (fun r' h => concur_self (htrue r' h)) (concur_self hfalse)).ensures

/-- A declaration takes **its keyword and its name**. -/
theorem advances_declaration : Advances declaration := by
  refine fun r => (ensures_declaration r).mono ?_
  rintro s r' ⟨d, hderives⟩
  have hnamed : r'.rest <:+ d.named.rest := d.rest_after ▸ hderives.suffix
  exact ⟨d.rest_eq ▸ hnamed.trans (List.suffix_append [d.keyword, d.name] _),
    by rw [d.rest_eq]; have := hnamed.length_le; simp only [List.length_cons]; omega⟩

theorem advances_shortDeclaration : Advances shortDeclaration := by
  refine fun r => ensures_onward_bind (advances_identifier.commaList r) fun names r₁ => ?_
  refine (ensures_bind _ _ _ _).mpr ((ensures_expect_onward _ r₁).mono fun loc r₂ hloc => ?_)
  refine (ensures_bind _ _ _ _).mpr ((advances_expression.commaList r₂).mono fun values r₃ hvalues => ?_)
  refine (ensures_bind _ _ _ _).mpr (((traces_mapM traces_target names).suffix r₃).mono
    fun targets r₄ htargets => ?_)
  exact (ensures_pure _ _ _).mpr (htargets.trans (hloc.trans hvalues).suffix)

theorem advances_assignmentOrExpression : Advances assignmentOrExpression := by
  refine fun r => ensures_onward_bind (advances_expression.commaList r) fun targets r₁ => ?_
  refine ensures_ahead_bind fun assigned => ?_
  cases assigned with
  | true =>
    refine (ensures_bind _ _ _ _).mpr ((ensures_expect_onward _ r₁).mono fun loc r₂ hloc => ?_)
    refine (ensures_bind _ _ _ _).mpr (((passes_forM passes_checkTarget targets).suffix r₂).mono
      fun _ r₃ hchecked => ?_)
    refine (ensures_bind _ _ _ _).mpr ((advances_expression.commaList r₃).mono fun values r₄ h => ?_)
    exact (ensures_pure _ _ _).mpr (h.suffix.trans (hchecked.trans hloc.suffix))
  | false =>
    simp only [Bool.false_eq_true, if_false]
    split
    · exact (ensures_pure _ _ _).mpr List.suffix_rfl
    · exact ensures_unexpected _

theorem advances_simple : Advances simple := by
  refine fun r => ensures_bind_of_run (StateT.run_get r) ?_
  split
  · exact advances_shortDeclaration r
  · exact advances_assignmentOrExpression r

theorem advances_printing : Advances printing := by
  refine fun r => ensures_printing fun printer t rest hr => ?_
  refine ensures_onward_bind (x := advance) (fun a r' hrun => ?_) fun _ r₁ => ?_
  · cases (run_advance hr).symm.trans hrun
    exact Reading.onward_of_cons hr
  refine (ensures_bind _ _ _ _).mpr ((ensures_expect_onward _ r₁).mono fun _ r₂ hopen => ?_)
  refine (ensures_bind _ _ _ _).mpr ((advances_expression.listUntil ")" r₂).mono fun args r₃ hargs => ?_)
  exact (ensures_pure _ _ _).mpr (hopen.trans hargs).suffix

/-- The look for a short declaration, with **another one** behind a name and a comma. -/
def lookOver (look : List Token → Bool) : List Token → Bool
  | name :: next :: rest =>
    name.kind == .ident && (next.is ":=" || (next.is "," && look rest))
  | _ => false

/-- The look ahead goes on only **further behind**. -/
theorem isShortDeclaration_look (ts : List Token) : isShortDeclaration ts =
    lookOver (fun ts' => decide (ts'.length < ts.length) && isShortDeclaration ts') ts := by
  match ts with
  | [] | [_] => rfl
  | name :: next :: rest =>
    have hlt : rest.length < (name :: next :: rest).length := by simp only [List.length_cons]; omega
    rw [isShortDeclaration, lookOver, decide_eq_true hlt, Bool.true_and]

/-! ## Statements that hold others -/

section Nested

variable {statement statement' : Parser Stmt} {body body' : Parser (List Stmt)}

/-- A round of statements between braces. -/
def bodyRound (statement : Parser Stmt) (body : List Stmt) :
    Parser (Round (List Stmt) (List Stmt)) := do
  if ← accept "\x7d" then return .done body
  if ← accept ";" then return .again body
  return .again (body ++ [← statement])

theorem braced_eq (statement : Parser Stmt) : braced statement = (do
    let _ ← expect "\x7b"
    iterate (bodyRound statement) []) :=
  rfl

theorem concur_bodyRound (h : ConcurBelow n statement statement') (body : List Stmt)
    (hr : r.rest.length < n) : Concur r (bodyRound statement body) (bodyRound statement' body)
      (RoundKept (fun _ r' => r.Onward r') fun _ r' => r.Onward r') :=
  concur_accept_bind (fun _ hclose => concur_pure hclose) <|
    concur_accept_bind (fun _ hblank => concur_pure hblank) <|
      (h r hr).bind fun _ _ hs => concur_pure hs

/-- Statements between braces stand **behind the first of these**. -/
theorem concurBelow_braced (h : ConcurBelow n statement statement') :
    ConcurBelow (n + 1) (braced statement) (braced statement') := by
  refine fun r hr => concur_bind (ensures_expect_onward _ r) fun _ r₁ hopen => ?_
  refine (concur_iterate (fun body r₂ hr₂ => ?_) []).mono fun _ _ => hopen.trans
  exact (concur_bodyRound h body (by have := hr₂.length_le; have := hopen.lt; omega)).mono
    fun _ _ => roundKept_onward hr₂

theorem Advances.repeated_bodyRound (h : Advances statement) : Repeated (bodyRound statement) :=
  fun body _ => (concur_bodyRound (h.concurBelow _) body (Nat.lt_succ_self _)).ensures.mono
    fun _ _ => roundKept_suffix

theorem advances_branchHead (loc : Nat) : Advances (branchHead loc) := by
  refine fun r => ensures_onward_bind (advances_simple r) fun first r₁ => ?_
  refine ensures_accept_bind (fun r₂ hmore => ?_) ?_
  · refine (ensures_bind _ _ _ _).mpr ((advances_expression r₂).mono fun cond r₃ hcond => ?_)
    exact (ensures_pure _ _ _).mpr (hmore.trans hcond).suffix
  · split
    · exact (ensures_pure _ _ _).mpr List.suffix_rfl
    · exact ensures_refuse _ _ _

/-- What follows `if`, over the condition that **the chain goes on with**. -/
def branchOver (block : Parser (List Stmt)) (chained : Nat → Parser Stmt) (loc : Nat) :
    Parser Stmt := do
  let (init, cond) ← branchHead loc
  let body ← block
  if ← accept "else" then
    let elseLoc ← here
    if ← accept "if" then
      return .branch init cond body (← chained elseLoc)
    else
      return .branch init cond body (.block (← block))
  else
    return .branch init cond body .empty

theorem branchTo_succ (block : Parser (List Stmt)) (loc depth : Nat) :
    branchTo block loc (depth + 1) =
      branchOver block (fun loc => branchTo block loc depth) loc :=
  rfl

theorem concurBelow_branchOver {chained chained' : Nat → Parser Stmt}
    (hbody : ConcurBelow (n + 1) body body')
    (hchained : ∀ loc, ConcurBelow n (chained loc) (chained' loc)) (loc : Nat) :
    ConcurBelow (n + 1) (branchOver body chained loc) (branchOver body' chained' loc) := by
  refine fun r hr => concur_bind (advances_branchHead loc r) fun ⟨init, cond⟩ r₁ hhead => ?_
  refine (hbody r₁ (hhead.lt.trans hr)).bind fun ss r₂ hss => ?_
  have hthere := hhead.trans hss
  refine concur_accept_bind (fun r₃ helse => ?_) (concur_pure hthere)
  refine concur_bind_of_run (run_here r₃) <| concur_accept_bind (fun r₄ hif => ?_) ?_
  · have hthere := hthere.trans (helse.trans hif)
    exact (hchained _ r₄ (by have := hthere.lt; omega)).bind fun _ _ h => concur_pure (hthere.trans h)
  · have hthere := hthere.trans helse
    exact (hbody r₃ (hthere.lt.trans hr)).bind fun _ _ h => concur_pure (hthere.trans h)

theorem concurBelow_branchTo (hbody : ConcurBelow n body body') (depth : Nat) :
    ∀ loc, ConcurBelow n (branchTo body loc depth) (branchTo body' loc depth) := by
  induction depth with
  | zero => exact fun _ r _ => concur_self (ensures_broken _ r)
  | succ depth ih =>
    intro loc r hr
    obtain ⟨m, rfl⟩ := Nat.exists_eq_succ_of_ne_zero hr.ne_bot
    exact concurBelow_branchOver hbody (fun loc => (ih loc).mono (Nat.le_succ m)) loc r hr

theorem Advances.branchTo (h : Advances body) (loc depth : Nat) : Advances (branchTo body loc depth) :=
  advances_of_concurBelow fun n => concurBelow_branchTo (h.concurBelow n) depth loc

theorem concurBelow_branch (hbody : ConcurBelow n body body') (loc : Nat) :
    ConcurBelow n (branch body loc) (branch body' loc) := fun r hr =>
  concur_bind_of_run (x := bound) rfl (concurBelow_branchTo hbody _ loc r hr)

/-- A chain of conditions goes on **behind a token**. -/
theorem run_branchTo_succ (h : Advances body) (loc depth : Nat) (r : Reading) :
    (branchTo body loc (depth + 1)).run r =
      (branchOver body (fun loc => behind r (branchTo body loc depth)) loc).run r := by
  rw [branchTo_succ]
  have hchained (loc : Nat) := (h.branchTo loc depth).concurBelow_behind r
  exact (concurBelow_branchOver (h.concurBelow _) hchained loc r (Nat.lt_succ_self _)).run_eq.symm

theorem concurBelow_loop (hbody : ConcurBelow n body body') (loc : Nat) :
    ConcurBelow n (loop body loc) (loop body' loc) := by
  refine fun r hr => concur_bind ((traces_loopHead loc).suffix r) fun ⟨init, cond, post⟩ r₁ hhead => ?_
  exact (hbody r₁ (hhead.length_le.trans_lt hr)).bind fun _ _ hss =>
    concur_pure (Reading.onward_of_suffix hhead hss)

/-- A statement over those that it holds. -/
def statementOver (statement : Parser Stmt) : Parser Stmt := do
  let loc ← here
  if ← accept "return" then
    let value ← if ← atStatementEnd then pure none else some <$> expression
    endStatement
    return .ret value loc
  if ← ahead "\x7b" then return .block (← braced statement)
  if ← accept "if" then return ← branch (braced statement) loc
  if ← accept "for" then return ← loop (braced statement) loc
  if ← ahead "var" then return ← declaration
  let statement ← if ← aheadKind .stdlib then printing else simple
  endStatement
  return statement

theorem statementTo_succ (depth : Nat) :
    statementTo (depth + 1) = statementOver (statementTo depth) :=
  rfl

/-- What follows `return` gives **no token back**. -/
theorem ensures_returned (loc : Nat) (r : Reading) : Ensures (do
    let value ← if ← atStatementEnd then pure none else some <$> expression
    endStatement
    return Stmt.ret value loc) r fun _ r' => r'.rest <:+ r.rest := by
  refine ensures_bind_of_run (x := atStatementEnd) rfl ?_
  refine (traces_optional traces_someExpression (fun _ => .nil) fun value r₂ hvalue => ?_)
  exact passes_endStatement.bind fun _ r₃ hend =>
    (ensures_pure _ _ _).mpr (hend.suffix.trans hvalue.suffix)

/-- A statement that **holds no others** takes a token. -/
theorem ensures_plain (r : Reading) : Ensures (do
    if ← ahead "var" then return ← declaration
    let statement ← if ← aheadKind .stdlib then printing else simple
    endStatement
    return statement) r fun _ r' => r.Onward r' := by
  refine ensures_ahead_bind fun isDeclaration => ?_
  cases isDeclaration with
  | true => exact advances_declaration r
  | false =>
  have hend (s : Stmt) (r₁ : Reading) : Ensures (do endStatement; return s) r₁ fun _ r' =>
      r'.rest <:+ r₁.rest :=
    passes_endStatement.bind fun _ _ h => (ensures_pure _ _ _).mpr h.suffix
  refine ensures_bind_of_run (x := aheadKind .stdlib) rfl ?_
  split
  · exact ensures_onward_bind (advances_printing r) hend
  · exact ensures_onward_bind (advances_simple r) hend

theorem concurBelow_statementOver (h : ConcurBelow n statement statement') :
    ConcurBelow (n + 1) (statementOver statement) (statementOver statement') := by
  intro r hr
  have hbraced : ConcurBelow (n + 1) (braced statement) (braced statement') := concurBelow_braced h
  refine concur_bind_of_run (run_here r) ?_
  refine concur_accept_bind (fun r₁ hreturn => ?_) ?_
  · exact concur_self ((ensures_returned _ r₁).mono fun _ _ => hreturn.trans_suffix)
  refine concur_bind_of_run (run_ahead _ r) ?_
  split
  · exact (hbraced r hr).bind fun _ _ hss => concur_pure hss
  refine concur_accept_bind (fun r₁ hif => ?_) ?_
  · exact (concurBelow_branch hbraced _ r₁ (hif.lt.trans hr)).mono fun _ _ => hif.trans
  refine concur_accept_bind (fun r₁ hfor => ?_) ?_
  · exact (concurBelow_loop hbraced _ r₁ (hfor.lt.trans hr)).mono fun _ _ => hfor.trans
  exact concur_self (ensures_plain r)

theorem advances_statementTo (depth : Nat) : Advances (statementTo depth) := by
  induction depth with
  | zero => exact fun r => ensures_broken _ r
  | succ depth ih =>
    exact advances_of_concurBelow fun n =>
      (concurBelow_statementOver (ih.concurBelow n)).mono (Nat.le_succ n)

theorem Advances.braced (h : Advances statement) : Advances (braced statement) :=
  advances_of_concurBelow fun n => (concurBelow_braced (h.concurBelow n)).mono (Nat.le_succ n)

/-- A block nests its statements **behind a token**. -/
theorem run_statementTo_succ (depth : Nat) (r : Reading) :
    (statementTo (depth + 1)).run r = (statementOver (behind r (statementTo depth))).run r := by
  rw [statementTo_succ]
  exact (run_behind (advances_statementTo depth) r fun _ => concurBelow_statementOver).symm

end Nested

/-! ## Packages -/

theorem advances_parameter : Advances parameter := by
  refine fun r => ensures_onward_bind (advances_identifier r) fun ⟨name, loc⟩ r₁ => ?_
  refine (ensures_bind _ _ _ _).mpr ((advances_type r₁).mono fun ty r₂ hty => ?_)
  dsimp only
  split
  · exact ensures_refuse_bind _ _ _ _
  · refine (ensures_declare name ty loc r₂).mono ?_
    rintro _ _ ⟨-, rfl⟩
    rw [Reading.listed_rest]
    exact hty.suffix

/-- A function is **a stretch of tokens** that starts with a keyword. -/
theorem advances_function (taken : List String) : Advances (function taken) := by
  intro r f r' hrun
  obtain ⟨stretch, hrest, ⟨first, tail, rfl, -⟩, -⟩ := spans_function taken f r' hrun
  rw [List.cons_append] at hrest
  exact ⟨hrest ▸ List.suffix_append (first :: tail) r'.rest, by
    rw [hrest]
    simp only [List.length_cons, List.length_append]
    omega⟩

/-- A round of a package takes **a separator, a function or a declaration**. -/
theorem repeated_packageRound : Repeated packageRound := by
  intro d r
  refine ensures_accept_bind (fun r₁ hblank => (ensures_pure _ _ _).mpr hblank) ?_
  refine ensures_bind_of_run (run_atEnd r) ?_
  split
  · exact (ensures_pure _ _ _).mpr List.suffix_rfl
  refine ensures_ahead_bind fun isFunction => ?_
  cases isFunction with
  | true =>
    exact (ensures_bind _ _ _ _).mpr ((advances_function _ r).mono fun _ _ hf =>
      (ensures_pure _ _ _).mpr hf)
  | false =>
  refine ensures_ahead_bind fun isDeclaration => ?_
  cases isDeclaration with
  | true =>
    exact (ensures_bind _ _ _ _).mpr (advances_declaration r |>.mono fun _ _ hs =>
      (ensures_pure _ _ _).mpr hs)
  | false => exact ensures_unexpected _

/-- What is left of the tokens is **the last of them**. -/
theorem ensures_package_suffix (r : Reading) : Ensures package r fun _ r' => r'.rest <:+ r.rest :=
  (ensures_derives_package r).mono fun _ _ h => h.1.suffix

/-! ## What takes tokens -/

/-- **Reading moves on**: what is repeated takes a token, each round of a repetition that is followed by
another one does, and each step into the depth may be refused where no token has been taken since. -/
structure MovesOn : Prop where
  identifier : Advances identifier
  parameter : Advances parameter
  expression : Advances expression
  inner (depth : Nat) : Advances (expressionOver (operandTo depth))
  operand (depth : Nat) : Advances (operandTo depth)
  type (depth : Nat) : Advances (typeTo depth)
  statement (depth : Nat) : Advances (statementTo depth)
  /-- Names or values with commas between them. -/
  commas {α : Type} {item : Parser α} (h : Advances item) :
    commaList item = iterate (commaRound item) [] ∧ Repeated (commaRound item)
  /-- Parameters, arguments or elements up to a bracket. -/
  lists {α : Type} {item : Parser α} (h : Advances item) (close : String) :
    listUntil close item = (do
      if ← accept close then return []
      iterate (listRound close item) []) ∧ Repeated (listRound close item)
  /-- Operands of a level, which are joined to one of the next level. -/
  levels {operand : Parser Expr} (h : Advances operand) (level : Level) :
    leftAssociated level operand = (operand >>= iterate (joining level operand)) ∧
      Repeated (joining level operand) ∧ Advances (leftAssociated level operand)
  /-- Positions in brackets. -/
  positions {inner : Parser Expr} (h : Advances inner) :
    postfixed inner = (primary inner >>= iterate (positioned inner)) ∧ Repeated (positioned inner)
  /-- Statements between braces. -/
  bodies {statement : Parser Stmt} (h : Advances statement) :
    braced statement = (do
      let _ ← expect "\x7b"
      iterate (bodyRound statement) []) ∧ Repeated (bodyRound statement)
  declarations : Repeated packageRound
  types (depth : Nat) (r : Reading) :
    (typeTo (depth + 1)).run r = (typeOver (behind r (typeTo depth))).run r
  /-- Signs in front, parentheses, positions and arguments. -/
  operands (depth : Nat) (r : Reading) :
    (operandTo (depth + 1)).run r = (operandOver (behind r (operandTo depth))).run r
  blocks (depth : Nat) (r : Reading) :
    (statementTo (depth + 1)).run r = (statementOver (behind r (statementTo depth))).run r
  /-- Conditions behind `else`. -/
  chains (inside loc depth : Nat) (r : Reading) :
    (branchTo (braced (statementTo inside)) loc (depth + 1)).run r =
      (branchOver (braced (statementTo inside))
        (fun loc => behind r (branchTo (braced (statementTo inside)) loc depth)) loc).run r
  looks (ts : List Token) : isShortDeclaration ts =
    lookOver (fun ts' => decide (ts'.length < ts.length) && isShortDeclaration ts') ts

theorem movesOn : MovesOn where
  identifier := advances_identifier
  parameter := advances_parameter
  expression := advances_expression
  inner depth := (advances_operandTo depth).expressionOver
  operand := advances_operandTo
  type := advances_typeTo
  statement := advances_statementTo
  commas h := ⟨commaList_eq _, h.repeated_commaRound⟩
  lists h close := ⟨listUntil_eq close _, h.repeated_listRound close⟩
  levels h level := ⟨leftAssociated_eq level _, h.repeated_joining level, h.leftAssociated level⟩
  positions h := ⟨postfixed_eq _, h.repeated_positioned⟩
  bodies h := ⟨braced_eq _, h.repeated_bodyRound⟩
  declarations := repeated_packageRound
  types := run_typeTo_succ
  operands := run_operandTo_succ
  blocks := run_statementTo_succ
  chains inside := run_branchTo_succ (advances_statementTo inside).braced
  looks := isShortDeclaration_look

end Grammar

/-! ## Every list of tokens -/

section Tokens

variable {source : List Char} {tokens : List Token}

/-- The end of the source **is no place that strays**. -/
theorem Strays.of_sourceEnd
    (h : Strays source (tokens ++ [.sourceEnd (Text.byteLength source)])) : Strays source tokens := by
  rcases h with hsize | ⟨t, ht, hstray⟩
  · exact .inl hsize
  rcases List.mem_append.mp ht with ht | ht
  · exact .inr ⟨t, ht, hstray⟩
  · obtain rfl := List.mem_singleton.mp ht
    have hend : Text.Boundary source (Text.byteLength source) := Text.boundary_byteLength source
    exact (hstray.elim (· hend) (· hend)).elim

/-- What is refused at a token **can be told**, unless the token strays. -/
theorem strays_of_report?_eq_none {d : Diagnostic}
    (hoffset : AtToken (tokens ++ [.sourceEnd (Text.byteLength source)]) d.offset)
    (h : d.report? source = none) : Strays source tokens := by
  have hnowhere : ¬Text.Boundary source d.offset := fun hplace => by
    obtain ⟨report, hreport⟩ := Diagnostic.exists_report? hplace
    rw [hreport] at h
    cases h
  rcases hoffset with hzero | ⟨t, ht, hloc⟩
  · exact absurd (hzero ▸ Text.boundary_zero source) hnowhere
  · exact .of_sourceEnd (.inr ⟨t, ht, .inl (hloc ▸ hnowhere)⟩)

/-- What stops reading **can be told**, or it lacks a place, since a token strays. -/
theorem StoppedAt.told {failure : Failure}
    (h : StoppedAt source (tokens ++ [.sourceEnd (Text.byteLength source)]) failure) :
    (∃ d report, failure = .refused d ∧ d.report? source = some report) ∨
      failure.report source = .error .noSuchPlace ∧ Strays source tokens := by
  rcases h with ⟨d, rfl, -, hoffset⟩ | ⟨rfl, hstrays⟩
  · cases hreport : d.report? source with
    | some report => exact .inl ⟨d, report, rfl, hreport⟩
    | none =>
      refine .inr ⟨?_, strays_of_report?_eq_none hoffset hreport⟩
      rw [Failure.report, hreport]
      rfl
  · exact .inr ⟨rfl, hstrays.of_sourceEnd⟩

/-- Reading stops with a program, with what can be told of a refusal, or for want of a place, and this
only if **a token strays**; what is left of the tokens are the last of them, and on the way reading
moves on. -/
structure Halts (source : List Char) (tokens : List Token) : Prop where
  outcome : (∃ p, Program.ofTokens source tokens = .ok p) ∨
    (∃ d report, Program.ofTokens source tokens = .error (.refused d) ∧
      d.report? source = some report) ∨
    (∃ failure, Program.ofTokens source tokens = .error failure ∧
      failure.report source = .error .noSuchPlace ∧ Strays source tokens)
  left : Ensures Grammar.package (.start source tokens) fun _ r => r.rest <:+ tokens
  moves : Grammar.MovesOn

/-- **Reading stops, whatever tokens it is given**: with or without an end, with numbers that have no
value, with unknown names, and with places that the source does not have. -/
theorem halts_ofTokens (source : List Char) (tokens : List Token) : Halts source tokens where
  outcome := by
    have hends : EndsAtToken source (tokens ++ [.sourceEnd (Text.byteLength source)]) :=
      .inr ⟨_, List.mem_append_right _ List.mem_cons_self, rfl⟩
    have hstops : Errs (Program.ofTokens source tokens) _ :=
      errs_ofTokens hends fun _ ht => List.mem_append_left _ ht
    cases h : Program.ofTokens source tokens with
    | ok p => exact .inl ⟨p, rfl⟩
    | error failure =>
      rcases (hstops failure h).told with ⟨d, report, rfl, hreport⟩ | ⟨hreport, hstrays⟩
      · exact .inr (.inl ⟨d, report, rfl, hreport⟩)
      · exact .inr (.inr ⟨failure, rfl, hreport, hstrays⟩)
  left := Grammar.ensures_package_suffix _
  moves := Grammar.movesOn

/-- A token inside of a character, and none for the end of the source: what is refused there **cannot be
told**. -/
example : ∃ failure, Program.ofTokens ['é'] [⟨.ident, "é", none, 1, 1⟩] = .error failure ∧
    failure.report ['é'] = .error .noSuchPlace :=
  ⟨.refused ⟨.unexpected (.token "package") "é", 1⟩, rfl, rfl⟩

end Tokens

end StackCompiler
