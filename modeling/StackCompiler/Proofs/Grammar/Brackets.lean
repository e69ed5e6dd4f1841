import StackCompiler.Proofs.Grammar.Declared
import StackCompiler.Proofs.Token.Brackets

/-!
# Proofs/Grammar/Brackets — what is read nests well

A parser that takes an opening bracket goes on until it has taken the one that closes it.  To follow
it through its steps one has to know **which brackets are open** before and behind each of them
(`Shifts`); whole expressions, types and statements leave those open that were open before them
(`Pairs`).  So a source that is read to its end is well nested (`wellNested_of_ofTokens`).
-/

namespace StackCompiler

namespace Grammar

variable {α β σ : Type}

/-! ## Readings -/

/-- From the one reading to the other tokens were taken that lead from the one stack of open brackets
to the other, but **not the end of the source**. -/
def Reading.Goes (r : Reading) (stack : List Bracket) (r' : Reading) (stack' : List Bracket) : Prop :=
  ∃ taken, r.rest = taken ++ r'.rest ∧ unclosed stack taken = some stack' ∧ ∀ t ∈ taken, t.kind ≠ .eof

namespace Reading.Goes

variable {r r' r'' : Reading} {stack stack' stack'' : List Bracket} {t : Token}

theorem of_rest_eq (h : r'.rest = r.rest) : r.Goes stack r' stack :=
  ⟨[], h.symm, rfl, nofun⟩

theorem trans (h : r.Goes stack r' stack') (h' : r'.Goes stack' r'' stack'') :
    r.Goes stack r'' stack'' := by
  obtain ⟨taken, hrest, hopen, hkinds⟩ := h
  obtain ⟨taken', hrest', hopen', hkinds'⟩ := h'
  refine ⟨taken ++ taken', ?_, ?_, List.forall_mem_append.mpr ⟨hkinds, hkinds'⟩⟩
  · rw [hrest, hrest', List.append_assoc]
  · rw [unclosed_append, hopen, Option.bind_some, hopen']

theorem of_cons (hr : r.rest = t :: r'.rest) (hkind : t.kind ≠ .eof)
    (hpass : t.pass stack = some stack') : r.Goes stack r' stack' :=
  ⟨[t], hr, by rw [unclosed_cons, hpass]; rfl, List.forall_mem_singleton.mpr hkind⟩

/-- A token that is **no punctuator** is taken. -/
theorem of_kind (hr : r.rest = t :: r'.rest) {kind : Token.Kind} (hkind : t.kind = kind)
    (hne : kind ≠ .punctuator ∧ kind ≠ .eof) : r.Goes stack r' stack :=
  .of_cons hr (hkind ▸ hne.2) (Token.pass_of_kind (hkind ▸ hne.1))

end Reading.Goes

/-- A punctuator of that text leads from the one stack to the other. -/
def Signs (text : String) (stack stack' : List Bracket) : Prop :=
  ∀ t : Token, t.is text = true → t.pass stack = some stack'

section Signs

variable {text : String} {b : Bracket} {stack : List Bracket}

theorem signs_plain (h : Bracket.opening? text = none ∧ Bracket.closing? text = none) :
    Signs text stack stack := fun _ ht =>
  Token.pass_plain (Token.opens?_of_is ht ▸ h.1) (Token.closes?_of_is ht ▸ h.2)

theorem signs_opening (h : Bracket.opening? text = some b) : Signs text stack (b :: stack) :=
  fun _ ht => Token.pass_of_opens (Token.opens?_of_is ht ▸ h)

theorem signs_closing (h : Bracket.closing? text = some b) : Signs text (b :: stack) stack :=
  fun _ ht => Token.pass_of_closes (Token.closes?_of_is ht ▸ h)

end Signs

/-! ## Parsers -/

/-- Where that stack is open before the parser, **its result tells what is open behind it**. -/
def Shifts (stack : List Bracket) (x : Parser α) (left : α → List Bracket) : Prop :=
  ∀ r, Ensures x r fun a r' => r.Goes stack r' (left a)

/-- What the parser opens **it closes**, and it closes nothing else. -/
abbrev Pairs (x : Parser α) : Prop :=
  ∀ stack, Shifts stack x fun _ => stack

section Shifts

variable {r : Reading} {stack stack' : List Bracket} {left : α → List Bracket}
  {left' : β → List Bracket} {x y : Parser α} {f : α → Parser β} {text : String} {t : Token}
  {rest : List Token}

/-- **One parser after the other.** -/
theorem Shifts.bind (hx : Shifts stack x left) (hf : ∀ a, Shifts (left a) (f a) left') :
    Shifts stack (x >>= f) left' := fun r =>
  (ensures_bind _ _ _ _).mpr ((hx r).mono fun a r' h => (hf a r').mono fun _ _ h' => h.trans h')

theorem shifts_pure {a : α} (h : left a = stack) : Shifts stack (pure a) left := fun _ =>
  (ensures_pure _ _ _).mpr (h ▸ .of_rest_eq rfl)

theorem shifts_ite {p : Prop} [Decidable p] (h : Shifts stack x left) (h' : Shifts stack y left) :
    Shifts stack (if p then x else y) left := by
  split
  · exact h
  · exact h'

theorem shifts_refuse (cause : Cause) (loc : Nat) : Shifts stack (refuse cause loc) left :=
  fun r => ensures_refuse cause loc r

theorem shifts_refuse_bind (cause : Cause) (loc : Nat) (g : β → Parser α) :
    Shifts stack (refuse cause loc >>= g) left :=
  fun r => ensures_refuse_bind cause loc g r

theorem shifts_broken (fault : Fault) : Shifts stack (broken fault) left :=
  fun r => ensures_broken fault r

theorem shifts_unexpected (expected : Expected) : Shifts stack (unexpected expected) left :=
  fun _ => ensures_unexpected expected

theorem shifts_get_bind {f : Reading → Parser α} (h : ∀ r, Shifts stack (f r) left) :
    Shifts stack (get >>= f) left :=
  fun r => ensures_bind_of_run (StateT.run_get r) (h r r)

theorem shifts_bounded {x : Nat → Parser α} (h : ∀ n, Shifts stack (x n) left) :
    Shifts stack (bounded x) left :=
  shifts_get_bind fun _ => h _

theorem pairs_pure (a : α) : Pairs (pure a) :=
  fun _ => shifts_pure rfl

theorem Pairs.bind (hx : Pairs x) (hf : ∀ a, Pairs (f a)) : Pairs (x >>= f) :=
  fun stack => (hx stack).bind fun a => hf a stack

/-- What **leaves the tokens alone** opens and closes no brackets. -/
theorem pairs_of_rest_eq (h : ∀ r, Ensures x r fun _ r' => r'.rest = r.rest) : Pairs x :=
  fun _ r => (h r).mono fun _ _ => .of_rest_eq

/-! ### Looks at the next token -/

theorem shifts_here_bind {f : Nat → Parser α} (h : ∀ loc, Shifts stack (f loc) left) :
    Shifts stack (here >>= f) left :=
  fun _ => ensures_here_bind (h _ _)

theorem shifts_ahead_bind {f : Bool → Parser α} (h : ∀ found, Shifts stack (f found) left) :
    Shifts stack (ahead text >>= f) left :=
  fun _ => ensures_ahead_bind fun found => h found _

theorem shifts_atEnd_bind {f : Bool → Parser α} (h : ∀ found, Shifts stack (f found) left) :
    Shifts stack (atEnd >>= f) left :=
  fun r => ensures_bind_of_run (run_atEnd r) (h _ r)

theorem pairs_atLineStart : Pairs atLineStart := by
  intro stack
  refine shifts_get_bind fun r => ?_
  split
  · exact shifts_pure rfl
  · refine shifts_here_bind fun stop => ?_
    repeat' split
    all_goals first
      | exact shifts_broken _
      | exact shifts_pure rfl

/-! ### Taking the next token -/

theorem ensures_goes_advance_bind {f : Unit → Parser α} (hr : r.rest = t :: rest)
    (hkind : t.kind ≠ .eof) (hpass : t.pass stack = some stack')
    (hf : Shifts stack' (f ()) left) :
    Ensures (advance >>= f) r fun a r' => r.Goes stack r' (left a) :=
  ensures_bind_of_run (run_advance hr)
    ((hf _).mono fun _ _ h => .trans (.of_cons hr hkind hpass) h)

theorem shifts_accept_bind (htext : Signs text stack stack') (htrue : Shifts stack' x left)
    (hfalse : Shifts stack y left) :
    Shifts stack (accept text >>= fun found => if found = true then x else y) left := by
  intro r
  rcases run_accept_cases text r with ⟨t, rest, hr, ht, hrun⟩ | ⟨-, hrun⟩
  · exact ensures_bind_of_run hrun ((htrue _).mono fun _ _ h =>
      .trans (.of_cons hr (Token.kind_ne_of_is ht) (htext t ht)) h)
  · exact ensures_bind_of_run hrun (hfalse r)

theorem shifts_expect (htext : Signs text stack stack') : Shifts stack (expect text) fun _ => stack' :=
  fun r => (ensures_expected text r).mono fun _ _ ⟨t, hrest, ht, _⟩ =>
    .of_cons hrest (Token.kind_ne_of_is ht) (htext t ht)

theorem pairs_identifier : Pairs identifier := fun _ r =>
  (ensures_named r).mono fun _ _ ⟨_, hrest, hkind, _, _⟩ => .of_kind hrest hkind (by decide)

theorem pairs_number : Pairs number := by
  intro stack r
  refine ensures_peek_bind ?_
  cases hr : r.rest with
  | nil => exact ensures_unexpected _
  | cons t rest =>
    obtain ⟨kind, text, value, loc, len⟩ := t
    cases kind with
    | num =>
      cases value with
      | none => exact ensures_refuse _ _ _
      | some value =>
        exact ensures_goes_advance_bind hr nofun (Token.pass_of_kind nofun) (shifts_pure rfl)
    | _ => exact ensures_unexpected _

end Shifts

/-! ## Repetition -/

/-- A round that is to be repeated leaves open **what was open before it**. -/
def Round.left (stack : List Bracket) (left : α → List Bracket) : Round σ α → List Bracket
  | .again _ => stack
  | .done a => left a

section Repetition

variable {stack : List Bracket} {left : α → List Bracket} {item : Parser α} {b : Bracket}

theorem shifts_iterate {round : σ → Parser (Round σ α)}
    (h : ∀ state, Shifts stack (round state) (Round.left stack left)) (state : σ) :
    Shifts stack (iterate round state) left := by
  intro r
  refine ensures_iterate (I := fun _ r' => r.Goes stack r' stack) (fun state r₁ h₁ => ?_)
    (.of_rest_eq rfl)
  refine (h state r₁).mono ?_
  rintro (state | a) r₂ h₂
  · exact h₁.trans h₂
  · exact h₁.trans h₂

theorem pairs_commaList (hitem : Pairs item) : Pairs (commaList item) := fun stack =>
  shifts_iterate (fun _ => (hitem stack).bind fun _ =>
    shifts_accept_bind (signs_plain (by decide)) (shifts_pure rfl) (shifts_pure rfl)) []

/-- A list behind an opening bracket goes on **up to the one that closes it**. -/
theorem shifts_listUntil {close : String} (hclose : Bracket.closing? close = some b)
    (hitem : Pairs item) : Shifts (b :: stack) (listUntil close item) fun _ => stack := by
  refine shifts_accept_bind (signs_closing hclose) (shifts_pure rfl) ?_
  refine shifts_iterate (fun _ => (hitem _).bind fun _ => ?_) []
  refine shifts_accept_bind (signs_closing hclose) (shifts_pure rfl) ?_
  exact (shifts_expect (signs_plain (by decide))).bind fun _ => shifts_pure rfl

theorem pairs_mapM {f : β → Parser α} (h : ∀ b, Pairs (f b)) (bs : List β) : Pairs (bs.mapM f) := by
  induction bs with
  | nil => exact pairs_pure _
  | cons b bs ih =>
    rw [List.mapM_cons]
    exact (h b).bind fun _ => ih.bind fun _ => pairs_pure _

theorem pairs_forM {f : β → Parser Unit} (h : ∀ b, Pairs (f b)) (bs : List β) :
    Pairs (bs.forM f) := by
  induction bs with
  | nil => exact pairs_pure _
  | cons b bs ih => exact (h b).bind fun _ => ih

end Repetition

/-! ## Types -/

theorem pairs_namedType : Pairs namedType := by
  intro stack r
  refine ensures_peek_bind ?_
  split
  next t ht =>
    obtain ⟨rest, hr⟩ := List.head?_eq_some_iff.mp ht
    split
    next hkind _ =>
      exact ensures_goes_advance_bind hr (hkind ▸ nofun) (Token.pass_of_kind (hkind ▸ nofun))
        (shifts_pure rfl)
    · exact ensures_unexpected _
  · exact ensures_unexpected _

theorem pairs_typeTo (depth : Nat) : Pairs (typeTo depth) := by
  induction depth with
  | zero => exact fun _ => shifts_broken _
  | succ depth ih =>
    intro stack
    refine shifts_accept_bind (signs_plain (by decide)) ((ih stack).bind fun _ => shifts_pure rfl) ?_
    refine shifts_accept_bind (signs_opening rfl) ?_ (pairs_namedType stack)
    refine (pairs_number _).bind fun ⟨len, loc⟩ => ?_
    dsimp only
    split
    · exact shifts_refuse_bind _ _ _
    refine (shifts_expect (signs_closing rfl)).bind fun _ => (ih stack).bind fun base => ?_
    exact shifts_ite (shifts_pure rfl) (shifts_refuse _ _)

theorem pairs_type : Pairs type :=
  fun stack => shifts_bounded fun depth => pairs_typeTo depth stack

/-! ## Names -/

theorem pairs_declare (name : String) (ty : Ty) (loc : Nat) : Pairs (declare name ty loc) :=
  pairs_of_rest_eq fun r => (ensures_declare name ty loc r).mono fun _ _ ⟨_, h⟩ =>
    h ▸ Reading.listed_rest _ _

theorem pairs_readName (name : String) (loc : Nat) : Pairs (readName name loc) := by
  refine pairs_of_rest_eq fun r => ensures_bind_of_run (StateT.run_get r) ?_
  split
  · exact (ensures_pure _ _ _).mpr rfl
  · simp only [ensures_bind, ensures_set, ensures_pure]
    rfl

theorem pairs_variableOf (id : VarId) : Pairs (variableOf id) :=
  pairs_of_rest_eq fun r => (ensures_variableOf id r).mono fun _ _ ⟨h, _⟩ => h ▸ rfl

theorem pairs_indexed (base position : Expr) (loc : Nat) : Pairs (indexed base position loc) :=
  pairs_of_rest_eq fun r => (ensures_indexed base position loc r).mono fun _ _ ⟨h, _⟩ => h ▸ rfl

theorem pairs_intern (s : String) : Pairs (intern s) :=
  pairs_of_rest_eq fun r a r' h => by
    cases (run_intern s r).symm.trans h
    rfl

/-! ## Expressions -/

section Expressions

variable {inner operand : Parser Expr} {b : Bracket} {stack : List Bracket}

theorem pairs_nameOrCall (hinner : Pairs inner) : Pairs (nameOrCall inner) := by
  intro stack
  refine (pairs_identifier stack).bind fun ⟨name, loc⟩ => ?_
  exact shifts_accept_bind (signs_opening rfl)
    ((shifts_listUntil rfl hinner).bind fun _ => shifts_pure rfl) (pairs_readName name loc stack)

theorem pairs_primary (hinner : Pairs inner) : Pairs (primary inner) := by
  intro stack
  refine shifts_accept_bind (signs_opening rfl) ?_ fun r => ensures_peek_bind ?_
  · exact (hinner _).bind fun _ => (shifts_expect (signs_closing rfl)).bind fun _ => shifts_pure rfl
  split
  · exact ensures_here_bind (ensures_refuse _ _ _)
  next t ht =>
  obtain ⟨rest, hr⟩ := List.head?_eq_some_iff.mp ht
  split
  · exact ((pairs_number stack).bind fun _ => shifts_pure rfl) r
  next hkind =>
    exact ensures_goes_advance_bind hr (hkind ▸ nofun) (Token.pass_of_kind (hkind ▸ nofun))
      ((pairs_intern _ stack).bind fun _ => shifts_pure rfl)
  · exact pairs_nameOrCall hinner stack r
  · exact ensures_unexpected _

theorem pairs_postfixed (hinner : Pairs inner) : Pairs (postfixed inner) := by
  intro stack
  refine (pairs_primary hinner stack).bind fun first => shifts_iterate (fun base => ?_) first
  refine shifts_here_bind fun loc => shifts_accept_bind (signs_opening rfl) ?_ (shifts_pure rfl)
  refine (hinner _).bind fun position => (shifts_expect (signs_closing rfl)).bind fun _ => ?_
  exact (pairs_indexed base position loc stack).bind fun _ => shifts_pure rfl

/-- No operator is a bracket. -/
def Level.Plain (level : Level) : Prop :=
  ∀ o ∈ level, Bracket.opening? o.text = none ∧ Bracket.closing? o.text = none

theorem pairs_acceptOperator {level : Level} (hlevel : level.Plain) :
    Pairs (acceptOperator level) := by
  intro stack r
  refine ensures_peek_bind ?_
  cases hfound : r.rest.head?.bind fun token => level.find? fun o => token.is o.text with
  | none => exact (ensures_pure _ _ _).mpr (.of_rest_eq rfl)
  | some o =>
    obtain ⟨t, ht, hfind⟩ := Option.bind_eq_some_iff.mp hfound
    obtain ⟨rest, hr⟩ := List.head?_eq_some_iff.mp ht
    have htext : t.is o.text = true := by simpa using List.find?_some hfind
    have hplain : Signs o.text stack stack := signs_plain (hlevel o (List.mem_of_find?_eq_some hfind))
    exact ensures_goes_advance_bind hr (Token.kind_ne_of_is htext) (hplain t htext) (shifts_pure rfl)

theorem pairs_leftAssociated {level : Level} (hlevel : level.Plain) (hoperand : Pairs operand) :
    Pairs (leftAssociated level operand) := by
  intro stack
  refine (hoperand stack).bind fun first => shifts_iterate (fun lhs => ?_) first
  refine shifts_here_bind fun loc => (pairs_acceptOperator hlevel stack).bind fun found => ?_
  cases found with
  | none => exact shifts_pure rfl
  | some o => exact (hoperand stack).bind fun _ => shifts_pure rfl

theorem pairs_expressionOver (hoperand : Pairs operand) : Pairs (expressionOver operand) := by
  have hall : ∀ level ∈ levels, level.Plain := by
    unfold Level.Plain
    decide
  unfold expressionOver
  generalize levels = ls at hall
  induction ls with
  | nil => exact hoperand
  | cons level ls ih =>
    obtain ⟨hlevel, hls⟩ := List.forall_mem_cons.mp hall
    exact pairs_leftAssociated hlevel (ih hls)

theorem pairs_operandTo (depth : Nat) : Pairs (operandTo depth) := by
  induction depth with
  | zero => exact fun _ => shifts_broken _
  | succ depth ih =>
    intro stack
    refine shifts_here_bind fun loc => ?_
    refine shifts_accept_bind (signs_plain (by decide)) (ih stack) ?_
    refine shifts_accept_bind (signs_plain (by decide)) ((ih stack).bind fun _ => shifts_pure rfl) ?_
    refine shifts_accept_bind (signs_plain (by decide)) ((ih stack).bind fun _ => ?_) ?_
    · exact shifts_ite (shifts_pure rfl) (shifts_refuse _ _)
    refine shifts_accept_bind (signs_plain (by decide)) ((ih stack).bind fun _ => shifts_pure rfl) ?_
    exact pairs_postfixed (pairs_expressionOver ih) stack

theorem pairs_expression : Pairs expression :=
  fun stack => shifts_bounded fun depth => pairs_expressionOver (pairs_operandTo depth) stack

end Expressions

/-! ## Declarations -/

theorem pairs_endStatement : Pairs endStatement := by
  intro stack
  refine shifts_accept_bind (signs_plain (by decide)) (shifts_pure rfl) ?_
  refine shifts_ahead_bind fun brace => shifts_atEnd_bind fun finished => ?_
  exact shifts_ite (shifts_pure rfl)
    ((shifts_expect (signs_plain (by decide))).bind fun _ => shifts_pure rfl)

theorem pairs_endDeclaration (init : Initial) : Pairs (endDeclaration init) := by
  intro stack
  cases init with
  | zero | value => exact pairs_endStatement stack
  | elements =>
    exact (pairs_atLineStart stack).bind fun _ =>
      shifts_ite (shifts_pure rfl) (pairs_endStatement stack)

theorem pairs_initial : Pairs initial := by
  intro stack
  refine shifts_accept_bind (signs_plain (by decide)) ?_ (shifts_pure rfl)
  refine shifts_accept_bind (signs_opening rfl) ?_ ?_
  · exact (shifts_listUntil rfl pairs_expression).bind fun _ => shifts_pure rfl
  · exact (pairs_expression stack).bind fun _ => shifts_pure rfl

theorem pairs_declaration : Pairs declaration := by
  intro stack r
  refine (ensures_declaration r).mono fun s r' ⟨d, _⟩ => ?_
  have hkeyword : r.Goes stack { d.named with rest := d.name :: d.named.rest } stack :=
    .of_cons d.rest_eq (Token.kind_ne_of_is d.is_var) (signs_plain (by decide) _ d.is_var)
  have hname : r.Goes stack d.named stack :=
    hkeyword.trans (.of_kind rfl d.kind_eq (by decide))
  have htype : d.named.Goes stack d.typed stack := by
    rcases d.written with htype | ⟨-, htyped, -⟩
    · exact pairs_type stack _ _ _ htype
    · exact .of_rest_eq (congrArg Reading.rest htyped)
  have hinit := pairs_initial stack _ _ _ d.init_eq
  have hend := pairs_endDeclaration d.init stack _ _ _ d.end_eq
  exact (((hname.trans htype).trans hinit).trans hend).trans (.of_rest_eq d.rest_after)

/-! ## Simple statements -/

theorem pairs_exprs : Pairs (commaList expression) :=
  pairs_commaList pairs_expression

theorem pairs_shortDeclaration : Pairs shortDeclaration := by
  intro stack
  refine (pairs_commaList pairs_identifier stack).bind fun names => ?_
  refine (shifts_expect (signs_plain (by decide))).bind fun loc => ?_
  refine (pairs_exprs stack).bind fun values => ?_
  refine (pairs_mapM (fun name => ?_) names stack).bind fun _ => shifts_pure rfl
  exact (pairs_declare _ _ _).bind fun _ => pairs_pure _

theorem pairs_checkTarget (target : Expr) : Pairs (checkTarget target) := by
  intro stack
  have hplace : Shifts stack (if (!target.isLvalue) = true then refuse .notAssignable target.loc
      else pure ()) fun _ => stack := shifts_ite (shifts_refuse _ _) (shifts_pure rfl)
  cases target with
  | var id ty loc =>
    refine (pairs_variableOf id stack).bind fun v => ?_
    dsimp only
    split
    · exact shifts_refuse_bind _ _ _
    · exact hplace
  | _ => exact hplace

theorem pairs_assignmentOrExpression : Pairs assignmentOrExpression := by
  intro stack
  refine (pairs_exprs stack).bind fun targets => shifts_ahead_bind fun assigned => ?_
  cases assigned with
  | true =>
    refine (shifts_expect (signs_plain (by decide))).bind fun loc => ?_
    refine (pairs_forM pairs_checkTarget targets stack).bind fun _ => ?_
    exact (pairs_exprs stack).bind fun _ => shifts_pure rfl
  | false =>
    simp only [Bool.false_eq_true, if_false]
    split
    · exact shifts_pure rfl
    · exact shifts_unexpected _

theorem pairs_simple : Pairs simple := fun stack =>
  shifts_get_bind fun _ => shifts_ite (pairs_shortDeclaration stack) (pairs_assignmentOrExpression stack)

/-- A printing statement begins with **a name of the library**. -/
theorem goes_printing {stack : List Bracket} {r : Reading}
    (hkind : ∀ t ∈ r.rest.head?, t.kind = .stdlib) :
    Ensures printing r fun _ r' => r.Goes stack r' stack := by
  refine ensures_printing fun printer t rest hr => ?_
  have hstdlib := hkind t (by rw [hr]; rfl)
  refine ensures_goes_advance_bind hr (hstdlib ▸ nofun) (Token.pass_of_kind (hstdlib ▸ nofun)) ?_
  refine (shifts_expect (signs_opening rfl)).bind fun _ => ?_
  exact (shifts_listUntil rfl pairs_expression).bind fun _ => shifts_pure rfl

/-! ## Statements that hold others -/

section Blocks

variable {statement : Parser Stmt} {body : Parser (List Stmt)} {stack : List Bracket}
  {left : α → List Bracket}

theorem pairs_braced (hstatement : Pairs statement) : Pairs (braced statement) := by
  intro stack
  refine (shifts_expect (signs_opening rfl)).bind fun _ => shifts_iterate (fun body => ?_) []
  refine shifts_accept_bind (signs_closing rfl) (shifts_pure rfl) ?_
  refine shifts_accept_bind (signs_plain (by decide)) (shifts_pure rfl) ?_
  exact (hstatement _).bind fun _ => shifts_pure rfl

theorem pairs_branchHead (loc : Nat) : Pairs (branchHead loc) := by
  intro stack
  refine (pairs_simple stack).bind fun first => shifts_accept_bind (signs_plain (by decide)) ?_ ?_
  · exact (pairs_expression stack).bind fun _ => shifts_pure rfl
  · split
    · exact shifts_pure rfl
    · exact shifts_refuse _ _

theorem pairs_branchTo (hbody : Pairs body) (depth : Nat) : ∀ loc, Pairs (branchTo body loc depth) := by
  induction depth with
  | zero => exact fun _ _ => shifts_broken _
  | succ depth ih =>
    intro loc stack
    refine (pairs_branchHead loc stack).bind fun ⟨init, cond⟩ => (hbody stack).bind fun ss => ?_
    refine shifts_accept_bind (signs_plain (by decide)) (shifts_here_bind fun elseLoc => ?_)
      (shifts_pure rfl)
    refine shifts_accept_bind (signs_plain (by decide)) ?_ ?_
    · exact (ih elseLoc stack).bind fun _ => shifts_pure rfl
    · exact (hbody stack).bind fun _ => shifts_pure rfl

theorem pairs_branch (hbody : Pairs body) (loc : Nat) : Pairs (branch body loc) :=
  fun stack => shifts_bounded fun depth => pairs_branchTo hbody depth loc stack

/-- A part that may be left out. -/
theorem shifts_optional {absent : Bool} {x : Parser β} {b : β} {f : β → Parser α} (hx : Pairs x)
    (hf : ∀ b, Shifts stack (f b) left) :
    Shifts stack (if absent = true then pure b >>= f else x >>= f) left :=
  shifts_ite ((pairs_pure b stack).bind hf) ((hx stack).bind hf)

theorem pairs_someExpression : Pairs (some <$> expression) := fun stack r =>
  (ensures_map _ _ _ _).mpr (pairs_expression stack r)

theorem pairs_loopHead (loc : Nat) : Pairs (loopHead loc) := by
  intro stack
  refine shifts_ahead_bind fun endless => shifts_ite (shifts_pure rfl) ?_
  refine shifts_ahead_bind fun _ => shifts_optional pairs_simple fun first => ?_
  refine shifts_accept_bind (signs_plain (by decide)) ?_ ?_
  · refine shifts_ahead_bind fun _ => shifts_optional pairs_someExpression fun cond => ?_
    refine (shifts_expect (signs_plain (by decide))).bind fun _ => shifts_ahead_bind fun _ => ?_
    exact shifts_optional pairs_simple fun _ => shifts_pure rfl
  · split
    · exact shifts_pure rfl
    · exact shifts_refuse _ _

theorem pairs_loop (hbody : Pairs body) (loc : Nat) : Pairs (loop body loc) := fun stack =>
  (pairs_loopHead loc stack).bind fun ⟨_, _, _⟩ => (hbody stack).bind fun _ => shifts_pure rfl

theorem pairs_statementTo (depth : Nat) : Pairs (statementTo depth) := by
  induction depth with
  | zero => exact fun _ => shifts_broken _
  | succ depth ih =>
    have hbraced : Pairs (braced (statementTo depth)) := pairs_braced ih
    intro stack
    refine shifts_here_bind fun loc => shifts_accept_bind (signs_plain (by decide)) ?_ ?_
    · intro r
      refine ensures_bind_of_run (x := atStatementEnd) rfl (shifts_optional pairs_someExpression ?_ r)
      exact fun value => (pairs_endStatement stack).bind fun _ => shifts_pure rfl
    refine shifts_ahead_bind fun isBlock => shifts_ite ?_ ?_
    · exact (hbraced stack).bind fun _ => shifts_pure rfl
    refine shifts_accept_bind (signs_plain (by decide)) (pairs_branch hbraced loc stack) ?_
    refine shifts_accept_bind (signs_plain (by decide)) (pairs_loop hbraced loc stack) ?_
    refine shifts_ahead_bind fun isDeclaration => shifts_ite (pairs_declaration stack) fun r => ?_
    have hend (s : Stmt) : Shifts stack (do endStatement; return s) fun _ => stack :=
      (pairs_endStatement stack).bind fun _ => shifts_pure rfl
    refine ensures_bind_of_run (x := aheadKind .stdlib) rfl ?_
    split
    next hstdlib =>
      refine (ensures_bind _ _ _ _).mpr ((goes_printing fun t ht => ?_).mono fun s r₁ h =>
        (hend s r₁).mono fun _ _ => h.trans)
      rw [Option.mem_def.mp ht] at hstdlib
      exact beq_iff_eq.mp hstdlib
    · exact ((pairs_simple stack).bind hend) r

theorem pairs_block : Pairs block :=
  fun stack => shifts_bounded fun depth => pairs_braced (pairs_statementTo depth) stack

end Blocks

/-! ## Packages -/

theorem pairs_parameter : Pairs parameter := by
  intro stack
  refine (pairs_identifier stack).bind fun ⟨name, loc⟩ => (pairs_type stack).bind fun ty => ?_
  dsimp only
  split
  · exact shifts_refuse_bind _ _ _
  · exact pairs_declare _ _ _ stack

theorem pairs_setScope (scope : Option (List VarId)) : Pairs (modify fun r => { r with scope }) :=
  pairs_of_rest_eq fun _ => (ensures_modify _ _ _).mpr rfl

theorem pairs_function (taken : List String) : Pairs (function taken) := by
  intro stack
  refine (shifts_expect (signs_plain (by decide))).bind fun loc => ?_
  refine (pairs_identifier stack).bind fun ⟨name, nameLoc⟩ => ?_
  dsimp only
  split
  · exact shifts_refuse_bind _ _ _
  refine (pairs_setScope _ stack).bind fun _ => ?_
  refine (shifts_expect (signs_opening rfl)).bind fun _ => ?_
  refine (shifts_listUntil rfl pairs_parameter).bind fun params r => ?_
  have hbody : Shifts stack (do
      let body ← block
      let locals := (← get).scope.getD []
      modify fun r => { r with scope := none }
      return (⟨name, params, locals, body, 0, false, loc⟩ : Function)) fun _ => stack :=
    (pairs_block stack).bind fun body => shifts_get_bind fun _ =>
      (pairs_setScope _ stack).bind fun _ => shifts_pure rfl
  refine ensures_bind_of_run (x := typeAhead) rfl ?_
  split
  · exact ((pairs_type stack).bind fun _ => hbody) r
  · exact hbody r

theorem pairs_packageRound (d : Declared) : Pairs (packageRound d) := by
  intro stack
  refine shifts_accept_bind (signs_plain (by decide)) (shifts_pure rfl) ?_
  refine shifts_atEnd_bind fun finished => shifts_ite (shifts_pure rfl) ?_
  refine shifts_ahead_bind fun isFunction => shifts_ite ?_ ?_
  · exact (pairs_function _ stack).bind fun _ => shifts_pure rfl
  refine shifts_ahead_bind fun isDeclaration => shifts_ite ?_ (shifts_unexpected _)
  exact (pairs_declaration stack).bind fun _ => shifts_pure rfl

/-- Whatever is read as a package **closes every bracket that it opens**. -/
theorem pairs_package : Pairs package := by
  intro stack
  refine (shifts_expect (signs_plain (by decide))).bind fun _ => ?_
  refine (pairs_identifier stack).bind fun ⟨name, loc⟩ => ?_
  refine (shifts_iterate (fun d r => (pairs_packageRound d stack r).mono ?_) _).bind fun _ =>
    shifts_get_bind fun _ => shifts_pure rfl
  rintro (d | d) r' h
  · exact h
  · exact h

end Grammar

/-! ## Programs -/

/-- **A source that is read is read to its end, and its brackets nest**: the tokens that were taken
are all those before the end of the source, and none of their brackets is left open or closed by one of
another kind. -/
theorem wellNested_of_ofTokens {source : List Char} {tokens : List Token} {p : Program}
    (htokens : tokenize source = .ok tokens) (h : Program.ofTokens source tokens = .ok p) :
    ∃ (taken : List Token) (last : Grammar.Reading),
      Grammar.package.run (.start source tokens) = .ok (p, last) ∧ tokens = taken ++ last.rest ∧
        last.rest = [.sourceEnd (Text.byteLength source)] ∧ (∀ t ∈ taken, t.kind ≠ .eof) ∧
          WellNested tokens := by
  obtain ⟨⟨p', last⟩, hrun, hp⟩ := bind_eq_ok_iff.mp h
  obtain rfl : p' = p := Except.ok.inj hp
  obtain ⟨taken, htaken, hclosed, hkinds⟩ := Grammar.pairs_package [] _ p' last hrun
  replace htaken : tokens = taken ++ last.rest := htaken
  have hend := (Grammar.ensures_derives_package _ p' last hrun).2.1
  obtain ⟨init, hinit, hunended⟩ := exists_concat_of_tokenize htokens
  have hall : ∀ t ∈ last.rest, t.kind = .eof := kind_of_mem_rest htokens htaken hend
  have hrest : last.rest = [.sourceEnd (Text.byteLength source)] := by
    rcases List.append_eq_append_iff.mp (htaken.symm.trans hinit) with ⟨more, hbegin, hmore⟩ |
      ⟨more, hbegin, hmore⟩
    · -- nothing but the end is left, and there is only one
      cases more with
      | nil => exact hmore
      | cons t more =>
        exact absurd (hall t (hmore ▸ List.mem_cons_self)) (hunended t (by simp [hbegin]))
    · -- the end itself is not taken
      cases more with
      | nil => exact hmore.symm
      | cons t more =>
        obtain ⟨rfl, -⟩ := List.cons.inj hmore
        exact absurd rfl (hkinds (.sourceEnd (Text.byteLength source)) (by simp [hbegin]))
  refine ⟨taken, last, hrun, htaken, hrest, hkinds, wellNested_iff.mpr ?_⟩
  rw [htaken, hrest, unclosed_append, hclosed]
  rfl

/-- Brackets of types, elements, parameters, calls, groups, positions, headers and bodies, **one inside
of the other**. -/
def textOfBrackets : String :=
  "package p; func f(a int) \x7b var s [2]int = \x7ba, (f(a))\x7d
  for a \x7b if (s[(a)]) \x7b \x7b print((s)[0]) \x7d \x7d \x7d \x7d"

/-- All **thirty** of them are closed in turn. -/
theorem wellNested_of_brackets :
    ∃ tokens p taken last, tokenize textOfBrackets.toList = .ok tokens ∧
      Program.ofTokens textOfBrackets.toList tokens = .ok p ∧
      (tokens.filter fun t => t.opens?.isSome || t.closes?.isSome).length = 30 ∧
      Grammar.package.run (.start textOfBrackets.toList tokens) = .ok (p, last) ∧
      tokens = taken ++ last.rest ∧
      last.rest = [.sourceEnd (Text.byteLength textOfBrackets.toList)] ∧
      (∀ t ∈ taken, t.kind ≠ .eof) ∧ WellNested tokens := by
  obtain ⟨tokens, htokens, hread⟩ := exists_ok_of_text (s := textOfBrackets) rfl (f := tokenize)
    (P := fun source tokens => (Program.ofTokens source tokens).toOption.any fun _ =>
      (tokens.filter fun t => t.opens?.isSome || t.closes?.isSome).length == 30) (by decide +kernel)
  obtain ⟨p, hp, hcount⟩ := exists_ok_of_any hread
  obtain ⟨taken, last, h⟩ := wellNested_of_ofTokens htokens hp
  exact ⟨tokens, p, taken, last, htokens, hp, beq_iff_eq.mp hcount, h⟩

end StackCompiler
