import StackCompiler.Proofs.Grammar.Rounds
import StackCompiler.Proofs.Syntax.Parts

/-!
# Proofs/Grammar/Derivations — the trees that tokens are read as

Every token that a parser takes, every string that it enters in the table and every node that it makes
is a step of a derivation (`Derives`): between two readings, trees have been made of what was there.
What the later stages ask of strings, of positions in arrays and of declarations is then shown **once
for each kind of step**, and not for each parser.
-/

namespace StackCompiler

/-- A literal position in a declared array lies **inside of it**, and what is a name is declared. -/
def Expr.BoundsRule (vars : List Variable) : Expr → Prop
  | .index (.var id _ _) position _ _ => ∃ v, vars[id]? = some v ∧ v.isPlaceholder = false ∧
      ∀ base len value ty loc, v.ty = .array base len → position = .num value ty loc →
        0 ≤ value.toInt ∧ value.toInt < len
  | _ => True

/-- The token is no string, and begins no declaration. -/
structure Token.IsCommon (t : Token) : Prop where
  kind_ne : t.kind ≠ .str
  not_var : t.is "var" = false

theorem Token.isCommon_of_is {t : Token} {text : String} (h : t.is text = true) (hne : text ≠ "var") :
    t.IsCommon := by
  obtain ⟨hkind, htext⟩ := Token.is_iff.mp h
  refine ⟨by rw [hkind]; exact nofun, Bool.eq_false_iff.mpr fun hvar => hne ?_⟩
  exact htext.symm.trans (Token.is_iff.mp hvar).2

theorem Token.isCommon_of_kind {t : Token} (hstr : t.kind ≠ .str) (h : t.kind ≠ .punctuator) :
    t.IsCommon :=
  ⟨hstr, Bool.eq_false_iff.mpr fun hvar => h (Token.is_iff.mp hvar).1⟩

namespace Grammar

/-! ## Declarations -/

/-- The expressions of what a declared variable starts with. -/
def Initial.exprs : Initial → List Expr
  | .zero => []
  | .value e => [e]
  | .elements es => es

/-- How the declaration is read that stands at `r` and comes to the statement: the keyword and the name,
the type if one is written, the initial value, and the end. -/
structure Declaring (r : Reading) (s : Stmt) (r' : Reading) where
  keyword : Token
  name : Token
  /-- Behind the name. -/
  named : Reading
  ty : Ty
  /-- Behind the type. -/
  typed : Reading
  init : Initial
  /-- Behind the initial value. -/
  begun : Reading
  /-- Behind the end of the declaration. -/
  ended : Reading
  run_eq : declaration.run r = .ok (s, r')
  rest_eq : r.rest = keyword :: name :: named.rest
  is_var : keyword.is "var" = true
  kind_eq : name.kind = .ident
  same : r.SameTables named
  written : type.run named = .ok (ty, typed) ∨
    ty = .unknown ∧ typed = named ∧ typeAhead.run named = .ok (false, named)
  init_eq : initial.run typed = .ok (init, begun)
  end_eq : (endDeclaration init).run begun = .ok ((), ended)
  assign_eq : (initialAssignment ended.vars.length ty ended.scope.isNone name.loc init).run
    ((ended.addVariable name.text ty name.loc false).listed ended.vars.length) = .ok (s, r')

/-! ## Derivations -/

/-- From the one reading to the other, these expressions and statements have been made of the tokens that
were taken; each of them **is to be a part** of another tree, or stands alone. -/
inductive Derives : Reading → List Expr → List Stmt → Reading → Prop
  | nil {r : Reading} : Derives r [] [] r
  | append {r r' r'' : Reading} {es es' : List Expr} {ss ss' : List Stmt} (h : Derives r es ss r')
      (h' : Derives r' es' ss' r'') : Derives r (es ++ es') (ss ++ ss') r''
  | perm {r r' : Reading} {es es' : List Expr} {ss ss' : List Stmt} (h : Derives r es ss r')
      (hes : es.Perm es') (hss : ss.Perm ss') : Derives r es' ss' r'
  | token {r r' : Reading} {t : Token} (hrest : r.rest = t :: r'.rest) (hsame : r.SameTables r')
      (ht : t.IsCommon) : Derives r [] [] r'
  /-- Variables are added, and none of them is an array. -/
  | named {r r' : Reading} (hrest : r'.rest = r.rest) (hstrings : r'.strings = r.strings)
      (hvars : r.vars <+: r'.vars) (hnew : ∀ (id : VarId) (v : Variable), r.vars.length ≤ id →
        r'.vars[id]? = some v → v.ty.isArray = false) : Derives r [] [] r'
  | str {r r' : Reading} {t : Token} (hrest : r.rest = t :: r'.rest) (hkind : t.kind = .str)
      (hvars : r'.vars = r.vars) (hstrings : r'.strings = interned r.strings t.body) :
      Derives r [.str (r.strings.idxOf t.body) .unknown t.loc] [] r'
  | node {r r' : Reading} {e : Expr} (h : Derives r e.parts [] r') (hstr : e.isStr = false)
      (hbounds : e.BoundsRule r'.vars) : Derives r [e] [] r'
  | stmt {r r' : Reading} {s : Stmt} (h : Derives r s.exprs s.parts r') : Derives r [] [s] r'
  | declared {r r' : Reading} {s : Stmt} (d : Declaring r s r')
      (h : Derives d.named d.init.exprs [] d.ended) : Derives r [] [s] r'
  | dropped {r r' : Reading} {es : List Expr} {ss : List Stmt} (h : Derives r es (.empty :: ss) r') :
      Derives r es ss r'

namespace Derives

variable {r r' r'' : Reading} {es : List Expr} {ss : List Stmt}

/-- Steps that make no trees, **in front** of others. -/
theorem after (h : Derives r' es ss r'') (h' : Derives r [] [] r') : Derives r es ss r'' :=
  h'.append h

/-- Steps that make no trees, **behind** others. -/
theorem passing (h : Derives r es ss r') (h' : Derives r' [] [] r'') : Derives r es ss r'' := by
  have happend := h.append h'
  rwa [List.append_nil, List.append_nil] at happend

/-- A token that is taken. -/
theorem taken {t : Token} {rest : List Token} (hr : r.rest = t :: rest) (ht : t.IsCommon) :
    Derives r [] [] { r with previous := some t, rest := rest } :=
  .token hr ⟨rfl, rfl, rfl, rfl⟩ ht

end Derives

/-! ## Taking tokens -/

section Walk

variable {α β σ : Type} {r : Reading} {Q : α → Reading → Prop}

/-- What the parser makes its result of are those expressions and statements. -/
def Traces (x : Parser α) (es : α → List Expr) (ss : α → List Stmt) : Prop :=
  ∀ r, Ensures x r fun a r' => Derives r (es a) (ss a) r'

/-- The parser makes no trees. -/
abbrev Passes (x : Parser α) : Prop :=
  Traces x (fun _ => []) fun _ => []

theorem Traces.congr {x : Parser α} {es es' : α → List Expr} {ss ss' : α → List Stmt}
    (h : Traces x es ss) (hes : ∀ a, es a = es' a) (hss : ∀ a, ss a = ss' a) : Traces x es' ss' :=
  fun r => (h r).mono fun a _ ha => hes a ▸ hss a ▸ ha

theorem flatMap_none (as : List α) : as.flatMap (fun _ => ([] : List β)) = [] :=
  List.flatMap_eq_nil_iff.mpr fun _ _ => rfl

theorem Traces.bind {x : Parser β} {f : β → Parser α} {es : β → List Expr} {ss : β → List Stmt}
    (hx : Traces x es ss) (hf : ∀ b r', Derives r (es b) (ss b) r' → Ensures (f b) r' Q) :
    Ensures (x >>= f) r Q :=
  (ensures_bind x f r Q).mpr ((hx r).mono hf)

/-- A step that is known to succeed, and **what it comes to**. -/
theorem ensures_bind_of_run {x : Parser β} {f : β → Parser α} {b : β} {r' : Reading}
    (h : x.run r = .ok (b, r')) (hf : Ensures (f b) r' Q) : Ensures (x >>= f) r Q := by
  intro a r'' ha
  rw [run_bind_of_ok h] at ha
  exact hf a r'' ha

/-- A step with **the run that it is**. -/
theorem ensures_bind_run {x : Parser β} {f : β → Parser α}
    (hf : ∀ b r', x.run r = .ok (b, r') → Ensures (f b) r' Q) : Ensures (x >>= f) r Q :=
  (ensures_bind x f r Q).mpr hf

theorem derives_accept_bind {text : String} {f : Bool → Parser α} (hne : text ≠ "var")
    (htrue : ∀ r', Derives r [] [] r' → Ensures (f true) r' Q) (hfalse : Ensures (f false) r Q) :
    Ensures (accept text >>= f) r Q := by
  rcases run_accept_cases text r with ⟨t, rest, hr, ht, hrun⟩ | ⟨-, hrun⟩
  · exact ensures_bind_of_run hrun (htrue _ (.taken hr (Token.isCommon_of_is ht hne)))
  · exact ensures_bind_of_run hrun hfalse

theorem ensures_here_bind {f : Nat → Parser α} (hf : Ensures (f r.stop) r Q) :
    Ensures (here >>= f) r Q :=
  ensures_bind_of_run (run_here r) hf

theorem ensures_ahead_bind {text : String} {f : Bool → Parser α} (hf : ∀ found, Ensures (f found) r Q) :
    Ensures (ahead text >>= f) r Q :=
  ensures_bind_of_run (run_ahead text r) (hf _)

theorem ensures_peek_bind {f : Option Token → Parser α} (hf : Ensures (f r.rest.head?) r Q) :
    Ensures (peek >>= f) r Q :=
  ensures_bind_of_run (x := peek) rfl hf

theorem ensures_unexpected (expected : Expected) : Ensures (unexpected expected : Parser α) r Q :=
  ensures_peek_bind (ensures_here_bind (ensures_refuse _ _ _))

/-- The punctuator that is expected is **the next token**. -/
theorem ensures_expected (text : String) (r : Reading) : Ensures (expect text) r fun _ r' =>
    ∃ t, r.rest = t :: r'.rest ∧ t.is text = true ∧ r.SameTables r' := by
  refine ensures_here_bind ?_
  rcases run_accept_cases text r with ⟨t, rest, hr, ht, hrun⟩ | ⟨-, hrun⟩
  · exact ensures_bind_of_run hrun ((ensures_pure _ _ _).mpr ⟨t, hr, ht, rfl, rfl, rfl, rfl⟩)
  · exact ensures_bind_of_run hrun (ensures_unexpected _)

theorem passes_expect {text : String} (hne : text ≠ "var") : Passes (expect text) := fun r =>
  (ensures_expected text r).mono fun _ _ ⟨_, hrest, ht, hsame⟩ =>
    .token hrest hsame (Token.isCommon_of_is ht hne)

/-- An identifier is **the next token**. -/
theorem ensures_named (r : Reading) : Ensures identifier r fun x r' =>
    ∃ t, r.rest = t :: r'.rest ∧ t.kind = .ident ∧ x = (t.text, t.loc) ∧ r.SameTables r' := by
  intro x r' hrun
  obtain ⟨t, rest, hr, ht⟩ := exists_ident_of_run hrun
  cases (run_identifier hr ht).symm.trans hrun
  exact ⟨t, hr, ht, rfl, rfl, rfl, rfl, rfl⟩

theorem passes_identifier : Passes identifier := fun r =>
  (ensures_named r).mono fun _ _ ⟨_, hrest, hkind, _, hsame⟩ =>
    .token hrest hsame (Token.isCommon_of_kind (by rw [hkind]; exact nofun) (by rw [hkind]; exact nofun))

theorem passes_number : Passes number := by
  intro r
  refine ensures_peek_bind ?_
  cases hr : r.rest with
  | nil => exact ensures_unexpected _
  | cons t rest =>
    obtain ⟨kind, text, value, loc, len⟩ := t
    cases kind with
    | num =>
      cases value with
      | none => exact ensures_refuse _ _ _
      | some value =>
        exact ensures_bind_of_run (run_advance hr)
          ((ensures_pure _ _ _).mpr (.taken hr (Token.isCommon_of_kind nofun nofun)))
    | _ => exact ensures_unexpected _

theorem passes_atLineStart : Passes atLineStart := by
  intro r
  unfold atLineStart
  refine ensures_bind_of_run (StateT.run_get r) ?_
  split
  · exact (ensures_pure _ _ _).mpr .nil
  · refine ensures_here_bind ?_
    repeat' split
    all_goals first
      | exact ensures_broken _ _
      | exact (ensures_pure _ _ _).mpr .nil

/-! ## Repetition -/

theorem passes_bounded {x : Nat → Parser α} {es : α → List Expr} {ss : α → List Stmt}
    (h : ∀ n, Traces (x n) es ss) : Traces (bounded x) es ss := by
  intro r
  unfold bounded bound
  simp only [ensures_bind, ensures_get, ensures_pure]
  exact h _ r

/-- Items with commas between them are made of **what each of them** is made of. -/
theorem traces_commaList {item : Parser α} {es : α → List Expr} {ss : α → List Stmt}
    (hitem : Traces item es ss) :
    Traces (commaList item) (fun as => as.flatMap es) fun as => as.flatMap ss := by
  intro r
  refine ensures_iterate (I := fun as r' => Derives r (as.flatMap es) (as.flatMap ss) r')
    (fun as r₁ h => ?_) .nil
  refine hitem.bind fun a r₂ ha => ?_
  have hall : Derives r ((as ++ [a]).flatMap es) ((as ++ [a]).flatMap ss) r₂ := by
    simpa using h.append ha
  exact derives_accept_bind (by decide) (fun r₃ hcomma => (ensures_pure _ _ _).mpr (hall.passing hcomma))
    ((ensures_pure _ _ _).mpr hall)

theorem traces_listUntil {close : String} (hclose : close ≠ "var") {item : Parser α}
    {es : α → List Expr} {ss : α → List Stmt} (hitem : Traces item es ss) :
    Traces (listUntil close item) (fun as => as.flatMap es) fun as => as.flatMap ss := by
  intro r
  refine derives_accept_bind hclose (fun r₁ h => (ensures_pure _ _ _).mpr h) ?_
  refine ensures_iterate (I := fun as r' => Derives r (as.flatMap es) (as.flatMap ss) r')
    (fun as r₁ h => ?_) .nil
  refine hitem.bind fun a r₂ ha => ?_
  have hall : Derives r ((as ++ [a]).flatMap es) ((as ++ [a]).flatMap ss) r₂ := by
    simpa using h.append ha
  refine derives_accept_bind hclose (fun r₃ hend => (ensures_pure _ _ _).mpr (hall.passing hend)) ?_
  exact (passes_expect (by decide)).bind fun _ r₃ hcomma =>
    (ensures_pure _ _ _).mpr (hall.passing hcomma)

theorem passes_of_flatMap {x : Parser (List α)}
    (h : Traces x (fun as => as.flatMap fun _ => []) fun as => as.flatMap fun _ => []) : Passes x :=
  h.congr flatMap_none flatMap_none

theorem passes_commaList {item : Parser α} (hitem : Passes item) : Passes (commaList item) :=
  passes_of_flatMap (traces_commaList hitem)

theorem passes_listUntil {close : String} (hclose : close ≠ "var") {item : Parser α}
    (hitem : Passes item) : Passes (listUntil close item) :=
  passes_of_flatMap (traces_listUntil hclose hitem)

/-! ## Types -/

theorem passes_typeAhead_bind {f : Bool → Parser α} (hf : ∀ found, Ensures (f found) r Q) :
    Ensures (typeAhead >>= f) r Q :=
  ensures_bind_of_run (x := typeAhead) rfl (hf _)

theorem passes_namedType : Passes namedType := by
  intro r
  refine ensures_peek_bind ?_
  split
  · next t ht =>
    obtain ⟨rest, hr⟩ := List.head?_eq_some_iff.mp ht
    split
    · next hkind _ =>
      exact ensures_bind_of_run (run_advance hr) ((ensures_pure _ _ _).mpr
        (.taken hr (Token.isCommon_of_kind (by rw [hkind]; exact nofun) (by rw [hkind]; exact nofun))))
    · exact ensures_unexpected _
  · exact ensures_unexpected _

theorem passes_typeTo (depth : Nat) : Passes (typeTo depth) := by
  induction depth with
  | zero => exact fun r => ensures_broken _ r
  | succ depth ih =>
    intro r
    refine derives_accept_bind (by decide) (fun r₁ hstar => ?_) ?_
    · exact ih.bind fun _ r₂ hbase => (ensures_pure _ _ _).mpr (hbase.after hstar)
    refine derives_accept_bind (by decide) (fun r₁ hopen => ?_) (passes_namedType r)
    refine passes_number.bind fun ⟨len, loc⟩ r₂ hlen => ?_
    dsimp only
    split
    · exact ensures_refuse_bind _ _ _ _
    refine (passes_expect (by decide)).bind fun _ r₃ hclose => ih.bind fun base r₄ hbase => ?_
    unfold arrayType
    dsimp only
    split
    · exact (ensures_pure _ _ _).mpr (hbase.after ((hopen.append hlen).append hclose))
    · exact ensures_refuse _ _ _

theorem passes_type : Passes type :=
  passes_bounded passes_typeTo

/-! ## Names -/

/-- The variables with **one more**, which is no array. -/
theorem Derives.addVariable {name : String} {ty : Ty} (hty : ty.isArray = false) (loc : Nat)
    (placeholder : Bool) (r : Reading) : Derives r [] [] (r.addVariable name ty loc placeholder) := by
  refine .named rfl rfl (List.prefix_append _ _) fun id v hle hv => ?_
  rcases Reading.getElem?_addVariable hv with hv | ⟨-, rfl⟩
  · exact absurd (List.getElem?_eq_some_iff.mp hv).1 hle.not_gt
  · exact hty

theorem Reading.listed_vars (r : Reading) (id : VarId) : (r.listed id).vars = r.vars := by
  unfold Reading.listed
  split <;> rfl

theorem Reading.listed_rest (r : Reading) (id : VarId) : (r.listed id).rest = r.rest := by
  unfold Reading.listed
  split <;> rfl

theorem Reading.listed_strings (r : Reading) (id : VarId) : (r.listed id).strings = r.strings := by
  unfold Reading.listed
  split <;> rfl

/-- A declaration is **refused, or adds the variable**. -/
theorem ensures_declare (name : String) (ty : Ty) (loc : Nat) (r : Reading) :
    Ensures (declare name ty loc) r fun id r' => id = r.vars.length ∧
      r' = (r.addVariable name ty loc false).listed r.vars.length := by
  refine ensures_bind_of_run (StateT.run_get r) ?_
  split
  · exact ensures_refuse_bind _ _ _ _
  · refine (ensures_bind _ _ _ _).mpr ((ensures_set _ _ _).mpr ((ensures_pure _ _ _).mpr ?_))
    exact ⟨rfl, rfl⟩

theorem derives_declare {name : String} {ty : Ty} (hty : ty.isArray = false) (loc : Nat) :
    Passes (declare name ty loc) := by
  intro r
  refine (ensures_declare name ty loc r).mono ?_
  rintro _ _ ⟨-, rfl⟩
  have hadd : Derives r [] [] (r.addVariable name ty loc false) := .addVariable hty loc false r
  refine hadd.passing (.named (Reading.listed_rest _ _) (Reading.listed_strings _ _)
    (Reading.listed_vars _ _ ▸ List.prefix_rfl) fun id v hle hv => ?_)
  rw [Reading.listed_vars] at hv
  exact absurd (List.getElem?_eq_some_iff.mp hv).1 hle.not_gt

/-! ## Expressions -/

/-- The parser makes an expression. -/
abbrev TracesExpr (x : Parser Expr) : Prop :=
  Traces x (fun e => [e]) fun _ => []

/-- A node that is **no string and no position**, of its parts. -/
theorem Derives.plain {e : Expr} (h : Derives r e.parts [] r') (hstr : e.isStr = false)
    (hindex : ∀ base position ty loc, e ≠ .index base position ty loc) : Derives r [e] [] r' := by
  refine .node h hstr ?_
  cases e with
  | index => exact absurd rfl (hindex _ _ _ _)
  | _ => trivial

theorem Derives.num (value : Int64) (ty : Ty) (loc : Nat) (r : Reading) :
    Derives r [.num value ty loc] [] r :=
  .plain .nil rfl nofun

theorem Derives.var (id : VarId) (ty : Ty) (loc : Nat) (r : Reading) :
    Derives r [.var id ty loc] [] r :=
  .plain .nil rfl nofun

theorem traces_readName (name : String) (loc : Nat) : TracesExpr (readName name loc) := by
  intro r
  refine ensures_bind_of_run (StateT.run_get r) ?_
  split
  · exact (ensures_pure _ _ _).mpr (.var _ _ _ _)
  · simp only [ensures_bind, ensures_set, ensures_pure]
    exact (Derives.var _ _ _ _).after (.addVariable rfl loc true r)

theorem ensures_variableOf (id : VarId) (r : Reading) :
    Ensures (variableOf id) r fun v r' => r' = r ∧ r.vars[id]? = some v := by
  refine ensures_bind_of_run (StateT.run_get r) ?_
  split
  · next v hv => exact (ensures_pure _ _ _).mpr ⟨rfl, hv⟩
  · exact ensures_broken _ _

/-- A position that is accepted **lies inside of the array**, if both are known. -/
theorem ensures_indexed (base position : Expr) (loc : Nat) (r : Reading) :
    Ensures (indexed base position loc) r fun e r' => r' = r ∧
      e = .index base position .unknown loc ∧ e.BoundsRule r.vars := by
  unfold indexed
  split
  · next id ty baseLoc =>
    refine (ensures_bind _ _ _ _).mpr ((ensures_variableOf id r).mono ?_)
    rintro v r₀ ⟨rfl, hv⟩
    dsimp only
    split
    · exact ensures_refuse_bind _ _ _ _
    next hplaceholder =>
    have hrule (hinside : ∀ base len value ty loc, v.ty = .array base len →
        position = .num value ty loc → 0 ≤ value.toInt ∧ value.toInt < len) :
        (Expr.index (.var id ty baseLoc) position .unknown loc).BoundsRule r₀.vars :=
      ⟨v, hv, Bool.eq_false_iff.mpr hplaceholder, hinside⟩
    split
    · next _ element len value t at_ heq =>
      obtain ⟨hty, hposition⟩ := Prod.mk.inj heq
      split
      · exact ensures_refuse_bind _ _ _ _
      next hinside =>
      rw [Bool.or_eq_true, decide_eq_true_eq, decide_eq_true_eq, not_or, not_lt, not_le] at hinside
      refine (ensures_pure _ _ _).mpr ⟨rfl, rfl, hrule ?_⟩
      intro base' len' value' ty' loc' harray hposition'
      obtain ⟨-, rfl⟩ := Ty.array.inj (hty.symm.trans harray)
      obtain ⟨rfl, -⟩ := Expr.num.inj (hposition.symm.trans hposition')
      exact hinside
    · next hother =>
      refine (ensures_pure _ _ _).mpr ⟨rfl, rfl, hrule ?_⟩
      exact fun base len value ty loc harray hposition =>
        (hother base len value ty loc (by rw [harray, hposition])).elim
  · next hother =>
    refine (ensures_pure _ _ _).mpr ⟨rfl, rfl, ?_⟩
    cases base with
    | var id ty loc => exact (hother id ty loc rfl).elim
    | _ => trivial

variable {inner operand : Parser Expr}

/-- The parser makes a list of expressions. -/
abbrev TracesExprs (x : Parser (List Expr)) : Prop :=
  Traces x (fun es => es) fun _ => []

theorem traces_exprs {x : Parser (List Expr)}
    (h : Traces x (fun es => es.flatMap fun e => [e]) fun es => es.flatMap fun _ => []) :
    TracesExprs x :=
  h.congr List.flatMap_singleton' flatMap_none

theorem traces_exprsUntil {close : String} (hclose : close ≠ "var") (hinner : TracesExpr inner) :
    TracesExprs (listUntil close inner) :=
  traces_exprs (traces_listUntil hclose hinner)

theorem traces_exprList (hinner : TracesExpr inner) : TracesExprs (commaList inner) :=
  traces_exprs (traces_commaList hinner)

theorem traces_nameOrCall (hinner : TracesExpr inner) : TracesExpr (nameOrCall inner) := by
  intro r
  refine passes_identifier.bind fun ⟨name, loc⟩ r₁ hname => ?_
  refine derives_accept_bind (by decide) (fun r₂ hopen => ?_)
    ((traces_readName name loc r₁).mono fun _ _ h => h.after hname)
  refine (traces_exprsUntil (by decide) hinner).bind fun args r₃ hargs => ?_
  exact (ensures_pure _ _ _).mpr (.plain (hargs.after (hname.append hopen)) rfl nofun)

theorem traces_primary (hinner : TracesExpr inner) : TracesExpr (primary inner) := by
  intro r
  refine derives_accept_bind (by decide) (fun r₁ hopen => ?_) ?_
  · exact hinner.bind fun e r₂ he => (passes_expect (by decide)).bind fun _ r₃ hclose =>
      (ensures_pure _ _ _).mpr ((he.after hopen).passing hclose)
  refine ensures_peek_bind ?_
  split
  · exact ensures_here_bind (ensures_refuse _ _ _)
  next t ht =>
  obtain ⟨rest, hr⟩ := List.head?_eq_some_iff.mp ht
  split
  · exact passes_number.bind fun ⟨value, loc⟩ r₁ hnumber =>
      (ensures_pure _ _ _).mpr ((Derives.num _ _ _ _).after hnumber)
  · next hkind =>
    refine ensures_bind_of_run (run_advance hr) (ensures_bind_of_run (run_intern _ _) ?_)
    exact (ensures_pure _ _ _).mpr (.str hr hkind rfl rfl)
  · exact traces_nameOrCall hinner r
  · exact ensures_unexpected _

theorem traces_postfixed (hinner : TracesExpr inner) : TracesExpr (postfixed inner) := by
  intro r
  refine (traces_primary hinner).bind fun first r₁ hfirst => ?_
  refine ensures_iterate (I := fun base r' => Derives r [base] [] r') (fun base r₂ hbase => ?_) hfirst
  refine ensures_here_bind (derives_accept_bind (by decide) (fun r₃ hopen => ?_)
    ((ensures_pure _ _ _).mpr hbase))
  refine hinner.bind fun position r₄ hposition => (passes_expect (by decide)).bind fun _ r₅ hclose => ?_
  refine (ensures_bind _ _ _ _).mpr ((ensures_indexed base position _ r₅).mono ?_)
  rintro _ _ ⟨rfl, rfl, hrule⟩
  have hparts := hbase.append ((hposition.after hopen).passing hclose)
  exact (ensures_pure _ _ _).mpr (.node hparts rfl hrule)

theorem traces_leftAssociated {level : Level} (hlevel : ∀ o ∈ level, o.text ≠ "var")
    (hoperand : TracesExpr operand) : TracesExpr (leftAssociated level operand) := by
  intro r
  refine hoperand.bind fun first r₁ hfirst => ?_
  refine ensures_iterate (I := fun lhs r' => Derives r [lhs] [] r') (fun lhs r₂ hlhs => ?_) hfirst
  refine ensures_here_bind ?_
  unfold acceptOperator
  rw [bind_assoc]
  refine ensures_peek_bind ?_
  cases hfound : r₂.rest.head?.bind fun token => level.find? fun o => token.is o.text with
  | none => exact ensures_bind_of_run (x := pure none) rfl ((ensures_pure _ _ _).mpr hlhs)
  | some o =>
    obtain ⟨t, ht, hfind⟩ := Option.bind_eq_some_iff.mp hfound
    obtain ⟨rest, hr⟩ := List.head?_eq_some_iff.mp ht
    have htext : t.is o.text = true := by simpa using List.find?_some hfind
    have hcommon := Token.isCommon_of_is htext (hlevel o (List.mem_of_find?_eq_some hfind))
    rw [bind_assoc]
    refine ensures_bind_of_run (run_advance hr) (ensures_bind_of_run (x := pure (some o)) rfl ?_)
    refine hoperand.bind fun rhs r₃ hrhs => (ensures_pure _ _ _).mpr ?_
    have hparts : Derives r [lhs, rhs] [] r₃ := hlhs.append (hrhs.after (.taken hr hcommon))
    unfold LevelOperator.join
    split
    · exact .plain (hparts.perm (.swap _ _ _) .nil) rfl nofun
    · exact .plain hparts rfl nofun

theorem traces_expressionOver (hoperand : TracesExpr operand) :
    TracesExpr (expressionOver operand) := by
  have hall : ∀ level ∈ levels, ∀ o ∈ level, o.text ≠ "var" := by decide
  unfold expressionOver
  generalize levels = ls at hall
  induction ls with
  | nil => exact hoperand
  | cons level ls ih =>
    obtain ⟨hlevel, hls⟩ := List.forall_mem_cons.mp hall
    exact traces_leftAssociated hlevel (ih hls)

theorem traces_operandTo (depth : Nat) : TracesExpr (operandTo depth) := by
  induction depth with
  | zero => exact fun r => ensures_broken _ r
  | succ depth ih =>
    intro r
    refine ensures_here_bind (derives_accept_bind (by decide)
      (fun r₁ h => (ih r₁).mono fun _ _ he => he.after h) ?_)
    refine derives_accept_bind (by decide) (fun r₁ h => ih.bind fun e r₂ he => ?_) ?_
    · have hparts : Derives r [.num 0 .unknown r.stop, e] [] r₂ :=
        (Derives.num _ _ _ _).append (he.after h)
      exact (ensures_pure _ _ _).mpr (.plain hparts rfl nofun)
    refine derives_accept_bind (by decide) (fun r₁ h => ih.bind fun e r₂ he => ?_) ?_
    · split
      · exact (ensures_pure _ _ _).mpr (.plain (he.after h) rfl nofun)
      · exact ensures_refuse _ _ _
    refine derives_accept_bind (by decide) (fun r₁ h => ih.bind fun e r₂ he => ?_) ?_
    · exact (ensures_pure _ _ _).mpr (.plain (he.after h) rfl nofun)
    · exact traces_postfixed (traces_expressionOver ih) r

theorem traces_expression : TracesExpr expression :=
  passes_bounded fun depth => traces_expressionOver (traces_operandTo depth)

end Walk

end Grammar

end StackCompiler
