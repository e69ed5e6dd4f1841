import StackCompiler.Compilation
import StackCompiler.Proofs.Grammar.Formula

/-!
# Proofs/Grammar/Returning — a source that returns a formula is read as one

Around a formula the source of `mainReturning` is always the same, so its tokens are taken one by
one; what comes out is a program whose `main` **does nothing but return** what the formula means.
-/

namespace StackCompiler

/-- The token ends no statement. -/
structure Token.GoesOn (token : Token) : Prop where
  kind : token.kind ≠ .eof
  semicolon : token.is ";" = false
  brace : token.is "\x7d" = false

theorem Token.goesOn_of_is {token : Token} {text : String} (h : token.is text = true)
    (hne : text ≠ ";" ∧ text ≠ "\x7d") : token.GoesOn :=
  ⟨by rw [(Token.is_iff.mp h).1]; decide, Token.is_eq_false_of_is h hne.1,
    Token.is_eq_false_of_is h hne.2⟩

theorem Phrase.opens {n : Nat} {ts : List Token} {t : Formula} (h : Phrase n ts t) :
    ∃ token ts', ts = token :: ts' ∧ token.GoesOn := by
  induction h with
  | literal hkind =>
    exact ⟨_, _, rfl, by rw [hkind]; decide, by simp [Token.is, hkind], by simp [Token.is, hkind]⟩
  | group ho => exact ⟨_, _, rfl, Token.goesOn_of_is ho (by decide)⟩
  | positive hs | negative hs => exact ⟨_, _, rfl, Token.goesOn_of_is hs (by decide)⟩
  | joined sign _ _ _ ih =>
    obtain ⟨token, ts', rfl, hgoes⟩ := ih
    exact ⟨token, _, rfl, hgoes⟩
  | looser _ ih => exact ih

namespace Grammar

/-! ## Tests of the next token -/

section Tests

variable {r : Reading}

theorem ensures_aheadKind {kind : Token.Kind} {Q : Bool → Reading → Prop}
    (h : Q (r.rest.head?.any (·.kind == kind)) r) : Ensures (aheadKind kind) r Q := by
  unfold aheadKind peek
  simpa only [ensures_bind, ensures_get, ensures_pure] using h

theorem ensures_atEnd {Q : Bool → Reading → Prop} (h : Q (r.rest.head?.all (·.kind == .eof)) r) :
    Ensures atEnd r Q := by
  unfold atEnd peek
  simpa only [ensures_bind, ensures_get, ensures_pure] using h

theorem ensures_identifier {text : String} {loc len : Nat} {value : Option Int64}
    {rest : List Token} (hr : r.rest = ⟨.ident, text, value, loc, len⟩ :: rest)
    {Q : String × Nat → Reading → Prop} (h : ∀ r', r.Leaves rest r' → Q (text, loc) r') :
    Ensures identifier r Q := by
  unfold identifier peek
  simp only [ensures_bind, ensures_get, ensures_pure, hr, List.head?_cons]
  exact ensures_advance hr h

end Tests

/-! ## The statement -/

section Statement

variable {ts rest : List Token} {t : Formula} {r : Reading} {closing : Token}

theorem ensures_expression (h : Phrase 0 ts t) (hr : r.rest = ts ++ rest)
    (hcloses : Closes levels rest) :
    Ensures expression r fun e r' => e.Means t ∧ r.Leaves rest r' := by
  unfold expression bounded bound
  simp only [ensures_bind, ensures_get, ensures_pure]
  exact (readAs_of_phrase h).reads (Nat.zero_le _) _ rest r hr hcloses

theorem ensures_atStatementEnd {token : Token} (hr : r.rest = token :: rest) (hgoes : token.GoesOn)
    {Q : Bool → Reading → Prop} (h : Q false r) : Ensures atStatementEnd r Q := by
  unfold atStatementEnd
  rw [ensures_bind]
  refine ensures_ahead ?_
  rw [ensures_bind]
  refine ensures_ahead ?_
  rw [ensures_bind]
  refine ensures_atEnd ?_
  have hend : (token.kind == .eof) = false := beq_eq_false_iff_ne.mpr hgoes.kind
  rw [ensures_pure, hr, List.head?_cons, Option.any_some, Option.any_some, Option.all_some,
    hgoes.semicolon, hgoes.brace, hend]
  exact h

/-- A brace ends a statement, **and is left there**. -/
theorem ensures_endStatement (hr : r.rest = closing :: rest) (hclosing : closing.is "\x7d" = true)
    {Q : Unit → Reading → Prop} (h : Q () r) : Ensures endStatement r Q := by
  unfold endStatement
  refine ensures_unless hr (Token.is_eq_false_of_is hclosing (by decide)) ?_
  rw [ensures_bind]
  refine ensures_ahead ?_
  rw [ensures_bind]
  refine ensures_atEnd ?_
  rw [hr, List.head?_cons, Option.any_some, hclosing, Bool.true_or, if_pos rfl]
  exact (ensures_pure _ r Q).mpr h

/-- The statement returns what the formula means. -/
def IsReturn (t : Formula) (st : Stmt) : Prop :=
  ∃ e loc, st = .ret (some e) loc ∧ e.Means t

theorem ensures_return (h : Phrase 0 ts t) {token : Token} (htoken : token.is "return" = true)
    (hclosing : closing.is "\x7d" = true) (hr : r.rest = token :: (ts ++ closing :: rest))
    (depth : Nat) :
    Ensures (statementTo depth) r fun st r' => IsReturn t st ∧ r.Leaves (closing :: rest) r' := by
  cases depth with
  | zero => exact ensures_broken _ r
  | succ depth =>
    unfold statementTo
    rw [ensures_bind]
    refine ensures_here fun loc => ?_
    refine ensures_then hr htoken fun r₁ hr₁ => ?_
    obtain ⟨first, ts', rfl, hgoes⟩ := h.opens
    rw [ensures_bind]
    refine ensures_atStatementEnd hr₁.rest hgoes ?_
    dsimp only
    rw [if_neg Bool.false_ne_true, ensures_bind, ensures_map]
    refine (ensures_expression h hr₁.rest (closes_of_is hclosing (by decide))).mono
      fun e r₂ ⟨he, hr₂⟩ => ?_
    rw [ensures_bind]
    refine ensures_endStatement hr₂.rest hclosing ?_
    exact (ensures_pure _ r₂ _).mpr ⟨⟨e, loc, rfl, he⟩, hr₁.trans hr₂⟩

/-- A block holds **the one statement** in it. -/
theorem ensures_block (h : Phrase 0 ts t) {opening token : Token} (ho : opening.is "\x7b" = true)
    (htoken : token.is "return" = true) (hclosing : closing.is "\x7d" = true)
    (hr : r.rest = opening :: token :: (ts ++ closing :: rest)) :
    Ensures block r fun body r' => (∃ st, body = [st] ∧ IsReturn t st) ∧ r.Leaves rest r' := by
  unfold block bounded bound
  simp only [ensures_bind, ensures_get, ensures_pure]
  unfold braced
  rw [ensures_bind]
  refine ensures_expect hr ho fun _ r₁ hr₁ => ensures_iterate_of_rounds (ensures_rounds ?_)
  have hother {text : String} (hne : "return" ≠ text) :
      ∀ token ∈ r₁.rest.head?, token.is text = false := by
    rw [hr₁.rest]
    rintro _ ⟨⟩
    exact Token.is_eq_false_of_is htoken hne
  refine ensures_else (hother (by decide)) ?_
  refine ensures_else (hother (by decide)) ?_
  rw [ensures_bind]
  refine (ensures_return h htoken hclosing hr₁.rest _).mono ?_
  rintro st r₂ ⟨hst, hr₂⟩
  refine (ensures_pure _ r₂ _).mpr (ensures_rounds ?_)
  refine ensures_then hr₂.rest hclosing fun r₃ hr₃ => ?_
  exact (ensures_pure _ r₃ _).mpr ⟨⟨st, rfl, hst⟩, hr₁.trans (hr₂.trans hr₃)⟩

end Statement

/-! ## The function and the package -/

section Package

variable {ts rest : List Token} {t : Formula} {r : Reading} {closing : Token}

/-- The function is a `main` that returns what the formula means. -/
def IsMain (t : Formula) (f : Function) : Prop :=
  ∃ st loc, f = ⟨mainName, [], [], [st], 0, false, loc⟩ ∧ IsReturn t st

theorem ensures_type_name {text : String} {loc len : Nat} {value : Option Int64}
    (hr : r.rest = ⟨.typeName, text, value, loc, len⟩ :: rest) (hname : (Ty.ofName? text).isSome)
    {Q : Ty → Reading → Prop} (h : ∀ ty r', r.Leaves rest r' → Q ty r') :
    Ensures type r Q := by
  obtain ⟨ty, hty⟩ := Option.isSome_iff_exists.mp hname
  have hother {text : String} : ∀ token ∈ r.rest.head?, token.is text = false := by
    rw [hr]
    rintro _ ⟨⟩
    rfl
  unfold type bounded bound
  simp only [ensures_bind, ensures_get, ensures_pure]
  unfold typeTo
  refine ensures_else hother ?_
  refine ensures_else hother ?_
  unfold namedType peek
  simp only [ensures_bind, ensures_get, ensures_pure, hr, List.head?_cons, hty]
  exact ensures_advance hr (h ty)

theorem ensures_typeAhead_name {text : String} {loc len : Nat} {value : Option Int64}
    (hr : r.rest = ⟨.typeName, text, value, loc, len⟩ :: rest) {Q : Bool → Reading → Prop}
    (h : Q true r) : Ensures typeAhead r Q := by
  unfold typeAhead
  rw [ensures_bind]
  refine ensures_ahead ?_
  rw [ensures_bind]
  refine ensures_ahead ?_
  rw [ensures_bind]
  refine ensures_aheadKind ?_
  rw [ensures_pure, hr]
  exact h

/-- **A result type is read and dropped**, and the body is all there is of the function. -/
theorem ensures_main (h : Phrase 0 ts t) (hclosing : closing.is "\x7d" = true)
    (hr : r.rest = tokensBefore.drop 3 ++ (ts ++ closing :: rest)) :
    Ensures (function []) r fun f r' => IsMain t f ∧ r'.rest = rest := by
  unfold function
  rw [ensures_bind]
  refine ensures_expect hr rfl fun loc r₁ hr₁ => ?_
  rw [ensures_bind]
  refine ensures_identifier hr₁.rest fun r₂ hr₂ => ?_
  dsimp only
  rw [if_neg List.not_mem_nil, ensures_bind, ensures_modify, ensures_bind]
  refine ensures_expect (r := { r₂ with scope := some [] }) hr₂.rest rfl fun _ r₃ hr₃ => ?_
  rw [ensures_bind]
  unfold listUntil
  rw [ensures_bind]
  refine ensures_accept hr₃.rest rfl fun r₄ hr₄ => ?_
  rw [if_pos rfl, ensures_pure, ensures_bind]
  refine ensures_typeAhead_name hr₄.rest ?_
  rw [if_pos rfl, ensures_bind]
  refine ensures_type_name hr₄.rest rfl fun _ r₅ hr₅ => ?_
  rw [ensures_bind]
  refine (ensures_block h rfl rfl hclosing hr₅.rest).mono fun body r₆ ⟨⟨st, hbody, hst⟩, hr₆⟩ => ?_
  have hscope : r₆.scope = some [] :=
    hr₆.tables.scope.trans (hr₅.tables.scope.trans (hr₄.tables.scope.trans hr₃.tables.scope))
  rw [ensures_bind, ensures_get, ensures_bind, ensures_modify, ensures_pure, hscope, hbody]
  exact ⟨⟨st, loc, rfl, hst⟩, hr₆.rest⟩

/-! ### Rounds of the package -/

theorem ensures_packageRound_semicolon {declared : Declared} {token : Token}
    (hr : r.rest = token :: rest) (his : token.is ";" = true)
    {Q : Round Declared Declared → Reading → Prop}
    (h : ∀ r', r.Leaves rest r' → Q (.again declared) r') :
    Ensures (packageRound declared) r Q := by
  unfold packageRound
  refine ensures_then hr his fun r' hr' => ?_
  exact (ensures_pure _ r' Q).mpr (h r' hr')

theorem ensures_packageRound_main (hphrase : Phrase 0 ts t) (hclosing : closing.is "\x7d" = true)
    (hr : r.rest = tokensBefore.drop 3 ++ (ts ++ closing :: rest))
    {Q : Round Declared Declared → Reading → Prop}
    (h : ∀ f r', IsMain t f → r'.rest = rest → Q (.again ⟨[f], []⟩) r') :
    Ensures (packageRound ⟨[], []⟩) r Q := by
  unfold packageRound
  refine ensures_unless hr rfl ?_
  rw [ensures_bind]
  refine ensures_atEnd ?_
  rw [hr]
  change Ensures (ahead "func" >>= _) r Q
  rw [ensures_bind]
  refine ensures_ahead ?_
  rw [hr]
  change Ensures (function [] >>= _) r Q
  rw [ensures_bind]
  exact (ensures_main hphrase hclosing hr).mono fun f r' ⟨hf, hr'⟩ =>
    (ensures_pure _ r' Q).mpr (h f r' hf hr')

theorem ensures_packageRound_end {declared : Declared} {loc : Nat} (hr : r.rest = [.sourceEnd loc])
    {Q : Round Declared Declared → Reading → Prop} (h : Q (.done declared) r) :
    Ensures (packageRound declared) r Q := by
  unfold packageRound
  refine ensures_unless hr rfl ?_
  rw [ensures_bind]
  refine ensures_atEnd ?_
  rw [hr]
  exact (ensures_pure _ r Q).mpr h

/-! ### The package -/

/-- The program is the one function, behind the implicit one. -/
def IsReturning (t : Formula) (p : Program) : Prop :=
  p.package = "p" ∧ ∃ f, p.funcs = [implicitFunction [], f] ∧ IsMain t f

theorem ensures_returning (h : Phrase 0 ts t) (hclosing : closing.is "\x7d" = true) {loc : Nat}
    (hr : r.rest = tokensBefore ++ (ts ++ [closing, .sourceEnd loc])) :
    Ensures package r fun p _ => IsReturning t p := by
  unfold package
  rw [ensures_bind]
  refine ensures_expect hr rfl fun _ r₁ hr₁ => ?_
  rw [ensures_bind]
  refine ensures_identifier hr₁.rest fun r₂ hr₂ => ?_
  dsimp only
  rw [ensures_bind]
  refine ensures_iterate_of_rounds (ensures_rounds ?_)
  refine ensures_packageRound_semicolon hr₂.rest rfl fun r₃ hr₃ => ensures_rounds ?_
  refine ensures_packageRound_main h hclosing hr₃.rest fun f r₄ hf hr₄ => ensures_rounds ?_
  refine ensures_packageRound_end hr₄ ?_
  rw [EndsIn, ensures_bind, ensures_get, ensures_pure]
  exact ⟨rfl, f, rfl, hf⟩

end Package

end Grammar

/-- **A source that returns a formula is read as a program that does.** -/
theorem Spells.exists_tokens {s : List Char} {t : Formula} (h : Spells 0 s t) :
    ∃ tokens, tokensOf (mainReturning s) = .ok tokens ∧
      Yields (Program.ofTokens (mainReturning s) tokens) (Grammar.IsReturning t) := by
  obtain ⟨ts, loc, hts, htokens⟩ := h.tokenize_mainReturning
  refine ⟨_, congrArg (Except.mapError Failure.refused) htokens, ?_⟩
  unfold Program.ofTokens
  rw [yields_bind]
  exact (Grammar.ensures_returning (r := .start _ _) hts rfl rfl).run.mono fun r hr =>
    (yields_pure _ _).mpr hr

end StackCompiler
