import StackCompiler.Proofs.Rendering.Cutting
import StackCompiler.Proofs.Rendering.Reading

/-!
# Proofs/Rendering/RoundTrip — a tree is read back from its text

What is written of a tree is read as the tree, by the parser of its tier (`readsAt_of_writable`).  So
a text of it is cut into tokens from which **the tree comes back** (`expression_of_spaced`).
-/

namespace StackCompiler

namespace Grammar

variable {T : Reading} {n : Nat} {ts : List Token} {e : Expr} {token : Token} {loc : Nat}

/-! ## What is written of a tree -/

theorem exists_append_of_forall₂ {α β : Type} {R : α → β → Prop} {as as' : List α} {bs : List β}
    (h : List.Forall₂ R (as ++ as') bs) :
    ∃ cs cs', bs = cs ++ cs' ∧ List.Forall₂ R as cs ∧ List.Forall₂ R as' cs' :=
  ⟨_, _, (List.take_append_drop as.length bs).symm,
    (List.forall₂_take_append bs as as' h.flip).flip,
    (List.forall₂_drop_append bs as as' h.flip).flip⟩

theorem is_of_alike {text : List Char} (h : (Token.sign text).Alike token) :
    token.is (String.ofList text) = true :=
  (h.is_eq _).symm.trans (Token.is_ofText text 0)

/-- **An operand in its place**, in parentheses or not. -/
theorem readsAt_enclosed {ws : List Token} (hn : n ≤ 5)
    (h : ∀ ts, List.Forall₂ Token.Alike ws ts → ReadsAt T e.tier ts e)
    (hts : List.Forall₂ Token.Alike (enclosed n e ws) ts) : ReadsAt T n ts e := by
  unfold enclosed at hts
  split at hts
  · cases hts with
    | @cons _ opening _ _ ho hts =>
    obtain ⟨inner, last, rfl, hinner, hlast⟩ := exists_append_of_forall₂ hts
    cases hlast with
    | @cons _ closing _ _ hc hnil =>
    cases hnil
    have hwhole := (h inner hinner).whole e.tier_le
    have ho := is_of_alike ho
    have hgroup := ReadsWhole.group ho (is_of_alike hc) hwhole
    exact (ReadsAt.of_primary (startsAt_of_is ho (by decide)) hgroup).of_le hn le_rfl
  · next hle => exact (h ts hts).of_le (not_lt.mp hle) e.tier_le

theorem readsEach_of_written {es : List Expr}
    (h : ∀ e' ∈ e :: es, ∀ ts, List.Forall₂ Token.Alike (e'.written T) ts →
      ReadsAt T e'.tier ts e')
    (hts : List.Forall₂ Token.Alike (Expr.writtenAll T (e :: es) ++ [.sign [')']]) ts) :
    ReadsEach T ts (e :: es) ∧ StartsAt 0 ts := by
  obtain ⟨he, hes⟩ := List.forall_mem_cons.mp h
  induction es generalizing e ts with
  | nil =>
    rw [Expr.writtenAll, List.append_nil] at hts
    obtain ⟨first, last, rfl, hfirst, hlast⟩ := exists_append_of_forall₂ hts
    cases hlast with
    | cons hc hnil =>
    cases hnil
    have hread := he first hfirst
    exact ⟨.last (hread.whole e.tier_le) (is_of_alike hc),
      (hread.of_le (Nat.zero_le _) e.tier_le).starts.append _⟩
  | cons e' es ih =>
    rw [Expr.writtenAll, List.append_assoc, List.cons_append] at hts
    obtain ⟨first, last, rfl, hfirst, hlast⟩ := exists_append_of_forall₂ hts
    cases hlast with
    | cons hc hlast =>
    have hread := he first hfirst
    obtain ⟨he', hes'⟩ := List.forall_mem_cons.mp hes
    exact ⟨.more (hread.whole e.tier_le) (is_of_alike hc) (ih hes hlast he' hes').1,
      (hread.of_le (Nat.zero_le _) e.tier_le).starts.append _⟩

theorem readsArguments_of_written {es : List Expr}
    (h : ∀ e ∈ es, ∀ ts, List.Forall₂ Token.Alike (e.written T) ts → ReadsAt T e.tier ts e)
    (hts : List.Forall₂ Token.Alike (Expr.writtenAll T es ++ [.sign [')']]) ts) :
    ReadsArguments T ts es := by
  cases es with
  | nil =>
    cases hts with
    | cons hc hnil =>
    cases hnil
    exact readsArguments_nil (is_of_alike hc)
  | cons e es =>
    obtain ⟨heach, hstarts⟩ := readsEach_of_written h hts
    exact heach.readsArguments hstarts

theorem readsAt_number {v : Int64} {ty : Ty} (hkind : token.kind = .num)
    (hvalue : token.value = some v)
    (hty : (if token.isCharLiteral then .int8 else .unknown) = ty) :
    ReadsAt T 5 [token] (.num v ty loc) :=
  .of_primary (startsAt_of_kind (by rw [hkind]; decide)) (readsPrimary_number hkind hvalue hty)

/-- **What is written of a tree is read as the tree.** -/
theorem readsAt_of_writable (h : e.Writable T) :
    ∀ ts, List.Forall₂ Token.Alike (e.written T) ts → ReadsAt T e.tier ts e := by
  induction h with
  | @num v ty loc h =>
    intro ts hts
    unfold Expr.written at hts
    split at hts
    · next hty =>
      cases hts with
      | @cons _ token _ _ ht hnil =>
      cases hnil
      refine readsAt_number ht.kind.symm ht.value.symm ?_
      rw [← ht.isCharLiteral_eq, Token.isCharLiteral_character, if_pos rfl, hty]
    · next hty =>
      cases hts with
      | @cons _ token _ _ ht hnil =>
      cases hnil
      refine readsAt_number ht.kind.symm ht.value.symm ?_
      rw [← ht.isCharLiteral_eq, Token.isCharLiteral_decimal, if_neg Bool.false_ne_true]
      exact (h.resolve_right fun h => hty h.1).symm
  | @str i ty loc h =>
    obtain ⟨rfl, s, hs, -⟩ := h
    intro ts hts
    unfold Expr.written at hts
    rw [hs] at hts
    cases hts with
    | @cons _ token _ _ ht hnil =>
    cases hnil
    have hkind : token.kind = .str := ht.kind.symm
    refine .of_primary (startsAt_of_kind (by rw [hkind]; decide)) (readsPrimary_string hkind ?_)
    rw [← ht.body_eq, hs]
    exact congrArg some (Token.body_quoted s).symm
  | @var id ty loc h =>
    obtain ⟨rfl, v, hv, -, hid⟩ := h
    intro ts hts
    unfold Expr.written at hts
    rw [hv] at hts
    cases hts with
    | @cons _ token _ _ ht hnil =>
    cases hnil
    have hkind : token.kind = .ident := ht.kind.symm
    have htext : token.text = v.name := ht.text.symm.trans String.ofList_toList
    refine .of_primary (startsAt_of_kind (by rw [hkind]; decide)) (readsPrimary_name hkind ?_)
    rw [htext, hid]
  | @addr operand ty loc h _ ih =>
    obtain ⟨rfl, hlvalue⟩ := h
    intro ts hts
    unfold Expr.written at hts
    cases hts with
    | cons hs hts =>
    have hs := is_of_alike hs
    have hoperand : ReadsOperand T _ operand :=
      (readsAt_enclosed (by decide) ih hts).readsTree le_rfl
    have hbarred : "&" ∉ barred 4 := by decide
    exact ⟨startsAt_of_is hs hbarred, hoperand.addr hs hlvalue⟩
  | @deref operand ty loc h _ ih =>
    obtain rfl := h
    intro ts hts
    unfold Expr.written at hts
    cases hts with
    | cons hs hts =>
    have hs := is_of_alike hs
    have hoperand : ReadsOperand T _ operand :=
      (readsAt_enclosed (by decide) ih hts).readsTree le_rfl
    have hbarred : "*" ∉ barred 4 := by decide
    exact ⟨startsAt_of_is hs hbarred, hoperand.deref hs⟩
  | @binary op lhs rhs ty loc h _ _ ihl ihr =>
    obtain rfl := h
    intro ts hts
    unfold Expr.written at hts
    obtain ⟨left, right, rfl, hleft, hright⟩ := exists_append_of_forall₂ hts
    cases hright with
    | cons hs hright =>
    have hs := is_of_alike hs
    rw [String.ofList_toList] at hs
    have htier : op.tier + 1 ≤ 5 := Nat.le_succ_of_le op.tier_lt
    exact (readsAt_enclosed (Nat.le_of_succ_le htier) ihl hleft).binary
      (readsAt_enclosed htier ihr hright) hs
  | @index base position ty loc h _ _ ihb ihp =>
    obtain ⟨rfl, hrule⟩ := h
    intro ts hts
    unfold Expr.written at hts
    obtain ⟨left, right, rfl, hleft, hright⟩ := exists_append_of_forall₂ hts
    cases hright with
    | cons ho hright =>
    obtain ⟨inner, last, rfl, hinner, hlast⟩ := exists_append_of_forall₂ hright
    cases hlast with
    | cons hc hnil =>
    cases hnil
    have hbase := readsAt_enclosed le_rfl ihb hleft
    have hposition := (ihp inner hinner).whole position.tier_le
    exact ⟨hbase.starts.append _, GathersPositions.index (is_of_alike ho) (is_of_alike hc) hrule
      hbase.reads hposition⟩
  | @call name args ty loc h _ ih =>
    obtain ⟨rfl, -⟩ := h
    intro ts hts
    unfold Expr.written at hts
    cases hts with
    | @cons _ token _ _ hname hts =>
    cases hts with
    | @cons _ opening _ _ ho hts =>
    have hkind : token.kind = .ident := hname.kind.symm
    have htext : token.text = name := hname.text.symm.trans String.ofList_toList
    have harguments := readsArguments_of_written ih hts
    refine .of_primary (startsAt_of_kind (by rw [hkind]; decide)) ?_
    exact htext ▸ harguments.call hkind (is_of_alike ho)

end Grammar

/-- **A tree is read back from its text.**  Any text of what is written of a tree is cut into tokens
that are read, with the names that it was written with, as a tree that differs from it at most in
places and in the numbers of strings; no token is left but the end of the source. -/
theorem expression_of_spaced {T : Grammar.Reading} {e : Expr} {s : List Char} (he : e.Writable T)
    (hs : Spaced (e.written T) s) :
    ∃ tokens finish, tokenize s = .ok (tokens ++ [.sourceEnd finish]) ∧
      ∀ r, T.SameNames r → r.rest = tokens ++ [.sourceEnd finish] →
        ∃ e' r', Grammar.expression.run r = .ok (e', r') ∧ r'.rest = [.sourceEnd finish] ∧
          e.Alike T.strings r'.strings e' := by
  obtain ⟨tokens, finish, hscan, halike⟩ :=
    hs.exists_tokens he.legible.whole he.legible.chain 0 false
  refine ⟨tokens, finish, hscan, fun r hnames hr => ?_⟩
  have hread := (Grammar.readsAt_of_writable he tokens halike).whole e.tier_le
  have hends : Grammar.EndsAt 0 [.sourceEnd finish] := by
    rintro _ ⟨⟩
    exact ⟨rfl, fun _ => rfl, fun _ _ _ _ => rfl⟩
  obtain ⟨e', r', hrun, he', hr'⟩ := hread.succeeds_expression hnames hr hends
  exact ⟨e', r', hrun, hr'.rest, he'⟩

/-- The names and strings of the tree: an array, a number and a string. -/
def tablesOfProduct : Grammar.Reading where
  source := []
  previous := none
  rest := []
  vars := [⟨"xs", 0, false, .array .int 2, 0, false⟩, ⟨"i", 0, false, .int, 0, false⟩]
  globals := [0, 1]
  scope := none
  strings := ["a b"]

/-- A call of a function with an element, a character and a string, times a difference. -/
def exprOfProduct : Expr :=
  .binary .mul
    (.call "f" [.index (.var 0 .unknown 0) (.num 1 .unknown 0) .unknown 0,
      .num 99 .int8 0, .str 0 .unknown 0] .unknown 0)
    (.binary .sub (.deref (.addr (.index (.var 0 .unknown 0) (.var 1 .unknown 0) .unknown 0)
      .unknown 0) .unknown 0) (.num (-1) .unknown 0) .unknown 0)
    .unknown 0

/-- The tree as a text in which all the tokens touch. -/
def textOfProduct : String :=
  "f(xs[1],'c',\"a b\")*(*&xs[i]-18446744073709551615)"

theorem writable_product : exprOfProduct.Writable tablesOfProduct := by
  have hword : IsWord "xs" := ⟨'x', ['s'], rfl, rfl, List.forall_mem_singleton.mpr rfl⟩
  have hxs : (Expr.var 0 .unknown 0).Writable tablesOfProduct :=
    .var ⟨rfl, _, rfl, ⟨hword, by decide⟩, by decide⟩
  have hi : (Expr.var 1 .unknown 0).Writable tablesOfProduct :=
    .var ⟨rfl, _, rfl, ⟨⟨'i', [], rfl, rfl, nofun⟩, by decide⟩, by decide⟩
  have hinside : Expr.PositionRule tablesOfProduct (.var 0 .unknown 0) (.num 1 .unknown 0) := by
    rintro _ _ _ ⟨⟩
    refine ⟨_, rfl, rfl, ?_⟩
    rintro _ _ ⟨⟩ _ _ _ ⟨⟩
    decide
  have hany : Expr.PositionRule tablesOfProduct (.var 0 .unknown 0) (.var 1 .unknown 0) := by
    rintro _ _ _ ⟨⟩
    exact ⟨_, rfl, rfl, fun _ _ _ _ _ _ => nofun⟩
  refine .binary rfl (.call ⟨rfl, ⟨'f', [], rfl, rfl, nofun⟩, by decide⟩ ?_) ?_
  · refine List.forall_mem_cons.mpr ⟨.index ⟨rfl, hinside⟩ hxs (.num (.inl rfl)),
      List.forall_mem_cons.mpr ⟨.num (.inr ⟨rfl, 'c', rfl, rfl⟩),
        List.forall_mem_singleton.mpr (.str ⟨rfl, "a b", rfl, by decide⟩)⟩⟩
  · exact .binary rfl (.deref rfl (.addr ⟨rfl, rfl⟩ (.index ⟨rfl, hany⟩ hxs hi)))
      (.num (.inl rfl))

/-- A product in which **every form of tree** stands: the star in front of an address makes no
product, the difference keeps its parentheses, and the largest number is the word -1. -/
theorem expression_of_product :
    ∃ tokens finish, tokenize textOfProduct.toList = .ok (tokens ++ [.sourceEnd finish]) ∧
      ∀ r, tablesOfProduct.SameNames r → r.rest = tokens ++ [.sourceEnd finish] →
        ∃ e' r', Grammar.expression.run r = .ok (e', r') ∧ r'.rest = [.sourceEnd finish] ∧
          exprOfProduct.Alike tablesOfProduct.strings r'.strings e' := by
  have htext : (exprOfProduct.written tablesOfProduct).flatMap (·.text.toList) =
      textOfProduct.toList := by
    decide +kernel
  exact expression_of_spaced writable_product (htext ▸ spaced_flatMap _)

end StackCompiler
