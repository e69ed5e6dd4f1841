import StackCompiler.Proofs.Agree
import StackCompiler.Proofs.Grammar.Places
import StackCompiler.Proofs.Syntax.Numbered
import StackCompiler.Proofs.Token.Alike

/-!
# Proofs/Grammar/Beside — reading two sources side by side

Two sources may differ in everything between their tokens.  A parser that reads both of them takes
the same tokens and makes the same tables and trees **but for places**, since it asks the text of
the sources for one thing only: for a line break behind a closing brace (`SpacedWithin`).  The tables
may have been filled differently before; then the trees are the same but for the **numbers** of
variables and strings, too (`Comparison`).
-/

namespace StackCompiler

/-! ## Two sources -/

/-- Whether a line break stands between a token and those that follow it. -/
def breaksBehind (source : List Char) (t : Token) (rest : List Token) : Bool :=
  (Text.slice? (t.loc + t.len) ((rest.head?).elim (Text.byteLength source) (·.loc)) source).any
    (·.contains '\n')

/-- The tokens of two sources are **alike one by one**, and behind a closing brace a line breaks in
both sources or in none. -/
def SpacedAlike (source source' : List Char) : List Token → List Token → Prop
  | [], [] => True
  | t :: ts, t' :: ts' =>
    t.Alike t' ∧
      (t.is "\x7d" = true → breaksBehind source t ts = breaksBehind source' t' ts') ∧
      SpacedAlike source source' ts ts'
  | _, _ => False

instance (t t' : Token) : Decidable (t.Alike t') :=
  decidable_of_iff (t.kind = t'.kind ∧ t.text = t'.text ∧ t.value = t'.value ∧
      (t.len = 0 ↔ t'.len = 0))
    ⟨fun ⟨hkind, htext, hvalue, hmark⟩ => ⟨hkind, htext, hvalue, hmark⟩,
      fun h => ⟨h.kind, h.text, h.value, h.mark⟩⟩

instance SpacedAlike.decidable (source source' : List Char) :
    ∀ ts ts' : List Token, Decidable (SpacedAlike source source' ts ts')
  | [], [] => .isTrue trivial
  | [], _ :: _ => .isFalse id
  | _ :: _, [] => .isFalse id
  | t :: ts, t' :: ts' =>
    have := SpacedAlike.decidable source source' ts ts'
    inferInstanceAs (Decidable (t.Alike t' ∧
      (t.is "\x7d" = true → breaksBehind source t ts = breaksBehind source' t' ts') ∧
      SpacedAlike source source' ts ts'))

/-- A source that memory can hold, with tokens that **stand between its characters**. -/
structure CutSource where
  source : List Char
  tokens : List Token
  size : Text.byteLength source < Grammar.placeLimit
  covers : Covers source tokens

/-- The same of tokens **behind the last of which** nothing is looked at. -/
def SpacedWithin (source source' : List Char) : List Token → List Token → Prop
  | [], [] => True
  | t :: ts, t' :: ts' =>
    t.Alike t' ∧ (t.is "\x7d" = true → ts ≠ [] →
      breaksBehind source t ts = breaksBehind source' t' ts') ∧
      SpacedWithin source source' ts ts'
  | _, _ => False

section Spaced

variable {source source' : List Char} {ts ts' : List Token}

theorem SpacedAlike.within (h : SpacedAlike source source' ts ts') :
    SpacedWithin source source' ts ts' := by
  fun_induction SpacedAlike source source' ts ts' with
  | case1 => trivial
  | case2 t ts t' ts' ih => exact ⟨h.1, fun ht _ => h.2.1 ht, ih h.2.2⟩
  | case3 => exact h.elim

theorem SpacedWithin.alike (h : SpacedWithin source source' ts ts') :
    List.Forall₂ Token.Alike ts ts' := by
  fun_induction SpacedWithin source source' ts ts' with
  | case1 => exact .nil
  | case2 t ts t' ts' ih => exact .cons h.1 (ih h.2.2)
  | case3 => exact h.elim

end Spaced

namespace Grammar

/-- The table after a string has been looked up in it. -/
def interned (table : List String) (s : String) : List String :=
  if s ∈ table then table else table ++ [s]

/-- What two readings are compared in: their sources, the numbers that what has one number in the
trees of the one and of the other **is to have in common**, and what their tables of strings have to do
with one another. -/
structure Comparison where
  left : CutSource
  right : CutSource
  numbers : Numbering
  numbers' : Numbering
  Tables : List String → List String → Prop
  interned : ∀ {table table' : List String}, Tables table table' → ∀ s,
    numbers.string (table.idxOf s) = numbers'.string (table'.idxOf s) ∧
      Tables (interned table s) (interned table' s)

/-- Two sources compared with their variables under other numbers, and their strings under **those
that they have**. -/
def Comparison.ofNumbers (c c' : CutSource) (var var' : VarId → VarId) : Comparison where
  left := c
  right := c'
  numbers := ⟨var, id⟩
  numbers' := ⟨var', id⟩
  Tables := Eq
  interned := by
    rintro table _ rfl s
    exact ⟨rfl, rfl⟩

/-- Two sources compared **number by number**. -/
abbrev Comparison.ofSources (c c' : CutSource) : Comparison :=
  .ofNumbers c c' id id

namespace Comparison

/-- The expressions are the same but for places and numbers. -/
abbrev Exprs (w : Comparison) : Expr → Expr → Prop :=
  Meets (Expr.numbered w.numbers) (Expr.numbered w.numbers')

abbrev ExprLists (w : Comparison) : List Expr → List Expr → Prop :=
  Meets (List.map (Expr.numbered w.numbers)) (List.map (Expr.numbered w.numbers'))

/-- The numbers are those of **one variable**. -/
abbrev Ids (w : Comparison) : VarId → VarId → Prop :=
  Meets w.numbers.var w.numbers'.var

end Comparison

variable {w : Comparison}

/-- The reading takes tokens of that source. -/
def Reading.Of (c : CutSource) (r : Reading) : Prop :=
  r.source = c.source ∧ ∀ t ∈ r.previous.toList ++ r.rest, t ∈ c.tokens

/-- The two readings have come **equally far**: what was taken last and what is left is alike, and
the tables are the same but for places and numbers.  Variables that are added now get numbers that
belong together. -/
structure Reading.Beside (w : Comparison) (r r' : Reading) : Prop where
  left : r.Of w.left
  right : r'.Of w.right
  previous : r.previous.isSome = r'.previous.isSome
  spaced : SpacedWithin w.left.source w.right.source (r.previous.toList ++ r.rest)
    (r'.previous.toList ++ r'.rest)
  vars : ∀ id id', w.Ids id id' → SameVariable r.vars[id]? r'.vars[id']?
  fresh : ∀ i j, w.Ids (r.vars.length + i) (r'.vars.length + j) ↔ i = j
  globals : Meets (List.map w.numbers.var) (List.map w.numbers'.var) r.globals r'.globals
  scope : Meets (Option.map (List.map w.numbers.var)) (Option.map (List.map w.numbers'.var))
    r.scope r'.scope
  strings : w.Tables r.strings r'.strings

/-- The parsers keep two readings side by side. -/
abbrev InStep (w : Comparison) {α β : Type} (R : α → β → Prop) (x : Parser α) (y : Parser β) :
    Prop :=
  Parallel (Reading.Beside w) R x y

namespace Reading

variable {c : CutSource} {r r' : Reading}

/-- What is left is alike. -/
theorem Beside.rest (h : Beside w r r') : List.Forall₂ Token.Alike r.rest r'.rest := by
  have halike := h.spaced.alike
  have hprevious := h.previous
  cases hp : r.previous <;> cases hp' : r'.previous <;> rw [hp, hp'] at halike hprevious
  · exact halike
  · cases hprevious
  · cases hprevious
  · exact (List.forall₂_cons.mp halike).2

theorem Beside.head? (h : Beside w r r') :
    Option.Rel Token.Alike r.rest.head? r'.rest.head? := by
  have hrest := h.rest
  generalize r.rest = ts at hrest
  generalize r'.rest = ts' at hrest
  cases hrest with
  | nil => exact .none
  | cons ht _ => exact .some ht

theorem Of.mem {t : Token} (h : r.Of c) (ht : t ∈ r.rest) : t ∈ c.tokens :=
  h.2 t (List.mem_append_right _ ht)

/-- Taking a token keeps the rest of the source. -/
theorem Of.take {t : Token} {rest : List Token} (h : r.Of c) (hrest : r.rest = t :: rest) :
    Reading.Of c { r with previous := some t, rest := rest } :=
  ⟨h.1, fun _ hu => h.mem (hrest ▸ hu)⟩

end Reading

section Steps

variable {c : CutSource} {α β : Type} {R : α → β → Prop}

/-! ## The next token -/

theorem inStep_refuse (cause : Cause) (loc loc' : Nat) :
    InStep w R (refuse cause loc) (refuse cause loc') :=
  parallel_throw rfl

theorem inStep_refuse_bind {γ δ : Type} (cause : Cause) (loc loc' : Nat) {f : γ → Parser α}
    {g : δ → Parser β} : InStep w R (refuse cause loc >>= f) (refuse cause loc' >>= g) :=
  (inStep_refuse (R := fun _ _ => False) cause loc loc').bind nofun

theorem inStep_broken (fault : Fault) : InStep w R (broken fault) (broken fault) :=
  parallel_throw rfl

theorem inStep_peek : InStep w (Option.Rel Token.Alike) peek peek :=
  parallel_get.bind fun _ _ h => parallel_pure h.head?

/-- Where a token stands is **told, and not compared**. -/
theorem inStep_here : InStep w (fun _ _ => True) here here :=
  parallel_get.bind fun _ _ _ => parallel_pure trivial

theorem inStep_ahead (text : String) : InStep w Eq (ahead text) (ahead text) := by
  refine inStep_peek.bind fun t t' ht => parallel_pure ?_
  cases ht with
  | none => rfl
  | some ht => exact ht.is_eq text

theorem inStep_aheadKind (kind : Token.Kind) : InStep w Eq (aheadKind kind) (aheadKind kind) := by
  refine inStep_peek.bind fun t t' ht => parallel_pure ?_
  cases ht with
  | none => rfl
  | some ht => exact congrArg (· == kind) ht.kind

theorem inStep_atEnd : InStep w Eq atEnd atEnd := by
  refine inStep_peek.bind fun t t' ht => parallel_pure ?_
  cases ht with
  | none => rfl
  | some ht => exact congrArg (· == Token.Kind.eof) ht.kind

theorem inStep_advance : InStep w Eq advance advance := by
  refine parallel_modify fun r r' h => ?_
  have hrest := h.rest
  have hspaced := h.spaced
  cases hr : r.rest with
  | nil =>
    rw [hr] at hrest
    obtain hr' := List.forall₂_nil_left_iff.mp hrest
    rw [hr']
    exact h
  | cons t rest =>
    rw [hr] at hrest
    obtain ⟨t', rest', _, _, hr'⟩ := List.forall₂_cons_left_iff.mp hrest
    rw [hr']
    refine ⟨h.left.take hr, h.right.take hr', rfl, ?_, h.vars, h.fresh, h.globals, h.scope, h.strings⟩
    have hprevious := h.previous
    rw [hr, hr'] at hspaced
    cases hp : r.previous <;> cases hp' : r'.previous <;> rw [hp, hp'] at hspaced hprevious
    · exact hspaced
    · cases hprevious
    · cases hprevious
    · exact hspaced.2.2

theorem inStep_accept (text : String) : InStep w Eq (accept text) (accept text) := by
  refine (inStep_ahead text).bind ?_
  rintro found _ rfl
  exact parallel_ite (fun _ => inStep_advance.bind fun _ _ _ => parallel_pure rfl)
    fun _ => parallel_pure rfl

theorem inStep_unexpected (expected : Expected) :
    InStep w R (unexpected expected) (unexpected expected) := by
  refine inStep_peek.bind fun t t' ht => inStep_here.bind fun loc loc' _ => ?_
  have hdescribe : Token.describe t = Token.describe t' := by
    cases ht with
    | none => rfl
    | some ht => exact ht.describe_eq
  rw [hdescribe]
  exact inStep_refuse _ _ _

theorem inStep_expect (text : String) :
    InStep w (fun _ _ => True) (expect text) (expect text) := by
  refine inStep_here.bind fun loc loc' _ => (inStep_accept text).bind ?_
  rintro found _ rfl
  exact parallel_ite (fun _ => parallel_pure trivial) fun _ => inStep_unexpected _

theorem inStep_identifier : InStep w (SameBy Prod.fst) identifier identifier := by
  refine inStep_peek.bind fun t t' ht => ?_
  cases ht with
  | none => exact inStep_unexpected _
  | @some t t' ht =>
    obtain ⟨kind, text, value, loc, len⟩ := t
    obtain ⟨kind', text', value', loc', len'⟩ := t'
    obtain ⟨rfl, rfl, rfl, _⟩ := ht
    cases kind with
    | ident => exact inStep_advance.bind fun _ _ _ => parallel_pure rfl
    | _ => exact inStep_unexpected _

theorem inStep_number : InStep w (SameBy Prod.fst) number number := by
  refine inStep_peek.bind fun t t' ht => ?_
  cases ht with
  | none => exact inStep_unexpected _
  | @some t t' ht =>
    obtain ⟨kind, text, value, loc, len⟩ := t
    obtain ⟨kind', text', value', loc', len'⟩ := t'
    obtain ⟨rfl, rfl, rfl, _⟩ := ht
    cases kind with
    | num =>
      cases value with
      | none => exact inStep_refuse _ _ _
      | some value => exact inStep_advance.bind fun _ _ _ => parallel_pure rfl
    | _ => exact inStep_unexpected _

/-! ## Line breaks -/

/-- Where the next token stands, or where the source ends. -/
def Reading.stop (r : Reading) : Nat :=
  (r.rest.head?).elim (Text.byteLength r.source) (·.loc)

theorem run_here (r : Reading) : here.run r = .ok (r.stop, r) := by
  obtain ⟨source, previous, rest, vars, globals, scope, strings⟩ := r
  cases rest <;> rfl

theorem Reading.Of.boundary_stop {r : Reading} (h : r.Of c) : Text.Boundary c.source r.stop := by
  unfold Reading.stop
  cases hr : r.rest with
  | nil => exact h.1 ▸ Text.boundary_byteLength r.source
  | cons u rest => exact c.covers.starts u (h.mem (hr ▸ List.mem_cons_self))

/-- Behind a token of the source it is **always known** whether a line breaks. -/
theorem Reading.Of.run_atLineStart {r : Reading} (h : r.Of c) {t : Token}
    (ht : r.previous = some t) :
    atLineStart.run r = .ok (breaksBehind c.source t r.rest, r) := by
  have hstart : Text.Boundary c.source (t.loc + t.len) :=
    c.covers.stops t (h.2 t (by simp [ht]))
  have hlt : ¬placeLimit ≤ t.loc + t.len := not_le.mpr (hstart.le.trans_lt c.size)
  have hbreaks : breaksBehind c.source t r.rest =
      (Text.slice? (t.loc + t.len) r.stop r.source).any (·.contains '\n') := by
    rw [Reading.stop, h.1, breaksBehind]
  rw [hbreaks, atLineStart, StateT.run_bind]
  refine (congrArg (· >>= _) (StateT.run_get r)).trans ?_
  simp only [pure_bind, ht]
  rw [StateT.run_bind, run_here]
  change StateT.run (ite _ _ _) r = _
  rw [if_neg hlt]
  by_cases hstop : r.stop < t.loc + t.len
  · have hnone : (Text.slice? (t.loc + t.len) r.stop r.source).any (·.contains '\n') = false := by
      simp only [Text.slice?, Nat.sub_eq_zero_of_le hstop.le, Text.splitAt?_zero]
      cases Text.splitAt? (t.loc + t.len) r.source <;> rfl
    rw [if_pos hstop, hnone]
    rfl
  · obtain ⟨gap, hgap⟩ := hstart.exists_slice? h.boundary_stop (not_lt.mp hstop)
    rw [if_neg hstop, h.1, hgap]
    rfl

/-- **Behind a brace** that is not the last token, a line breaks in both sources or in none. -/
theorem Reading.Beside.agree_atLineStart {r r' : Reading} (h : Beside w r r')
    (hbrace : r.previous.any (·.is "\x7d") = true) (hrest : r.rest ≠ []) :
    Agree (atLineStart.run r) (atLineStart.run r') fun p q => p.1 = q.1 ∧ Beside w p.2 q.2 := by
  obtain ⟨t, ht, hbrace⟩ := (Option.any_eq_true _ _).mp hbrace
  obtain ⟨t', ht'⟩ := Option.isSome_iff_exists.mp (h.previous.symm.trans (by rw [ht]; rfl))
  have hspaced := h.spaced
  rw [ht, ht'] at hspaced
  rw [h.left.run_atLineStart ht, h.right.run_atLineStart ht']
  exact ⟨hspaced.2.1 hbrace hrest, h⟩

end Steps

/-! ## Repetition -/

section Repetition

variable {α β σ τ υ : Type} {S : σ → τ → Prop} {R : α → β → Prop}

/-- Two rounds leave states related by `S` to go on from, or results related by `R`. -/
inductive Round.Rel (S : σ → τ → Prop) (R : α → β → Prop) : Round σ α → Round τ β → Prop
  | again {s : σ} {t : τ} : S s t → Rel S R (.again s) (.again t)
  | done {a : α} {b : β} : R a b → Rel S R (.done a) (.done b)

theorem inStep_bounded {x : Nat → Parser α} {y : Nat → Parser β}
    (h : ∀ depth, InStep w R (x depth) (y depth)) : InStep w R (bounded x) (bounded y) := by
  have hbound : InStep w Eq bound bound :=
    parallel_get.bind fun r r' h => parallel_pure (congrArg (· + 1) h.rest.length_eq)
  refine hbound.bind ?_
  rintro depth _ rfl
  exact h depth

/-- A repetition makes **as many rounds** on both sides. -/
theorem inStep_iterate {x : σ → Parser (Round σ α)} {y : τ → Parser (Round τ β)}
    (hround : ∀ s t, S s t → InStep w (Round.Rel S R) (x s) (y t)) {s : σ} {t : τ} (h : S s t) :
    InStep w R (iterate x s) (iterate y t) := by
  refine inStep_bounded fun n => ?_
  induction n generalizing s t with
  | zero => exact inStep_broken _
  | succ n ih =>
    refine (hround s t h).bind fun o o' ho => ?_
    cases ho with
    | again h => exact ih h
    | done h => exact parallel_pure h

variable {u : α → υ} {v : β → υ} {x : Parser α} {y : Parser β}

theorem meets_concat {as : List α} {bs : List β} {a : α} {b : β}
    (h : Meets (List.map u) (List.map v) as bs) (ha : Meets u v a b) :
    Meets (List.map u) (List.map v) (as ++ [a]) (bs ++ [b]) := by
  rw [Meets, List.map_append, List.map_append, h, List.map_singleton, List.map_singleton, ha]

theorem inStep_commaList (hitem : InStep w (Meets u v) x y) :
    InStep w (Meets (List.map u) (List.map v)) (commaList x) (commaList y) := by
  refine inStep_iterate (S := Meets (List.map u) (List.map v)) (fun as bs h => ?_) rfl
  refine hitem.bind fun a b ha => (inStep_accept ",").bind ?_
  rintro comma _ rfl
  exact parallel_ite (fun _ => parallel_pure (.again (meets_concat h ha)))
    fun _ => parallel_pure (.done (meets_concat h ha))

theorem inStep_listUntil (close : String) (hitem : InStep w (Meets u v) x y) :
    InStep w (Meets (List.map u) (List.map v)) (listUntil close x) (listUntil close y) := by
  refine (inStep_accept close).bind ?_
  rintro closed _ rfl
  refine parallel_ite (fun _ => parallel_pure rfl) fun _ => ?_
  refine inStep_iterate (S := Meets (List.map u) (List.map v)) (fun as bs h => ?_) rfl
  refine hitem.bind fun a b ha => (inStep_accept close).bind ?_
  rintro closed _ rfl
  refine parallel_ite (fun _ => parallel_pure (.done (meets_concat h ha))) fun _ => ?_
  exact (inStep_expect ",").bind fun _ _ _ => parallel_pure (.again (meets_concat h ha))

end Repetition

/-! ## Types -/

theorem inStep_typeAhead : InStep w Eq typeAhead typeAhead := by
  refine (inStep_ahead "*").bind ?_
  rintro star _ rfl
  refine (inStep_ahead "[").bind ?_
  rintro bracket _ rfl
  refine (inStep_aheadKind .typeName).bind ?_
  rintro name _ rfl
  exact parallel_pure rfl

theorem inStep_namedType : InStep w Eq namedType namedType := by
  refine inStep_peek.bind fun t t' ht => ?_
  cases ht with
  | none => exact inStep_unexpected _
  | @some t t' ht =>
    obtain ⟨kind, text, value, loc, len⟩ := t
    obtain ⟨kind', text', value', loc', len'⟩ := t'
    obtain ⟨rfl, rfl, rfl, _⟩ := ht
    dsimp only
    split
    · exact inStep_advance.bind fun _ _ _ => parallel_pure rfl
    · exact inStep_unexpected _

theorem inStep_typeTo (depth : Nat) : InStep w Eq (typeTo depth) (typeTo depth) := by
  induction depth with
  | zero => exact inStep_broken _
  | succ depth ih =>
    refine (inStep_accept "*").bind ?_
    rintro star _ rfl
    refine parallel_ite (fun _ => ih.map fun _ _ => congrArg Ty.ptr) fun _ => ?_
    refine (inStep_accept "[").bind ?_
    rintro bracket _ rfl
    refine parallel_ite (fun _ => ?_) fun _ => inStep_namedType
    refine inStep_number.bind ?_
    rintro ⟨len, loc⟩ ⟨_, loc'⟩ rfl
    refine parallel_ite (fun _ => inStep_refuse_bind _ _ _) fun _ => ?_
    refine (inStep_expect "]").bind fun _ _ _ => ih.bind ?_
    rintro base _ rfl
    exact parallel_ite (fun _ => parallel_pure rfl) fun _ => inStep_refuse _ _ _

theorem inStep_type : InStep w Eq type type :=
  inStep_bounded inStep_typeTo

/-! ## Names -/

section Names

variable {r r' : Reading}

theorem Reading.Beside.variable? (h : Beside w r r') {id id' : VarId} (hid : w.Ids id id') :
    Option.Rel (SameBy Variable.unplaced) r.vars[id]? r'.vars[id']? := by
  have hvars := h.vars id id' hid
  cases hv : r.vars[id]? <;> cases hv' : r'.vars[id']? <;> rw [hv, hv'] at hvars
  · exact .none
  · cases hvars
  · cases hvars
  · exact .some (Option.some.inj hvars)

/-- A name stands for **the same variable** in both readings. -/
theorem Reading.Beside.lookup? (h : Beside w r r') (name : String) :
    Meets (Option.map w.numbers.var) (Option.map w.numbers'.var) (r.lookup? name)
      (r'.lookup? name) := by
  have hnamed (id id' : VarId) (hid : w.Ids id id') : r.isNamed name id = r'.isNamed name id' := by
    have hv := h.variable? hid
    unfold Reading.isNamed
    generalize r.vars[id]? = v at hv
    generalize r'.vars[id']? = v' at hv
    cases hv with
    | none => rfl
    | some hv => exact congrArg (· == name) (Variable.mk.inj hv).1
  have hscope := h.scope
  have hglobals := find?_meets h.globals hnamed
  unfold Reading.lookup?
  cases hr : r.scope <;> cases hr' : r'.scope <;> rw [hr, hr'] at hscope
  · exact hglobals
  · cases hscope
  · cases hscope
  next locals locals' =>
  have hlocals := find?_meets (Option.some.inj hscope) hnamed
  rw [Option.bind_some, Option.bind_some]
  cases hl : locals.find? (r.isNamed name) <;> cases hl' : locals'.find? (r'.isNamed name) <;>
    rw [hl, hl'] at hlocals
  · exact hglobals
  · cases hlocals
  · cases hlocals
  · exact hlocals

theorem Reading.Beside.addVariable (h : Beside w r r') (name : String) (ty : Ty)
    (loc loc' : Nat) (placeholder : Bool) :
    Beside w (r.addVariable name ty loc placeholder)
      (r'.addVariable name ty loc' placeholder) where
  left := h.left
  right := h.right
  previous := h.previous
  spaced := h.spaced
  vars id id' hid := by
    have hscope : r.scope.isSome = r'.scope.isSome := by
      rw [← Option.isSome_map (f := List.map w.numbers.var), h.scope, Option.isSome_map]
    have hlt : id < r.vars.length ↔ id' < r'.vars.length := by
      rw [← not_iff_not, not_lt, not_lt, ← List.getElem?_eq_none_iff, ← List.getElem?_eq_none_iff,
        ← Option.map_eq_none_iff (f := Variable.unplaced), h.vars id id' hid,
        Option.map_eq_none_iff]
    rcases lt_or_ge id r.vars.length with hid' | hid'
    · rw [Reading.addVariable, Reading.addVariable, List.getElem?_append_left hid',
        List.getElem?_append_left (hlt.mp hid')]
      exact h.vars id id' hid
    · obtain ⟨i, rfl⟩ := Nat.exists_eq_add_of_le hid'
      obtain ⟨j, rfl⟩ := Nat.exists_eq_add_of_le (not_lt.mp (mt hlt.mpr hid'.not_gt))
      obtain rfl := (h.fresh i j).mp hid
      rw [Reading.addVariable, Reading.addVariable, List.getElem?_append_right hid',
        List.getElem?_append_right (Nat.le_add_right _ _), Nat.add_sub_cancel_left,
        Nat.add_sub_cancel_left, hscope]
      cases i <;> rfl
  fresh i j := by
    have hfresh := h.fresh (1 + i) (1 + j)
    rw [← Nat.add_assoc, ← Nat.add_assoc] at hfresh
    simpa [Reading.addVariable] using hfresh
  globals := h.globals
  scope := h.scope
  strings := h.strings

theorem Reading.Beside.listed (h : Beside w r r') {id id' : VarId} (hid : w.Ids id id') :
    Beside w (r.listed id) (r'.listed id') := by
  have hscope := h.scope
  unfold Reading.listed
  cases hr : r.scope <;> cases hr' : r'.scope <;> rw [hr, hr'] at hscope
  · exact { h with scope := hscope, globals := meets_concat h.globals hid }
  · cases hscope
  · cases hscope
  · exact { h with scope := congrArg some (meets_concat (Option.some.inj hscope) hid) }

theorem inStep_declare (name : String) (ty : Ty) (loc loc' : Nat) :
    InStep w w.Ids (declare name ty loc) (declare name ty loc') := by
  refine parallel_get.bind fun r r' h => ?_
  have hlookup : (r.lookup? name).isSome = (r'.lookup? name).isSome := by
    rw [← Option.isSome_map (f := w.numbers.var), h.lookup? name, Option.isSome_map]
  have hid : w.Ids r.vars.length r'.vars.length := (h.fresh 0 0).mpr rfl
  rw [hlookup]
  refine parallel_ite (fun _ => inStep_refuse_bind _ _ _) fun _ => ?_
  exact (parallel_set ((h.addVariable name ty loc loc' false).listed hid)).bind
    fun _ _ _ => parallel_pure hid

theorem inStep_readName (name : String) (loc loc' : Nat) :
    InStep w w.Exprs (readName name loc) (readName name loc') := by
  refine parallel_get.bind fun r r' h => ?_
  have hexpr {id id' : VarId} (hid : w.Ids id id') :
      w.Exprs (.var id .unknown loc) (.var id' .unknown loc') :=
    congrArg (Expr.var · .unknown 0) hid
  have hlookup := h.lookup? name
  generalize r.lookup? name = found at hlookup
  generalize r'.lookup? name = found' at hlookup
  cases found <;> cases found'
  · exact (parallel_set (h.addVariable name .unknown loc loc' true)).bind
      fun _ _ _ => parallel_pure (hexpr ((h.fresh 0 0).mpr rfl))
  · cases hlookup
  · cases hlookup
  · exact parallel_pure (hexpr (Option.some.inj hlookup))

theorem inStep_variableOf {id id' : VarId} (hid : w.Ids id id') :
    InStep w (SameBy Variable.unplaced) (variableOf id) (variableOf id') := by
  refine parallel_get.bind fun r r' h => ?_
  have hv := h.variable? hid
  generalize r.vars[id]? = v at hv
  generalize r'.vars[id']? = v' at hv
  cases hv with
  | none => exact inStep_broken _
  | some hv => exact parallel_pure hv

/-- A string that is looked up gets **its number in the table**, to which it is added if it is new. -/
theorem run_intern (s : String) (r : Reading) :
    (intern s).run r = .ok (r.strings.idxOf s, { r with strings := interned r.strings s }) := by
  rw [intern, StateT.run_bind]
  refine (congrArg (· >>= _) (StateT.run_get r)).trans ?_
  simp only [pure_bind]
  rw [List.idxOf_eq_getD_idxOf?, interned]
  cases hi : r.strings.idxOf? s with
  | none =>
    rw [if_neg (List.idxOf?_eq_none_iff.mp hi)]
    rfl
  | some i =>
    rw [if_pos (List.isSome_idxOf?.mp (Option.isSome_of_eq_some hi))]
    rfl

theorem inStep_intern (s : String) :
    InStep w (Meets w.numbers.string w.numbers'.string) (intern s) (intern s) := by
  intro r r' h
  obtain ⟨hnumber, hstrings⟩ := w.interned h.strings s
  rw [run_intern, run_intern]
  exact ⟨hnumber, { h with strings := hstrings }⟩

end Names

/-! ## Expressions -/

/-- The parsers read **one expression**, from two places and under the numbers of either. -/
abbrev ReadsAlike (w : Comparison) (x y : Parser Expr) : Prop :=
  InStep w w.Exprs x y

section Expressions

variable {operand inner : Parser Expr}

theorem inStep_acceptOperator (level : Level) :
    InStep w Eq (acceptOperator level) (acceptOperator level) := by
  refine inStep_peek.bind fun t t' ht => ?_
  have hfound : (t.bind fun token => level.find? fun o => token.is o.text) =
      t'.bind fun token => level.find? fun o => token.is o.text := by
    cases ht with
    | none => rfl
    | some ht => simp only [Option.bind_some, ht.is_eq]
  rw [hfound]
  split
  · exact parallel_pure rfl
  · exact inStep_advance.bind fun _ _ _ => parallel_pure rfl

theorem exprs_join (o : LevelOperator) {lhs lhs' rhs rhs' : Expr} (loc loc' : Nat)
    (hl : w.Exprs lhs lhs') (hr : w.Exprs rhs rhs') :
    w.Exprs (o.join lhs rhs loc) (o.join lhs' rhs' loc') := by
  unfold LevelOperator.join
  split <;> simp only [Comparison.Exprs, Meets, Expr.numbered, hl, hr]

theorem inStep_leftAssociated (level : Level) (h : ReadsAlike w operand operand) :
    ReadsAlike w (leftAssociated level operand) (leftAssociated level operand) := by
  refine h.bind fun first first' hfirst => ?_
  refine inStep_iterate (S := w.Exprs) (fun lhs lhs' hlhs => ?_) hfirst
  refine inStep_here.bind fun loc loc' _ => (inStep_acceptOperator level).bind ?_
  rintro found _ rfl
  cases found with
  | none => exact parallel_pure (.done hlhs)
  | some o =>
    exact h.bind fun rhs rhs' hrhs => parallel_pure (.again (exprs_join o loc loc' hlhs hrhs))

theorem inStep_expressionOver (h : ReadsAlike w operand operand) :
    ReadsAlike w (expressionOver operand) (expressionOver operand) := by
  unfold expressionOver
  induction levels with
  | nil => exact h
  | cons level levels ih => exact inStep_leftAssociated level ih

/-- What is the same as a variable is **that variable**. -/
theorem exists_var_of_meets {n n' : Numbering} {id : VarId} {ty : Ty} {loc : Nat} {e : Expr}
    (h : Meets (Expr.numbered n) (Expr.numbered n') (.var id ty loc) e) :
    ∃ id' loc', e = .var id' ty loc' ∧ n.var id = n'.var id' := by
  cases e with
  | var id' ty' loc' =>
    obtain ⟨hid, rfl, -⟩ := Expr.var.inj h
    exact ⟨id', loc', rfl, hid⟩
  | _ => cases h

theorem exists_num_of_meets {n n' : Numbering} {value : Int64} {ty : Ty} {loc : Nat} {e : Expr}
    (h : Meets (Expr.numbered n) (Expr.numbered n') (.num value ty loc) e) :
    ∃ loc', e = .num value ty loc' := by
  cases e with
  | num value' ty' loc' =>
    obtain ⟨rfl, rfl, -⟩ := Expr.num.inj h
    exact ⟨loc', rfl⟩
  | _ => cases h

theorem inStep_indexed {base base' position position' : Expr}
    (hbase : w.Exprs base base') (hposition : w.Exprs position position') (loc loc' : Nat) :
    ReadsAlike w (indexed base position loc) (indexed base' position' loc') := by
  have hindex : w.Exprs (.index base position .unknown loc)
      (.index base' position' .unknown loc') := by
    simp only [Comparison.Exprs, Meets, Expr.numbered, hbase, hposition]
  unfold indexed
  split
  · next id ty baseLoc =>
    obtain ⟨id', baseLoc', rfl, hid⟩ := exists_var_of_meets hbase
    refine (inStep_variableOf hid).bind fun v v' hv => ?_
    obtain ⟨name, offset, isLocal, vty, vloc, isPlaceholder⟩ := v
    obtain ⟨name', offset', isLocal', vty', vloc', isPlaceholder'⟩ := v'
    obtain ⟨rfl, rfl, rfl, rfl, _, rfl⟩ := Variable.mk.inj hv
    refine parallel_ite (fun _ => inStep_refuse_bind _ _ _) fun _ => ?_
    dsimp only
    split
    · next hpair =>
      obtain ⟨rfl, rfl⟩ := Prod.mk.inj hpair
      obtain ⟨at', rfl⟩ := exists_num_of_meets hposition
      exact parallel_ite (fun _ => inStep_refuse_bind _ _ _) fun _ => parallel_pure hindex
    · next hother =>
      split
      · next hpair =>
        obtain ⟨rfl, rfl⟩ := Prod.mk.inj hpair
        obtain ⟨at', rfl⟩ := exists_num_of_meets hposition.symm
        exact (hother _ _ _ _ _ rfl).elim
      · exact parallel_pure hindex
  · next hother =>
    split
    · obtain ⟨id', baseLoc', rfl, -⟩ := exists_var_of_meets hbase.symm
      exact (hother _ _ _ rfl).elim
    · exact parallel_pure hindex

theorem exprs_call (name : String) {args args' : List Expr} (loc loc' : Nat)
    (h : w.ExprLists args args') :
    w.Exprs (.call name args .unknown loc) (.call name args' .unknown loc') := by
  rw [Comparison.Exprs, Meets, Expr.numbered_call, Expr.numbered_call, h]

theorem inStep_nameOrCall (h : ReadsAlike w inner inner) :
    ReadsAlike w (nameOrCall inner) (nameOrCall inner) := by
  refine inStep_identifier.bind ?_
  rintro ⟨name, loc⟩ ⟨_, loc'⟩ rfl
  refine (inStep_accept "(").bind ?_
  rintro called _ rfl
  refine parallel_ite (fun _ => ?_) fun _ => inStep_readName name loc loc'
  exact (inStep_listUntil ")" h).bind fun args args' hargs =>
    parallel_pure (exprs_call name loc loc' hargs)

theorem inStep_primary (h : ReadsAlike w inner inner) :
    ReadsAlike w (primary inner) (primary inner) := by
  refine (inStep_accept "(").bind ?_
  rintro opened _ rfl
  refine parallel_ite (fun _ => ?_) fun _ => ?_
  · exact h.bind fun e e' he => (inStep_expect ")").bind fun _ _ _ => parallel_pure he
  refine inStep_peek.bind fun t t' ht => ?_
  cases ht with
  | none => exact inStep_here.bind fun _ _ _ => inStep_refuse _ _ _
  | @some t t' ht =>
    dsimp only
    rw [ht.kind, ht.isCharLiteral_eq, ht.body_eq]
    split
    · refine inStep_number.bind ?_
      rintro ⟨value, loc⟩ ⟨_, loc'⟩ rfl
      exact parallel_pure rfl
    · refine inStep_advance.bind fun _ _ _ => (inStep_intern t'.body).bind fun i i' hi => ?_
      exact parallel_pure (congrArg (Expr.str · .unknown 0) hi)
    · exact inStep_nameOrCall h
    · exact inStep_unexpected _

theorem inStep_postfixed (h : ReadsAlike w inner inner) :
    ReadsAlike w (postfixed inner) (postfixed inner) := by
  refine (inStep_primary h).bind fun first first' hfirst => ?_
  refine inStep_iterate (S := w.Exprs) (fun base base' hbase => ?_) hfirst
  refine inStep_here.bind fun loc loc' _ => (inStep_accept "[").bind ?_
  rintro opened _ rfl
  refine parallel_ite (fun _ => ?_) fun _ => parallel_pure (.done hbase)
  refine h.bind fun position position' hposition => (inStep_expect "]").bind fun _ _ _ => ?_
  exact (inStep_indexed hbase hposition loc loc').map fun _ _ => .again

theorem isLvalue_of_exprs {e e' : Expr} (h : w.Exprs e e') : e.isLvalue = e'.isLvalue := by
  rw [← e.isLvalue_numbered w.numbers, ← e'.isLvalue_numbered w.numbers', h]

theorem inStep_operandTo (depth : Nat) : ReadsAlike w (operandTo depth) (operandTo depth) := by
  induction depth with
  | zero => exact inStep_broken _
  | succ depth ih =>
    refine inStep_here.bind fun loc loc' _ => (inStep_accept "+").bind ?_
    rintro plus _ rfl
    refine parallel_ite (fun _ => ih) fun _ => (inStep_accept "-").bind ?_
    rintro minus _ rfl
    refine parallel_ite (fun _ => ih.bind fun e e' he => parallel_pure ?_) fun _ =>
      (inStep_accept "&").bind ?_
    · simp only [Comparison.Exprs, Meets, Expr.numbered, he]
    rintro address _ rfl
    refine parallel_ite (fun _ => ih.bind fun e e' he => ?_) fun _ => (inStep_accept "*").bind ?_
    · rw [isLvalue_of_exprs he]
      refine parallel_ite (fun _ => parallel_pure ?_) fun _ => inStep_refuse _ _ _
      simp only [Comparison.Exprs, Meets, Expr.numbered, he]
    rintro star _ rfl
    refine parallel_ite (fun _ => ih.bind fun e e' he => parallel_pure ?_) fun _ =>
      inStep_postfixed (inStep_expressionOver ih)
    simp only [Comparison.Exprs, Meets, Expr.numbered, he]

/-- **An expression is read whatever its places are.** -/
theorem inStep_expression : ReadsAlike w expression expression :=
  inStep_bounded fun depth => inStep_expressionOver (inStep_operandTo depth)

end Expressions

end Grammar

end StackCompiler
