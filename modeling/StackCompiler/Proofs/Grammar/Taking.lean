import StackCompiler.Proofs.Grammar.Tables
import StackCompiler.Grammar.Expressions

/-!
# Proofs/Grammar/Taking — tokens that are known are taken

Where the next token is known, a parser that takes it **does succeed**, and so does a repetition
that takes a token in every round but its last (`repeats_of_round`).  A reading that goes on keeps the
names of its variables and may come to more strings (`Reading.Reaches`).
-/

namespace StackCompiler

/-- A punctuator has **one text**. -/
theorem Token.is_eq_false_of_is {token : Token} {text text' : String} (h : token.is text = true)
    (hne : text ≠ text') : token.is text' = false := by
  obtain ⟨-, rfl⟩ := Token.is_iff.mp h
  simp [Token.is, hne]

theorem Token.is_eq_false_of_kind {token : Token} (h : token.kind ≠ .punctuator) (text : String) :
    token.is text = false := by
  simp [Token.is, h]

namespace Grammar

/-! ## Readings that go on -/

/-- A reading that has come to those tokens, **with the tables as they were**. -/
structure Reading.Leaves (r : Reading) (rest : List Token) (r' : Reading) : Prop where
  rest : r'.rest = rest
  tables : r.SameTables r'

/-- The readings have the same variables, **to be seen under the same names**. -/
structure Reading.SameNames (r r' : Reading) : Prop where
  vars : r'.vars = r.vars
  globals : r'.globals = r.globals
  scope : r'.scope = r.scope

/-- A reading that has come to those tokens, with the names as they were and **perhaps more
strings**. -/
structure Reading.Reaches (r : Reading) (rest : List Token) (r' : Reading) : Prop where
  rest : r'.rest = rest
  names : r.SameNames r'
  strings : r.strings <+: r'.strings

section Readings

variable {r r' r'' : Reading} {rest rest' : List Token}

theorem Reading.Leaves.trans (h : r.Leaves rest r') (h' : r'.Leaves rest' r'') :
    r.Leaves rest' r'' :=
  ⟨h'.rest, h'.tables.vars.trans h.tables.vars, h'.tables.globals.trans h.tables.globals,
    h'.tables.strings.trans h.tables.strings, h'.tables.scope.trans h.tables.scope⟩

theorem Reading.SameNames.trans (h : r.SameNames r') (h' : r'.SameNames r'') : r.SameNames r'' :=
  ⟨h'.vars.trans h.vars, h'.globals.trans h.globals, h'.scope.trans h.scope⟩

theorem Reading.SameNames.lookup?_eq (h : r.SameNames r') (name : String) :
    r'.lookup? name = r.lookup? name := by
  have hnamed : r'.isNamed name = r.isNamed name := by
    funext id
    rw [Reading.isNamed, Reading.isNamed, h.vars]
  rw [Reading.lookup?, Reading.lookup?, h.scope, h.globals, hnamed]

theorem Reading.Leaves.reaches (h : r.Leaves rest r') : r.Reaches rest r' :=
  ⟨h.rest, ⟨h.tables.vars, h.tables.globals, h.tables.scope⟩, h.tables.strings ▸ List.prefix_rfl⟩

theorem Reading.Reaches.trans (h : r.Reaches rest r') (h' : r'.Reaches rest' r'') :
    r.Reaches rest' r'' :=
  ⟨h'.rest, h.names.trans h'.names, h.strings.trans h'.strings⟩

end Readings

/-! ## The next token -/

section Taking

variable {α : Type} {r : Reading} {token : Token} {rest : List Token} {text : String}

/-- A step that is known to succeed, and **what follows**. -/
theorem succeeds_bind_of_run {β : Type} {x : Parser β} {f : β → Parser α} {b : β} {r' : Reading}
    {Q : α → Reading → Prop} (h : x.run r = .ok (b, r')) (hf : Succeeds (f b) r' Q) :
    Succeeds (x >>= f) r Q :=
  (succeeds_bind _ _).mpr ⟨b, r', h, hf⟩

theorem succeeds_here {Q : Nat → Reading → Prop} (h : ∀ loc, Q loc r) : Succeeds here r Q := by
  unfold here
  rw [succeeds_bind, succeeds_get]
  exact (succeeds_pure _).mpr (h _)

theorem succeeds_here_bind {f : Nat → Parser α} {Q : α → Reading → Prop}
    (h : ∀ loc, Succeeds (f loc) r Q) : Succeeds (here >>= f) r Q :=
  (succeeds_bind _ _).mpr (succeeds_here h)

theorem succeeds_advance (hr : r.rest = token :: rest) {Q : Unit → Reading → Prop}
    (h : ∀ r', r.Leaves rest r' → Q () r') : Succeeds advance r Q := by
  unfold advance
  rw [succeeds_modify, hr]
  exact h _ ⟨rfl, rfl, rfl, rfl, rfl⟩

theorem succeeds_ahead {Q : Bool → Reading → Prop} (h : Q (r.rest.head?.any (·.is text)) r) :
    Succeeds (ahead text) r Q := by
  unfold ahead peek
  simpa only [succeeds_bind, succeeds_get, succeeds_pure] using h

theorem succeeds_accept (hr : r.rest = token :: rest) (his : token.is text = true)
    {Q : Bool → Reading → Prop} (h : ∀ r', r.Leaves rest r' → Q true r') :
    Succeeds (accept text) r Q := by
  unfold accept
  rw [succeeds_bind]
  refine succeeds_ahead ?_
  rw [hr, List.head?_cons, Option.any_some, his, if_pos rfl, succeeds_bind]
  exact succeeds_advance hr fun r' hr' => (succeeds_pure _).mpr (h r' hr')

theorem succeeds_accept_other (hr : ∀ token ∈ r.rest.head?, token.is text = false)
    {Q : Bool → Reading → Prop} (h : Q false r) : Succeeds (accept text) r Q := by
  have hnone : r.rest.head?.any (·.is text) = false := by
    rw [Option.any_eq_false]
    exact fun token htoken => by simp [hr token htoken]
  unfold accept
  rw [succeeds_bind]
  refine succeeds_ahead ?_
  rw [hnone, if_neg Bool.false_ne_true]
  exact (succeeds_pure _).mpr h

section Branches

variable {x y : Parser α} {Q : α → Reading → Prop}

/-- The next token is the sign that is looked for. -/
theorem succeeds_then (hr : r.rest = token :: rest) (his : token.is text = true)
    (h : ∀ r', r.Leaves rest r' → Succeeds x r' Q) :
    Succeeds (accept text >>= fun found => if found = true then x else y) r Q := by
  rw [succeeds_bind]
  refine succeeds_accept hr his fun r' hr' => ?_
  rw [if_pos rfl]
  exact h r' hr'

/-- The next token is **not** the sign that is looked for. -/
theorem succeeds_else (hr : ∀ token ∈ r.rest.head?, token.is text = false) (h : Succeeds y r Q) :
    Succeeds (accept text >>= fun found => if found = true then x else y) r Q := by
  rw [succeeds_bind]
  refine succeeds_accept_other hr ?_
  rwa [if_neg Bool.false_ne_true]

theorem succeeds_unless (hr : r.rest = token :: rest) (hother : token.is text = false)
    (h : Succeeds y r Q) :
    Succeeds (accept text >>= fun found => if found = true then x else y) r Q :=
  succeeds_else (by rw [hr]; rintro _ ⟨⟩; exact hother) h

end Branches

theorem succeeds_expect (hr : r.rest = token :: rest) (his : token.is text = true)
    {Q : Nat → Reading → Prop} (h : ∀ loc r', r.Leaves rest r' → Q loc r') :
    Succeeds (expect text) r Q :=
  succeeds_here_bind fun loc => succeeds_then hr his fun r' hr' =>
    (succeeds_pure _).mpr (h loc r' hr')

theorem succeeds_identifier (hr : r.rest = token :: rest) (hkind : token.kind = .ident)
    {Q : String × Nat → Reading → Prop} (h : ∀ loc r', r.Leaves rest r' → Q (token.text, loc) r') :
    Succeeds identifier r Q := by
  obtain ⟨kind, text, value, loc, len⟩ := token
  cases hkind
  unfold identifier peek
  simp only [succeeds_bind, succeeds_get, succeeds_pure, hr, List.head?_cons]
  exact succeeds_advance hr fun r' hr' => h loc r' hr'

theorem succeeds_number {v : Int64} (hr : r.rest = token :: rest) (hkind : token.kind = .num)
    (hvalue : token.value = some v) {Q : Int64 × Nat → Reading → Prop}
    (h : ∀ loc r', r.Leaves rest r' → Q (v, loc) r') : Succeeds number r Q := by
  obtain ⟨kind, text, value, loc, len⟩ := token
  cases hkind
  cases hvalue
  unfold number peek
  simp only [succeeds_bind, succeeds_get, succeeds_pure, hr, List.head?_cons]
  exact succeeds_advance hr fun r' hr' => h loc r' hr'

theorem succeeds_acceptOperator_other {level : Level}
    (hr : ∀ token ∈ r.rest.head?, ∀ o ∈ level, token.is o.text = false)
    {Q : Option LevelOperator → Reading → Prop} (h : Q none r) :
    Succeeds (acceptOperator level) r Q := by
  have hnone : (r.rest.head?.bind fun token => level.find? fun o => token.is o.text) = none := by
    rw [Option.bind_eq_none_iff]
    intro token htoken
    rw [List.find?_eq_none]
    exact fun o ho => by simp [hr token htoken o ho]
  unfold acceptOperator peek
  simp only [succeeds_bind, succeeds_get, succeeds_pure, hnone]
  exact h

theorem succeeds_acceptOperator {level : Level} (hr : r.rest = token :: rest) {o : LevelOperator}
    (hfind : level.find? (fun o => token.is o.text) = some o)
    {Q : Option LevelOperator → Reading → Prop} (h : ∀ r', r.Leaves rest r' → Q (some o) r') :
    Succeeds (acceptOperator level) r Q := by
  unfold acceptOperator peek
  simp only [succeeds_bind, succeeds_get, succeeds_pure, hr, List.head?_cons, Option.bind_some,
    hfind]
  exact succeeds_advance hr h

/-- A string has its number in the table **afterwards**. -/
theorem succeeds_intern (s : String) (r : Reading) :
    Succeeds (intern s) r fun i r' => r'.strings[i]? = some s ∧ r.Reaches r.rest r' := by
  unfold intern
  rw [succeeds_bind, succeeds_get]
  split
  · next i hi =>
    obtain ⟨hlt, hs, -⟩ := List.idxOf?_eq_some_iff.mp hi
    exact (succeeds_pure _).mpr
      ⟨List.getElem?_eq_some_iff.mpr ⟨hlt, hs⟩, rfl, ⟨rfl, rfl, rfl⟩, List.prefix_rfl⟩
  · rw [succeeds_bind, succeeds_set]
    exact (succeeds_pure _).mpr
      ⟨List.getElem?_concat_length, rfl, ⟨rfl, rfl, rfl⟩, List.prefix_append r.strings [s]⟩

end Taking

/-! ## Repetition -/

section Repetition

variable {σ α : Type} {round : σ → Parser (Round σ α)} {Q Q' : α → Reading → Prop} {r : Reading}

/-- The repetition succeeds from there on, **if it may be repeated once for each token**. -/
def Repeats (round : σ → Parser (Round σ α)) (state : σ) (r : Reading) (Q : α → Reading → Prop) :
    Prop :=
  ∀ n, r.rest.length < n → Succeeds (rounds round n state) r Q

/-- After a round the repetition goes on **with fewer tokens**, or has its result. -/
def GoesOn (round : σ → Parser (Round σ α)) (r : Reading) (Q : α → Reading → Prop) :
    Round σ α → Reading → Prop
  | .again state, r' => r'.rest.length < r.rest.length ∧ Repeats round state r' Q
  | .done result, r' => Q result r'

theorem repeats_of_round {state : σ} (h : Succeeds (round state) r (GoesOn round r Q)) :
    Repeats round state r Q := by
  intro n hn
  cases n with
  | zero => exact absurd hn (Nat.not_lt_zero _)
  | succ n =>
    unfold rounds
    rw [succeeds_bind]
    refine h.mono ?_
    rintro (next | result) r' h
    · obtain ⟨hlt, hnext⟩ := h
      exact hnext n (by omega)
    · exact (succeeds_pure _).mpr h

theorem Repeats.mono {state : σ} (h : Repeats round state r Q) (hQ : ∀ a r', Q a r' → Q' a r') :
    Repeats round state r Q' :=
  fun n hn => (h n hn).mono hQ

theorem Repeats.iterate {state : σ} (h : Repeats round state r Q) :
    Succeeds (iterate round state) r Q := by
  unfold Grammar.iterate bounded bound
  simp only [succeeds_bind, succeeds_get, succeeds_pure]
  exact h _ (Nat.lt_succ_self _)

end Repetition

end Grammar

end StackCompiler
