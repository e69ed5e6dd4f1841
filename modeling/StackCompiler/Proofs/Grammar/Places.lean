import StackCompiler.Grammar.Package
import StackCompiler.Proofs.Fails
import StackCompiler.Proofs.Grammar.Expressions
import StackCompiler.Proofs.Token.Places

/-!
# Proofs/Grammar/Places — where reading refuses a source

A parser over the tokens of a source either reads what it is to read or refuses it **at one of the
tokens** (`RefusedAt`): whatever it looks up is there, and no repetition runs out of rounds, since
each round takes a token.  What is read has its places at tokens too, so the stages behind it can
refuse at nothing else.
-/

namespace StackCompiler

/-! ## Places at tokens -/

/-- The offset is that of a token, or the start of the source. -/
def AtToken (tokens : List Token) (n : Nat) : Prop :=
  n = 0 ∨ ∃ t ∈ tokens, n = t.loc

/-- The failure is a refusal at a token, for **no lexical cause**. -/
def RefusedAt (tokens : List Token) (failure : Failure) : Prop :=
  ∃ d, failure = .refused d ∧ d.cause.category ≠ .lexical ∧ AtToken tokens d.offset

/-- A token starts or ends outside of the source or **inside a character**, or the source is longer than
places are counted. -/
def Strays (source : List Char) (tokens : List Token) : Prop :=
  Grammar.placeLimit ≤ Text.byteLength source ∨
    ∃ t ∈ tokens, ¬Text.Boundary source t.loc ∨ ¬Text.Boundary source (t.loc + t.len)

/-- Reading stops with a refusal at a token, or for want of a place, but only if there are tokens that
**have none**. -/
def StoppedAt (source : List Char) (tokens : List Token) (failure : Failure) : Prop :=
  RefusedAt tokens failure ∨ failure = .broken .noSuchPlace ∧ Strays source tokens

/-- The end of the source is the place of a token. -/
abbrev EndsAtToken (source : List Char) (tokens : List Token) : Prop :=
  AtToken tokens (Text.byteLength source)

/-- The node stands at a token, and a variable has a number **below that of the arena's end**. -/
def Expr.PlaceRule (tokens : List Token) (arena : Nat) : Expr → Prop
  | .var id _ loc => AtToken tokens loc ∧ id < arena
  | e => AtToken tokens e.loc

/-- An assignment stands at a token; no other statement is refused as a whole. -/
def Stmt.PlaceRule (tokens : List Token) : Stmt → Prop
  | .assign _ _ loc => AtToken tokens loc
  | _ => True

/-- The expression stands at tokens, with its variables in the arena. -/
abbrev Expr.Placed (tokens : List Token) (arena : Nat) (e : Expr) : Prop :=
  e.Everywhere (Expr.PlaceRule tokens arena)

abbrev Stmt.Placed (tokens : List Token) (arena : Nat) (s : Stmt) : Prop :=
  s.Everywhere (Expr.PlaceRule tokens arena) (Stmt.PlaceRule tokens)

/-- The tokens stand between characters of the source, **up to its end**. -/
structure Covers (source : List Char) (tokens : List Token) : Prop where
  starts : ∀ t ∈ tokens, Text.Boundary source t.loc
  stops : ∀ t ∈ tokens, Text.Boundary source (t.loc + t.len)
  finish : ∃ t ∈ tokens, Text.byteLength source = t.loc

/-- The tokens that a source is cut into **cover it**. -/
theorem covers_of_tokenize {source : List Char} {tokens : List Token}
    (h : tokenize source = .ok tokens) : Covers source tokens where
  starts t ht := (readFrom_of_tokenize h t ht).boundary_loc
  stops t ht := (readFrom_of_tokenize h t ht).boundary_end
  finish := ⟨_, sourceEnd_mem_of_tokenize h, rfl⟩

theorem Covers.endsAtToken {source : List Char} {tokens : List Token}
    (hc : Covers source tokens) : EndsAtToken source tokens :=
  .inr hc.finish

/-- Tokens that cover a source **have their places there**. -/
theorem Covers.limit_le_of_strays {source : List Char} {tokens : List Token}
    (hc : Covers source tokens) (h : Strays source tokens) :
    Grammar.placeLimit ≤ Text.byteLength source := by
  rcases h with hsize | ⟨t, ht, hloc | hstop⟩
  · exact hsize
  · exact absurd (hc.starts t ht) hloc
  · exact absurd (hc.stops t ht) hstop

section Mono

variable {tokens : List Token} {arena arena' : Nat}

theorem Expr.PlaceRule.atToken {e : Expr} (h : e.PlaceRule tokens arena) : AtToken tokens e.loc := by
  cases e with
  | var => exact h.1
  | _ => exact h

theorem Expr.PlaceRule.mono (hle : arena ≤ arena') (e : Expr) (h : e.PlaceRule tokens arena) :
    e.PlaceRule tokens arena' := by
  cases e with
  | var => exact ⟨h.1, h.2.trans_le hle⟩
  | _ => exact h

theorem Expr.Placed.mono {e : Expr} (h : e.Placed tokens arena) (hle : arena ≤ arena') :
    e.Placed tokens arena' :=
  Everywhere.mono (PlaceRule.mono hle) h

theorem Stmt.Placed.mono {s : Stmt} (h : s.Placed tokens arena) (hle : arena ≤ arena') :
    s.Placed tokens arena' :=
  Everywhere.mono (Expr.PlaceRule.mono hle) (fun _ => id) h

theorem exprs_placed_mono {es : List Expr} (h : ∀ e ∈ es, e.Placed tokens arena)
    (hle : arena ≤ arena') : ∀ e ∈ es, e.Placed tokens arena' :=
  fun e he => (h e he).mono hle

theorem stmts_placed_mono {ss : List Stmt} (h : ∀ s ∈ ss, s.Placed tokens arena)
    (hle : arena ≤ arena') : ∀ s ∈ ss, s.Placed tokens arena' :=
  fun s hs => (h s hs).mono hle

end Mono

namespace Grammar

/-! ## Walks over the tokens -/

/-- What is left and what was taken last are tokens of the source, and the tables hold variables
that stand at tokens. -/
structure Reading.Placed (source : List Char) (tokens : List Token) (r : Reading) : Prop where
  source : r.source = source
  rest : ∀ t ∈ r.rest, t ∈ tokens
  previous : ∀ t ∈ r.previous, t ∈ tokens
  visible : ∀ id ∈ r.visible, id < r.vars.length
  vars : ∀ v ∈ r.vars, AtToken tokens v.loc

/-- How reading goes on: it takes tokens and **adds variables**. -/
abbrev places (source : List Char) (tokens : List Token) : Course Reading where
  Sound := Reading.Placed source tokens
  Leads r r' := r'.rest.length ≤ r.rest.length ∧ r.vars.length ≤ r'.vars.length
  refl _ := ⟨le_rfl, le_rfl⟩
  trans h h' := ⟨h'.1.trans h.1, h.2.trans h'.2⟩

/-- What a parser that started from `r` has come to, and `Q` of its result. -/
abbrev Moved {α : Type} (source : List Char) (tokens : List Token) (r : Reading)
    (Q : α → Reading → Prop) : α → Reading → Prop :=
  (places source tokens).Kept r Q

/-- With fewer than `n` tokens left the parser takes **at least one of them**, and `P` holds of its
result in the arena as it is then. -/
def Takes {α : Type} (source : List Char) (tokens : List Token) (n : Nat) (x : Parser α)
    (P : α → Nat → Prop) : Prop :=
  ∀ r : Reading, r.Placed source tokens → r.rest.length < n →
    Ends x r (Moved source tokens r fun a r' => r'.rest.length < r.rest.length ∧ P a r'.vars.length)
      (StoppedAt source tokens)

section Steps

variable {α β σ : Type} {source : List Char} {tokens : List Token} {r : Reading} {n : Nat}
  {P : α → Nat → Prop} {Q : α → Reading → Prop}

theorem moved_pure {a : α} (hr : r.Placed source tokens) (ha : Q a r) :
    Ends (pure a : Parser α) r (Moved source tokens r Q) (StoppedAt source tokens) :=
  (ends_pure a).mpr ⟨hr, (places source tokens).refl r, ha⟩

theorem ends_refuse {cause : Cause} {loc : Nat} (hcategory : cause.category ≠ .lexical)
    (hloc : AtToken tokens loc) :
    Ends (refuse cause loc : Parser α) r Q (StoppedAt source tokens) :=
  (ends_throw _).mpr (.inl ⟨_, rfl, hcategory, hloc⟩)

theorem ends_refuse_bind {cause : Cause} {loc : Nat} {f : β → Parser α}
    (hcategory : cause.category ≠ .lexical) (hloc : AtToken tokens loc) :
    Ends (refuse cause loc >>= f) r Q (StoppedAt source tokens) :=
  (ends_bind _ _).mpr (ends_refuse hcategory hloc)

/-! ### The next token -/

variable {E : Failure → Prop}

theorem Reading.Placed.head? (hr : r.Placed source tokens) {t : Token} (ht : r.rest.head? = some t) :
    t ∈ tokens :=
  hr.rest t (List.mem_of_head? ht)

theorem ends_peek {Q : Option Token → Reading → Prop} (h : Q r.rest.head? r) :
    Ends peek r Q E := by
  simpa only [peek, ends_bind, ends_get, ends_pure] using h

theorem ends_here (hend : EndsAtToken source tokens) (hr : r.Placed source tokens)
    {Q : Nat → Reading → Prop}
    (h : ∀ loc, AtToken tokens loc → (¬Strays source tokens → Text.Boundary source loc) → Q loc r) :
    Ends here r Q E := by
  simp only [here, ends_bind, ends_get, ends_pure]
  split
  · rw [hr.source]
    exact h _ hend fun _ => Text.boundary_byteLength source
  · next t rest hrest =>
    have ht : t ∈ tokens := hr.rest t (hrest ▸ List.mem_cons_self)
    exact h _ (.inr ⟨t, ht, rfl⟩) fun hplaced => by_contra fun hloc => hplaced (.inr ⟨t, ht, .inl hloc⟩)

theorem ends_ahead {text : String} {Q : Bool → Reading → Prop}
    (h : ∀ found, (found = true → r.rest ≠ []) → Q found r) : Ends (ahead text) r Q E := by
  refine (ends_bind _ _).mpr (ends_peek ((ends_pure _).mpr (h _ fun hfound hnil => ?_)))
  rw [hnil] at hfound
  cases hfound

theorem ends_aheadKind {kind : Token.Kind} {Q : Bool → Reading → Prop} (h : ∀ found, Q found r) :
    Ends (aheadKind kind) r Q E :=
  (ends_bind _ _).mpr (ends_peek ((ends_pure _).mpr (h _)))

theorem ends_atEnd {Q : Bool → Reading → Prop} (h : ∀ found, Q found r) : Ends atEnd r Q E :=
  (ends_bind _ _).mpr (ends_peek ((ends_pure _).mpr (h _)))

/-- Taking a token makes what is left **shorter**. -/
theorem ends_advance (hr : r.Placed source tokens) :
    Ends advance r (Moved source tokens r fun _ r' => r.rest ≠ [] →
      r'.rest.length < r.rest.length) E := by
  refine (ends_modify _).mpr ?_
  cases hrest : r.rest with
  | nil => exact ⟨hr, (places source tokens).refl r, fun h => absurd rfl h⟩
  | cons t rest =>
    have hmem := hrest ▸ hr.rest
    refine ⟨⟨hr.source, fun t' ht' => hmem t' (List.mem_cons_of_mem _ ht'), ?_, hr.visible, hr.vars⟩,
      ⟨?_, le_rfl⟩, fun _ => ?_⟩
    · rintro _ ⟨⟩
      exact hmem t List.mem_cons_self
    · rw [hrest]
      exact Nat.le_succ _
    · exact Nat.lt_succ_self _

theorem ends_accept {text : String} (hr : r.Placed source tokens) :
    Ends (accept text) r (Moved source tokens r fun found r' => found = true →
      r'.rest.length < r.rest.length) (StoppedAt source tokens) := by
  refine (ends_bind _ _).mpr (ends_ahead fun found hfound => ?_)
  cases found with
  | false => exact moved_pure hr nofun
  | true =>
    exact Course.ends_andThen (ends_advance hr) fun _ r' hr' _ hrest =>
      moved_pure hr' fun _ => hrest (hfound rfl)

theorem ends_unexpected (hend : EndsAtToken source tokens) (hr : r.Placed source tokens)
    {expected : Expected} : Ends (unexpected expected : Parser α) r Q (StoppedAt source tokens) :=
  (ends_bind _ _).mpr (ends_peek ((ends_bind _ _).mpr (ends_here hend hr fun _ hloc _ =>
    ends_refuse nofun hloc)))

theorem ends_expect (hend : EndsAtToken source tokens) (hr : r.Placed source tokens) {text : String} :
    Ends (expect text) r (Moved source tokens r fun loc r' => r'.rest.length < r.rest.length ∧
      AtToken tokens loc) (StoppedAt source tokens) := by
  refine (ends_bind _ _).mpr (ends_here hend hr fun loc hloc _ => ?_)
  refine Course.ends_andThen (ends_accept hr) fun found r' hr' _ hfound => ?_
  cases found with
  | false => exact ends_unexpected hend hr'
  | true => exact moved_pure hr' ⟨hfound rfl, hloc⟩

/-- The name is the text of an identifier. -/
def IsIdentifier (tokens : List Token) (name : String) : Prop :=
  ∃ t ∈ tokens, t.kind = .ident ∧ t.text = name

theorem takes_identifier (hend : EndsAtToken source tokens) :
    Takes source tokens n identifier fun a _ => IsIdentifier tokens a.1 ∧ AtToken tokens a.2 := by
  intro r hr _
  refine (ends_bind _ _).mpr (ends_peek ?_)
  split
  · next text value loc len htoken =>
    have ht := hr.head? htoken
    refine Course.ends_andThen (ends_advance hr) fun _ r' hr' _ hrest => moved_pure hr' ?_
    exact ⟨hrest (List.ne_nil_of_mem (List.mem_of_head? htoken)), ⟨_, ht, rfl, rfl⟩, .inr ⟨_, ht, rfl⟩⟩
  · exact ends_unexpected hend hr

theorem takes_number (hend : EndsAtToken source tokens) :
    Takes source tokens n number fun a _ => AtToken tokens a.2 := by
  intro r hr _
  refine (ends_bind _ _).mpr (ends_peek ?_)
  split
  · next htoken =>
    refine Course.ends_andThen (ends_advance hr) fun _ r' hr' _ hrest => moved_pure hr' ?_
    exact ⟨hrest (List.ne_nil_of_mem (List.mem_of_head? htoken)), .inr ⟨_, hr.head? htoken, rfl⟩⟩
  · next htoken => exact ends_refuse nofun (.inr ⟨_, hr.head? htoken, rfl⟩)
  · exact ends_unexpected hend hr

/-- **The text between two tokens is there** to be looked at, unless there are tokens that stray. -/
theorem ends_atLineStart (hend : EndsAtToken source tokens) (hr : r.Placed source tokens)
    {Q : Bool → Reading → Prop} (h : ∀ found, Q found r) :
    Ends atLineStart r Q (StoppedAt source tokens) := by
  refine (ends_bind _ _).mpr (ends_get.mpr ?_)
  split
  · exact (ends_pure _).mpr (h _)
  next t hprevious =>
  have hstop (hplaced : ¬Strays source tokens) : Text.Boundary source (t.loc + t.len) :=
    by_contra fun hstop => hplaced (.inr ⟨t, hr.previous t hprevious, .inr hstop⟩)
  have hstray (hgap : ¬Strays source tokens → False) :
      Ends (broken .noSuchPlace) r Q (StoppedAt source tokens) :=
    (ends_throw _).mpr (.inr ⟨rfl, by_contra hgap⟩)
  refine (ends_bind _ _).mpr (ends_here hend hr fun loc _ hloc => ?_)
  split
  · next hlimit =>
    exact hstray fun hplaced => hplaced (.inl (hlimit.trans (hstop hplaced).le))
  split
  · exact (ends_pure _).mpr (h _)
  next hle =>
  split
  · next hnone =>
    refine hstray fun hplaced => ?_
    obtain ⟨gap, hgap⟩ := (hstop hplaced).exists_slice? (hloc hplaced) (not_lt.mp hle)
    rw [hr.source, hgap] at hnone
    cases hnone
  · exact (ends_pure _).mpr (h _)

/-! ### Repetition -/

/-- **A repetition ends**: each of its rounds takes a token or is the last one. -/
theorem ends_iterate {round : σ → Parser (Round σ α)} {I : σ → Reading → Prop}
    (hr : r.Placed source tokens)
    (hround : ∀ state r', r'.Placed source tokens → r'.rest.length ≤ r.rest.length →
      r.vars.length ≤ r'.vars.length → I state r' →
      Ends (round state) r' (Moved source tokens r' (RoundKept
        (fun state r'' => r''.rest.length < r'.rest.length ∧ I state r'') Q)) (StoppedAt source tokens))
    {state : σ} (hI : I state r) :
    Ends (iterate round state) r (Moved source tokens r Q) (StoppedAt source tokens) := by
  have hrounds : ∀ n state r', r'.Placed source tokens → r'.rest.length < n →
      r'.rest.length ≤ r.rest.length → r.vars.length ≤ r'.vars.length → I state r' →
      Ends (rounds round n state) r' (Moved source tokens r' Q) (StoppedAt source tokens) := by
    intro n
    induction n with
    | zero => exact fun _ _ _ hlt => absurd hlt (Nat.not_lt_zero _)
    | succ n ih =>
      intro state r' hr' hlt hrest hvars hI
      refine Course.ends_andThen (hround state r' hr' hrest hvars hI) ?_
      rintro (next | a) r'' hr'' ⟨hrest', hvars'⟩ h
      · exact ih next r'' hr'' (by have := h.1; omega) (hrest'.trans hrest) (hvars.trans hvars') h.2
      · exact moved_pure hr'' h
  unfold iterate bounded bound
  simp only [ends_bind, ends_get, ends_pure]
  exact hrounds _ state r hr (Nat.lt_succ_self _) le_rfl le_rfl hI

theorem forall_mem_concat {as : List α} {a : α} {arena arena' : Nat}
    (hP : ∀ {a : α} {m m' : Nat}, m ≤ m' → P a m → P a m') (hle : arena ≤ arena')
    (has : ∀ b ∈ as, P b arena) (ha : P a arena') : ∀ b ∈ as ++ [a], P b arena' := by
  intro b hb
  rcases List.mem_append.mp hb with hb | hb
  · exact hP hle (has b hb)
  · obtain rfl := List.mem_singleton.mp hb
    exact ha

variable {item : Parser α}

theorem takes_commaList (hP : ∀ {a : α} {m m' : Nat}, m ≤ m' → P a m → P a m')
    (hitem : Takes source tokens n item P) :
    Takes source tokens n (commaList item) fun as arena => ∀ a ∈ as, P a arena := by
  intro r hr hn
  refine ends_iterate (I := fun as r' => ∀ a ∈ as, P a r'.vars.length) hr
    (fun as r₁ hr₁ hrest₁ _ has => ?_) fun _ h => absurd h List.not_mem_nil
  refine Course.ends_andThen (hitem r₁ hr₁ (by omega)) fun a r₂ hr₂ ⟨_, hvars₂⟩ ⟨hrest₂, ha⟩ => ?_
  refine Course.ends_andThen (ends_accept hr₂) fun comma r₃ hr₃ ⟨hrest₃, hvars₃⟩ _ => ?_
  have hall := forall_mem_concat (P := P) hP (hvars₂.trans hvars₃) has (hP hvars₃ ha)
  cases comma with
  | true => exact moved_pure hr₃ ⟨by omega, hall⟩
  | false => exact moved_pure hr₃ ⟨by omega, hall⟩

/-- Items up to a closing bracket, **which is taken as well**. -/
theorem takes_listUntil (hend : EndsAtToken source tokens) (close : String)
    (hP : ∀ {a : α} {m m' : Nat}, m ≤ m' → P a m → P a m')
    (hitem : Takes source tokens n item P) :
    Takes source tokens n (listUntil close item) fun as arena => ∀ a ∈ as, P a arena := by
  intro r hr hn
  refine Course.ends_andThen (ends_accept hr) fun closed r₀ hr₀ ⟨hrest₀, _⟩ hclosed => ?_
  cases closed with
  | true => exact moved_pure hr₀ ⟨hclosed rfl, fun _ h => absurd h List.not_mem_nil⟩
  | false =>
  refine ends_iterate (I := fun as r' => ∀ a ∈ as, P a r'.vars.length) hr₀
    (fun as r₁ hr₁ hrest₁ _ has => ?_) fun _ h => absurd h List.not_mem_nil
  refine Course.ends_andThen (hitem r₁ hr₁ (by omega)) fun a r₂ hr₂ ⟨_, hvars₂⟩ ⟨hrest₂, ha⟩ => ?_
  refine Course.ends_andThen (ends_accept hr₂) fun closed r₃ hr₃ ⟨hrest₃, hvars₃⟩ _ => ?_
  have hall := forall_mem_concat (P := P) hP (hvars₂.trans hvars₃) has (hP hvars₃ ha)
  cases closed with
  | true => exact moved_pure hr₃ ⟨by omega, hall⟩
  | false =>
    refine Course.ends_andThen (ends_expect hend hr₃) fun _ r₄ hr₄ ⟨_, hvars₄⟩ ⟨hrest₄, _⟩ => ?_
    exact moved_pure hr₄ ⟨by omega, fun b hb => hP hvars₄ (hall b hb)⟩

end Steps

variable {source : List Char} {tokens : List Token} {r : Reading} {n : Nat}

/-! ## Types -/

theorem ends_typeAhead {E : Failure → Prop} {Q : Bool → Reading → Prop} (h : ∀ found, Q found r) :
    Ends typeAhead r Q E :=
  (ends_bind _ _).mpr (ends_ahead fun _ _ => (ends_bind _ _).mpr (ends_ahead fun _ _ =>
    (ends_bind _ _).mpr (ends_aheadKind fun _ => (ends_pure _).mpr (h _))))

theorem takes_namedType (hend : EndsAtToken source tokens) :
    Takes source tokens n namedType fun _ _ => True := by
  intro r hr _
  refine (ends_bind _ _).mpr (ends_peek ?_)
  split
  · next htoken =>
    split
    · refine Course.ends_andThen (ends_advance hr) fun _ r' hr' _ hrest => moved_pure hr' ?_
      exact ⟨hrest (List.ne_nil_of_mem (List.mem_of_head? htoken)), trivial⟩
    · exact ends_unexpected hend hr
  · exact ends_unexpected hend hr

/-- A type nests **no deeper than there are tokens**. -/
theorem takes_typeTo (hend : EndsAtToken source tokens) (depth : Nat) :
    Takes source tokens depth (typeTo depth) fun _ _ => True := by
  induction depth with
  | zero => exact fun _ _ hlt => absurd hlt (Nat.not_lt_zero _)
  | succ depth ih =>
    intro r hr hn
    refine Course.ends_andThen (ends_accept hr) fun star r₁ hr₁ ⟨hrest₁, _⟩ hstar => ?_
    cases star with
    | true =>
      have hstar := hstar rfl
      refine Course.ends_andThen (ih r₁ hr₁ (by omega)) fun _ r₂ hr₂ ⟨hrest₂, _⟩ _ => ?_
      exact moved_pure hr₂ ⟨by omega, trivial⟩
    | false =>
    refine Course.ends_andThen (ends_accept hr₁) fun bracket r₂ hr₂ ⟨hrest₂, _⟩ hbracket => ?_
    cases bracket with
    | false =>
      exact (takes_namedType hend r₂ hr₂ (Nat.lt_succ_self _)).mono fun _ r₃ ⟨hr₃, hl₃, hrest₃, _⟩ =>
        ⟨hr₃, hl₃, by omega, trivial⟩
    | true =>
      have hbracket := hbracket rfl
      refine Course.ends_andThen (takes_number hend r₂ hr₂ (Nat.lt_succ_self _))
        fun ⟨len, loc⟩ r₃ hr₃ ⟨hrest₃, _⟩ ⟨_, hloc⟩ => ?_
      dsimp only
      split
      · exact ends_refuse_bind nofun hloc
      refine Course.ends_andThen (ends_expect hend hr₃) fun _ r₄ hr₄ ⟨hrest₄, _⟩ _ => ?_
      refine Course.ends_andThen (ih r₄ hr₄ (by omega)) fun base r₅ hr₅ ⟨hrest₅, _⟩ _ => ?_
      unfold arrayType
      dsimp only
      split
      · exact moved_pure hr₅ ⟨by omega, trivial⟩
      · exact ends_refuse nofun hloc

theorem takes_type (hend : EndsAtToken source tokens) : Takes source tokens n type fun _ _ => True := by
  intro r hr _
  unfold type bounded bound
  simp only [ends_bind, ends_get, ends_pure]
  exact takes_typeTo hend _ r hr (Nat.lt_succ_self _)

/-! ## Names -/

theorem Reading.Placed.lt_of_lookup? (hr : r.Placed source tokens) {name : String} {id : VarId}
    (h : r.lookup? name = some id) : id < r.vars.length :=
  hr.visible id (Reading.mem_visible_of_lookup? h)

theorem Reading.Placed.addVariable (hr : r.Placed source tokens) (name : String) (ty : Ty)
    {loc : Nat} (hloc : AtToken tokens loc) (placeholder : Bool) :
    (r.addVariable name ty loc placeholder).Placed source tokens where
  source := hr.source
  rest := hr.rest
  previous := hr.previous
  visible id hid := (hr.visible id hid).trans_le (by simp [Reading.addVariable])
  vars v hv := by
    rcases List.mem_append.mp hv with hv | hv
    · exact hr.vars v hv
    · obtain rfl := List.mem_singleton.mp hv
      exact hloc

/-- Listing a number of the arena leaves the tables placed. -/
theorem Reading.Placed.listed (hr : r.Placed source tokens) {id : VarId} (hid : id < r.vars.length) :
    (r.listed id).Placed source tokens := by
  unfold Reading.listed
  split
  · next locals hscope =>
    refine ⟨hr.source, hr.rest, hr.previous, fun id' hid' => ?_, hr.vars⟩
    have hvisible : r.visible = locals ++ r.globals := by rw [Reading.visible, hscope]; rfl
    rw [Reading.visible, Option.getD_some, List.append_assoc] at hid'
    rcases List.mem_append.mp hid' with hid' | hid'
    · exact hr.visible id' (hvisible ▸ List.mem_append_left _ hid')
    rcases List.mem_append.mp hid' with hid' | hid'
    · obtain rfl := List.mem_singleton.mp hid'
      exact hid
    · exact hr.visible id' (hvisible ▸ List.mem_append_right _ hid')
  · next hscope =>
    refine ⟨hr.source, hr.rest, hr.previous, fun id' hid' => ?_, hr.vars⟩
    rw [Reading.visible, ← List.append_assoc] at hid'
    rcases List.mem_append.mp hid' with hid' | hid'
    · exact hr.visible id' hid'
    · obtain rfl := List.mem_singleton.mp hid'
      exact hid

theorem ends_declare (hr : r.Placed source tokens) (name : String) (ty : Ty) {loc : Nat}
    (hloc : AtToken tokens loc) :
    Ends (declare name ty loc) r (Moved source tokens r fun id r' => id < r'.vars.length)
      (StoppedAt source tokens) := by
  refine (ends_bind _ _).mpr (ends_get.mpr ?_)
  dsimp only
  split
  · exact ends_refuse_bind nofun hloc
  have hlength : (r.addVariable name ty loc false).vars.length = r.vars.length + 1 := by
    simp [Reading.addVariable]
  have hlt : r.vars.length < (r.addVariable name ty loc false).vars.length := by omega
  have hlisted : ((r.addVariable name ty loc false).listed r.vars.length).vars.length =
      r.vars.length + 1 := by
    unfold Reading.listed
    split <;> exact hlength
  have hrest : ((r.addVariable name ty loc false).listed r.vars.length).rest = r.rest := by
    unfold Reading.listed
    split <;> rfl
  simp only [ends_bind, ends_set, ends_pure]
  exact ⟨(hr.addVariable name ty hloc false).listed hlt,
    ⟨by rw [hrest], (Nat.le_succ _).trans hlisted.ge⟩, hlisted.ge⟩

theorem ends_readName (hr : r.Placed source tokens) (name : String) {loc : Nat}
    (hloc : AtToken tokens loc) :
    Ends (readName name loc) r (Moved source tokens r fun e r' => e.Placed tokens r'.vars.length)
      (StoppedAt source tokens) := by
  refine (ends_bind _ _).mpr (ends_get.mpr ?_)
  split
  · next id h => exact moved_pure hr (.var ⟨hloc, hr.lt_of_lookup? h⟩)
  · simp only [ends_bind, ends_set, ends_pure]
    have hlt : r.vars.length < (r.addVariable name .unknown loc true).vars.length := by
      simp [Reading.addVariable]
    exact ⟨hr.addVariable name .unknown hloc true, ⟨le_rfl, hlt.le⟩, .var ⟨hloc, hlt⟩⟩

theorem ends_variableOf {E : Failure → Prop} {id : VarId} (hid : id < r.vars.length)
    {Q : Variable → Reading → Prop} (h : ∀ v, Q v r) : Ends (variableOf id) r Q E := by
  refine (ends_bind _ _).mpr (ends_get.mpr ?_)
  rw [List.getElem?_eq_getElem hid]
  exact (ends_pure _).mpr (h _)

theorem ends_intern (hr : r.Placed source tokens) (s : String) :
    Ends (intern s) r (Moved source tokens r fun _ _ => True) (StoppedAt source tokens) := by
  refine (ends_bind _ _).mpr (ends_get.mpr ?_)
  split
  · exact moved_pure hr trivial
  · simp only [ends_bind, ends_set, ends_pure]
    exact ⟨⟨hr.source, hr.rest, hr.previous, hr.visible, hr.vars⟩, ⟨le_rfl, le_rfl⟩, trivial⟩

/-! ## Expressions -/

/-- The parser takes an expression of at least one token. -/
abbrev TakesExpr (source : List Char) (tokens : List Token) (n : Nat) (x : Parser Expr) : Prop :=
  Takes source tokens n x fun e arena => e.Placed tokens arena

abbrev TakesExprs (source : List Char) (tokens : List Token) (n : Nat) (x : Parser (List Expr)) :
    Prop :=
  Takes source tokens n x fun es arena => ∀ e ∈ es, e.Placed tokens arena

section Expressions

variable {operand inner : Parser Expr}

theorem takes_exprList {item : Parser Expr} (hitem : TakesExpr source tokens n item) :
    TakesExprs source tokens n (commaList item) :=
  takes_commaList (fun hle h => h.mono hle) hitem

theorem takes_exprsUntil (hend : EndsAtToken source tokens) (close : String) {item : Parser Expr}
    (hitem : TakesExpr source tokens n item) :
    TakesExprs source tokens n (listUntil close item) :=
  takes_listUntil hend close (fun hle h => h.mono hle) hitem

theorem ends_acceptOperator (level : Level) (hr : r.Placed source tokens) :
    Ends (acceptOperator level) r (Moved source tokens r fun found r' => found.isSome = true →
      r'.rest.length < r.rest.length) (StoppedAt source tokens) := by
  refine (ends_bind _ _).mpr (ends_peek ?_)
  split
  · exact moved_pure hr nofun
  · next o hfound =>
    obtain ⟨t, ht, -⟩ := Option.bind_eq_some_iff.mp hfound
    exact Course.ends_andThen (ends_advance hr) fun _ r' hr' _ hrest =>
      moved_pure hr' fun _ => hrest (List.ne_nil_of_mem (List.mem_of_head? ht))

theorem placed_join (o : LevelOperator) {lhs rhs : Expr} {loc arena : Nat}
    (hl : lhs.Placed tokens arena) (hr : rhs.Placed tokens arena) (hloc : AtToken tokens loc) :
    (o.join lhs rhs loc).Placed tokens arena := by
  unfold LevelOperator.join
  split
  · exact .binary hloc hr hl
  · exact .binary hloc hl hr

theorem takes_leftAssociated (hend : EndsAtToken source tokens) (level : Level)
    (hoperand : TakesExpr source tokens n operand) :
    TakesExpr source tokens n (leftAssociated level operand) := by
  intro r hr hn
  refine Course.ends_andThen (hoperand r hr hn) fun first r₀ hr₀ _ ⟨hrest₀, hfirst⟩ => ?_
  refine ends_iterate (I := fun e r' => e.Placed tokens r'.vars.length) hr₀
    (fun lhs r₁ hr₁ hrest₁ _ hlhs => ?_) hfirst
  refine (ends_bind _ _).mpr (ends_here hend hr₁ fun loc hloc _ => ?_)
  refine Course.ends_andThen (ends_acceptOperator level hr₁)
    fun found r₂ hr₂ ⟨hrest₂, hvars₂⟩ hfound => ?_
  cases found with
  | none => exact moved_pure hr₂ ⟨by omega, hlhs.mono hvars₂⟩
  | some o =>
    have hfound := hfound rfl
    refine Course.ends_andThen (hoperand r₂ hr₂ (by omega))
      fun rhs r₃ hr₃ ⟨hrest₃, hvars₃⟩ ⟨_, hrhs⟩ => moved_pure hr₃ ⟨by omega, ?_⟩
    exact placed_join o (hlhs.mono (hvars₂.trans hvars₃)) hrhs hloc

theorem takes_expressionOver (hend : EndsAtToken source tokens)
    (hoperand : TakesExpr source tokens n operand) :
    TakesExpr source tokens n (expressionOver operand) := by
  unfold expressionOver
  induction levels with
  | nil => exact hoperand
  | cons level levels ih => exact takes_leftAssociated hend level ih

theorem ends_indexed {base position : Expr} {loc : Nat} (hr : r.Placed source tokens)
    (hbase : base.Placed tokens r.vars.length) (hposition : position.Placed tokens r.vars.length)
    (hloc : AtToken tokens loc) :
    Ends (indexed base position loc) r (Moved source tokens r fun e r' =>
      e.Placed tokens r'.vars.length) (StoppedAt source tokens) := by
  have hindex : (Expr.index base position .unknown loc).Placed tokens r.vars.length :=
    .index hloc hbase hposition
  unfold indexed
  split
  · refine (ends_bind _ _).mpr (ends_variableOf hbase.here.2 fun v => ?_)
    dsimp only
    by_cases hplaceholder : v.isPlaceholder = true
    · rw [if_pos hplaceholder]
      exact ends_refuse_bind nofun hbase.here.1
    rw [if_neg hplaceholder]
    split
    · next hpair =>
      obtain ⟨-, rfl⟩ := Prod.mk.inj hpair
      split
      · exact ends_refuse_bind nofun hposition.here
      · exact moved_pure hr hindex
    · exact moved_pure hr hindex
  · exact moved_pure hr hindex

/-- A call's arguments stand **behind its name and bracket**, so they may nest one deeper. -/
theorem takes_nameOrCall (hend : EndsAtToken source tokens) (hinner : TakesExpr source tokens n inner) :
    TakesExpr source tokens (n + 1) (nameOrCall inner) := by
  intro r hr hn
  refine Course.ends_andThen (takes_identifier hend r hr hn)
    fun ⟨name, loc⟩ r₁ hr₁ _ ⟨hrest₁, _, hloc⟩ => ?_
  refine Course.ends_andThen (ends_accept hr₁) fun called r₂ hr₂ ⟨hrest₂, _⟩ _ => ?_
  cases called with
  | true =>
    refine Course.ends_andThen (takes_exprsUntil hend ")" hinner r₂ hr₂ (by omega))
      fun args r₃ hr₃ ⟨hrest₃, _⟩ ⟨_, hargs⟩ => ?_
    exact moved_pure hr₃ ⟨by omega, .call hloc hargs⟩
  | false =>
    exact (ends_readName hr₂ name hloc).mono fun e r₃ ⟨hr₃, hl, he⟩ =>
      ⟨hr₃, hl, by have := hl.1; omega, he⟩

theorem takes_primary (hend : EndsAtToken source tokens) (hinner : TakesExpr source tokens n inner) :
    TakesExpr source tokens (n + 1) (primary inner) := by
  intro r hr hn
  refine Course.ends_andThen (ends_accept hr) fun opened r₁ hr₁ ⟨hrest₁, _⟩ hopened => ?_
  cases opened with
  | true =>
    have hopened := hopened rfl
    refine Course.ends_andThen (hinner r₁ hr₁ (by omega)) fun e r₂ hr₂ ⟨hrest₂, _⟩ ⟨_, he⟩ => ?_
    refine Course.ends_andThen (ends_expect hend hr₂) fun _ r₃ hr₃ ⟨hrest₃, hvars₃⟩ _ => ?_
    exact moved_pure hr₃ ⟨by omega, he.mono hvars₃⟩
  | false =>
  refine (ends_bind _ _).mpr (ends_peek ?_)
  split
  · exact (ends_bind _ _).mpr (ends_here hend hr₁ fun _ hloc _ => ends_refuse nofun hloc)
  next token htoken =>
  split
  · refine Course.ends_andThen (takes_number hend r₁ hr₁ (Nat.lt_succ_self _))
      fun ⟨value, loc⟩ r₂ hr₂ _ ⟨hrest₂, hloc⟩ => ?_
    exact moved_pure hr₂ ⟨by omega, .num hloc⟩
  · refine Course.ends_andThen (ends_advance hr₁) fun _ r₂ hr₂ _ hrest₂ => ?_
    have hrest₂ := hrest₂ (List.ne_nil_of_mem (List.mem_of_head? htoken))
    refine Course.ends_andThen (ends_intern hr₂ _) fun i r₃ hr₃ ⟨hrest₃, _⟩ _ => ?_
    exact moved_pure hr₃ ⟨by omega, .str (.inr ⟨token, hr₁.head? htoken, rfl⟩)⟩
  · exact (takes_nameOrCall hend hinner r₁ hr₁ (by omega)).mono fun e r₂ ⟨hr₂, hl, hrest₂, he⟩ =>
      ⟨hr₂, hl, by omega, he⟩
  · exact ends_unexpected hend hr₁

theorem takes_postfixed (hend : EndsAtToken source tokens) (hinner : TakesExpr source tokens n inner) :
    TakesExpr source tokens (n + 1) (postfixed inner) := by
  intro r hr hn
  refine Course.ends_andThen (takes_primary hend hinner r hr hn) fun first r₀ hr₀ _ ⟨hrest₀, hfirst⟩ => ?_
  refine ends_iterate (I := fun e r' => e.Placed tokens r'.vars.length) hr₀
    (fun base r₁ hr₁ hrest₁ _ hbase => ?_) hfirst
  refine (ends_bind _ _).mpr (ends_here hend hr₁ fun loc hloc _ => ?_)
  refine Course.ends_andThen (ends_accept hr₁) fun opened r₂ hr₂ ⟨hrest₂, hvars₂⟩ _ => ?_
  cases opened with
  | false => exact moved_pure hr₂ ⟨by omega, hbase.mono hvars₂⟩
  | true =>
    refine Course.ends_andThen (hinner r₂ hr₂ (by omega))
      fun position r₃ hr₃ ⟨_, hvars₃⟩ ⟨hrest₃, hposition⟩ => ?_
    refine Course.ends_andThen (ends_expect hend hr₃) fun _ r₄ hr₄ ⟨hrest₄, hvars₄⟩ _ => ?_
    refine Course.ends_andThen (ends_indexed hr₄ (hbase.mono (hvars₂.trans (hvars₃.trans hvars₄)))
      (hposition.mono hvars₄) hloc) fun e r₅ hr₅ ⟨hrest₅, _⟩ he => ?_
    exact moved_pure hr₅ ⟨by omega, he⟩

/-- An operand nests **no deeper than there are tokens**. -/
theorem takes_operandTo (hend : EndsAtToken source tokens) (depth : Nat) :
    TakesExpr source tokens depth (operandTo depth) := by
  induction depth with
  | zero => exact fun _ _ hlt => absurd hlt (Nat.not_lt_zero _)
  | succ depth ih =>
    intro r hr hn
    refine (ends_bind _ _).mpr (ends_here hend hr fun loc hloc _ => ?_)
    refine Course.ends_andThen (ends_accept hr) fun plus r₁ hr₁ ⟨hrest₁, _⟩ hplus => ?_
    cases plus with
    | true =>
      have hplus := hplus rfl
      exact (ih r₁ hr₁ (by omega)).mono fun e r₂ ⟨hr₂, hl, hrest₂, he⟩ => ⟨hr₂, hl, by omega, he⟩
    | false =>
    refine Course.ends_andThen (ends_accept hr₁) fun minus r₂ hr₂ ⟨hrest₂, _⟩ hminus => ?_
    cases minus with
    | true =>
      have hminus := hminus rfl
      refine Course.ends_andThen (ih r₂ hr₂ (by omega)) fun e r₃ hr₃ _ ⟨hrest₃, he⟩ => ?_
      exact moved_pure hr₃ ⟨by omega, .binary hloc (.num hloc) he⟩
    | false =>
    refine Course.ends_andThen (ends_accept hr₂) fun address r₃ hr₃ ⟨hrest₃, _⟩ haddress => ?_
    cases address with
    | true =>
      have haddress := haddress rfl
      refine Course.ends_andThen (ih r₃ hr₃ (by omega)) fun e r₄ hr₄ _ ⟨hrest₄, he⟩ => ?_
      split
      · exact moved_pure hr₄ ⟨by omega, .addr hloc he⟩
      · exact ends_refuse nofun he.here.atToken
    | false =>
    refine Course.ends_andThen (ends_accept hr₃) fun star r₄ hr₄ ⟨hrest₄, _⟩ hstar => ?_
    cases star with
    | true =>
      have hstar := hstar rfl
      refine Course.ends_andThen (ih r₄ hr₄ (by omega)) fun e r₅ hr₅ _ ⟨hrest₅, he⟩ => ?_
      exact moved_pure hr₅ ⟨by omega, .deref hloc he⟩
    | false =>
      exact (takes_postfixed hend (takes_expressionOver hend ih) r₄ hr₄ (by omega)).mono
        fun e r₅ ⟨hr₅, hl, hrest₅, he⟩ => ⟨hr₅, hl, by omega, he⟩

/-- **Reading an expression takes a token, or is refused at one.** -/
theorem takes_expression (hend : EndsAtToken source tokens) : TakesExpr source tokens n expression := by
  intro r hr _
  unfold expression bounded bound
  simp only [ends_bind, ends_get, ends_pure]
  exact takes_expressionOver hend (takes_operandTo hend _) r hr (Nat.lt_succ_self _)

end Expressions

end Grammar

end StackCompiler
