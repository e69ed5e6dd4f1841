import StackCompiler.Proofs.Token.Joined

/-!
# Proofs/Token/Pieces — cutting a text between its lexemes

A text that is lexemes one behind the other can be **cut between any two of them**, and the tokens are
cut where the text is.  A piece of it is the same lexemes somewhere else as long as what stands behind
it starts as before, or whatever that is, if the piece ends with a brace.
-/

namespace StackCompiler

open Text

/-! ## Texts -/

theorem Text.splitAt?_append (as bs : List Char) {n : Nat} (h : n ≤ byteLength as) :
    splitAt? n (as ++ bs) = (splitAt? n as).map fun (before, after) => (before, after ++ bs) := by
  induction as generalizing n with
  | nil =>
    obtain rfl := Nat.le_zero.mp h
    simp
  | cons c cs ih =>
    cases n with
    | zero => simp
    | succ n =>
      rw [byteLength_cons] at h
      rw [List.cons_append, splitAt?, splitAt?]
      split
      · rw [ih (by omega), Option.map_map, Option.map_map]
        rfl
      · rfl

theorem Text.splitAt?_add (as bs : List Char) (n : Nat) :
    splitAt? (byteLength as + n) (as ++ bs) =
      (splitAt? n bs).map fun (before, after) => (as ++ before, after) := by
  induction as with
  | nil => simp
  | cons c cs ih =>
    rw [byteLength_cons, List.cons_append, splitAt?_cons (by omega),
      show c.utf8Size + byteLength cs + n - c.utf8Size = byteLength cs + n by omega, ih, Option.map_map]
    rfl

/-- Between two offsets within a piece of a text stands what stands there **in the piece**. -/
theorem Text.slice?_between (before between after : List Char) {start stop : Nat} (h : start ≤ stop)
    (hstop : stop ≤ byteLength between) :
    slice? (byteLength before + start) (byteLength before + stop) (before ++ (between ++ after)) =
      slice? start stop between := by
  rw [slice?, slice?, splitAt?_add, splitAt?_append _ _ (h.trans hstop)]
  cases hsplit : splitAt? start between with
  | none => rfl
  | some cut =>
    obtain ⟨first, second⟩ := cut
    obtain ⟨rfl, rfl⟩ := append_of_splitAt? hsplit
    rw [byteLength_append] at hstop
    simp only [Option.map_some, Option.bind_eq_bind, Option.bind_some, Nat.add_sub_add_left]
    rw [splitAt?_append _ _ (by omega)]
    cases splitAt? (stop - byteLength first) second <;> rfl

/-! ## Lexemes -/

namespace Lexeme

variable {rest piece text : List Char} {l : Lexeme} {kind : Token.Kind} {value : Option Int64}

/-- The word that starts a function. -/
def func : Lexeme :=
  .token .punctuator ['f', 'u', 'n', 'c'] none

/-- The brace that ends a block. -/
def closing : Lexeme :=
  .token .punctuator ['\x7d'] none

theorem tokens_eq (l : Lexeme) (pending : Bool) (loc : Nat) :
    l.tokens pending loc = [] ∨ ∃ t, l.tokens pending loc = [t] := by
  cases l with
  | blank | comment => exact .inl rfl
  | newline =>
    cases pending with
    | false => exact .inl rfl
    | true => exact .inr ⟨_, rfl⟩
  | token => exact .inr ⟨_, rfl⟩

theorem Spelled.value_eq_none (h : l.Spelled rest piece) (hl : l = .token .punctuator text value) :
    value = none := by
  cases h with
  | word | pair | sign => exact (token.inj hl).2.2.symm
  | number | string | character => cases (token.inj hl).1
  | _ => cases hl

/-- A lexeme that is a punctuator is told **by its text**. -/
theorem Spelled.eq_of_is (h : l.Spelled rest piece) {t : Token} {pending : Bool} {loc : Nat}
    (hl : l.tokens pending loc = [t]) {word : String} (ht : t.is word = true) (hword : word ≠ ";") :
    l = .token .punctuator word.toList none ∧ t = .ofText .punctuator word.toList none loc := by
  obtain ⟨hkind, rfl⟩ := Token.is_iff.mp ht
  cases l with
  | blank | comment => cases hl
  | newline =>
    cases pending with
    | false => cases hl
    | true =>
      cases hl
      exact absurd rfl hword
  | token kind text value =>
    obtain rfl := List.singleton_inj.mp hl
    obtain rfl : kind = .punctuator := hkind
    obtain rfl := h.value_eq_none rfl
    rw [show (Token.ofText .punctuator text none loc).text = String.ofList text from rfl,
      String.toList_ofList]
    exact ⟨rfl, rfl⟩

end Lexeme

/-- The bytes that lexemes take. -/
def sizes (ls : List Lexeme) : Nat :=
  (ls.map Lexeme.size).sum

@[simp] theorem sizes_nil : sizes [] = 0 := rfl

@[simp] theorem sizes_cons (l : Lexeme) (ls : List Lexeme) : sizes (l :: ls) = l.size + sizes ls :=
  List.sum_cons

@[simp] theorem sizes_append (ls ls' : List Lexeme) : sizes (ls ++ ls') = sizes ls + sizes ls' := by
  rw [sizes, List.map_append, List.sum_append]
  rfl

namespace Lexemes

variable {rest rest' cs : List Char} {ls ls' : List Lexeme}

theorem byteLength_eq (h : Lexemes rest cs ls) : byteLength cs = sizes ls := by
  induction h with
  | nil => rfl
  | cons h _ ih => rw [byteLength_append, h.byteLength_eq, ih, sizes_cons]

/-- Lexemes stay where **nothing else can come next**. -/
theorem mono (h : Lexemes rest cs ls) (hrest : ∀ d ∈ rest'.head?, d ∈ rest.head?) :
    Lexemes rest' cs ls := by
  induction h with
  | nil => exact .nil
  | @cons piece cs l ls h _ ih =>
    refine .cons (h.mono fun d hd => ?_) ih
    cases cs with
    | nil => exact hrest d hd
    | cons c cs => exact hd

/-- A text is cut **where its lexemes are**. -/
theorem exists_append (h : Lexemes rest cs (ls ++ ls')) :
    ∃ as bs, cs = as ++ bs ∧ Lexemes (bs ++ rest) as ls ∧ Lexemes rest bs ls' := by
  induction ls generalizing cs with
  | nil => exact ⟨[], cs, rfl, .nil, h⟩
  | cons l ls ih =>
    cases h with
    | @cons piece cs _ _ h hs =>
    obtain ⟨as, bs, rfl, has, hbs⟩ := ih hs
    exact ⟨piece ++ as, bs, (List.append_assoc _ _ _).symm,
      .cons (by rwa [← List.append_assoc]) has, hbs⟩

/-- Each of the lexemes **is spelled somewhere**. -/
theorem exists_spelled (h : Lexemes rest cs ls) : ∀ l ∈ ls, ∃ rest piece, l.Spelled rest piece := by
  induction h with
  | nil => exact nofun
  | cons h _ ih => exact List.forall_mem_cons.mpr ⟨⟨_, _, h⟩, ih⟩

/-- Lexemes of which the last is a brace are lexemes **whatever stands behind them**. -/
theorem behind_closing (h : Lexemes rest cs (ls ++ [.closing])) (rest' : List Char) :
    Lexemes rest' cs (ls ++ [.closing]) := by
  induction ls generalizing cs with
  | nil =>
    cases h with
    | @cons piece cs _ _ h hs =>
    cases hs
    obtain rfl := h.token_eq
    refine .cons (.sign rfl fun d _ => ⟨?_, fun h => absurd h.1 (by decide)⟩) .nil
    rw [Lexeme.isOperatorPair, Bool.and_eq_false_iff]
    exact .inr rfl
  | cons l ls ih =>
    cases h with
    | @cons piece cs _ _ h hs =>
    refine .cons (h.mono fun d hd => ?_) (ih hs)
    cases cs with
    | nil => exact absurd (hs.eq_nil rfl) (by simp)
    | cons c cs => exact hd

end Lexemes

/-! ## Tokens -/

section Tokens

variable {pending : Bool} {loc : Nat} {ls : List Lexeme} {before after : List Token} {t : Token}

theorem tokensFrom_append (pending : Bool) (loc : Nat) (ls ls' : List Lexeme) :
    tokensFrom pending loc (ls ++ ls') = tokensFrom pending loc ls ++
      tokensFrom (pendsAfter pending ls) (loc + sizes ls) ls' := by
  induction ls generalizing pending loc with
  | nil => rfl
  | cons l ls ih =>
    rw [List.cons_append, tokensFrom, ih, tokensFrom, List.append_assoc, sizes_cons, ← Nat.add_assoc]
    rfl

/-- Lexemes that start further on have **their tokens further on**. -/
theorem tokensFrom_moved (n : Nat) (pending : Bool) (loc : Nat) (ls : List Lexeme) :
    tokensFrom pending (n + loc) ls = (tokensFrom pending loc ls).map (Token.moved n) := by
  induction ls generalizing pending loc with
  | nil => rfl
  | cons l ls ih =>
    rw [tokensFrom, tokensFrom, List.map_append, Nat.add_assoc, ih]
    refine congrArg (· ++ _) ?_
    cases l with
    | newline => cases pending <;> rfl
    | _ => rfl

/-- Where there is a token **there is a lexeme** that gives it. -/
theorem exists_of_tokensFrom_eq (h : tokensFrom pending loc ls = before ++ t :: after) :
    ∃ first l behind, ls = first ++ l :: behind ∧ tokensFrom pending loc first = before ∧
      l.tokens (pendsAfter pending first) (loc + sizes first) = [t] ∧
      tokensFrom (pendsAfter pending (first ++ [l])) (loc + sizes (first ++ [l])) behind = after := by
  induction ls generalizing pending loc before with
  | nil => exact absurd h.symm (by simp [tokensFrom])
  | cons l ls ih =>
    rw [tokensFrom] at h
    have hlater {before' : List Token}
        (h : tokensFrom (l.pends pending) (loc + l.size) ls = before' ++ t :: after)
        (hbefore : before = l.tokens pending loc ++ before') :
        ∃ first l₁ behind, l :: ls = first ++ l₁ :: behind ∧
          tokensFrom pending loc first = before ∧
          l₁.tokens (pendsAfter pending first) (loc + sizes first) = [t] ∧
          tokensFrom (pendsAfter pending (first ++ [l₁])) (loc + sizes (first ++ [l₁])) behind =
            after := by
      obtain ⟨first, l₁, behind, rfl, hfirst, hl₁, hbehind⟩ := ih h
      refine ⟨l :: first, l₁, behind, rfl, ?_, ?_, ?_⟩
      · rw [tokensFrom, hfirst, hbefore]
      · rw [sizes_cons, ← Nat.add_assoc]
        exact hl₁
      · rw [List.cons_append, sizes_cons, ← Nat.add_assoc]
        exact hbehind
    rcases l.tokens_eq pending loc with hnone | ⟨u, hu⟩
    · rw [hnone] at h
      exact hlater h (by rw [hnone]; rfl)
    · rw [hu] at h
      cases before with
      | nil =>
        obtain ⟨rfl, hafter⟩ := List.cons.inj h
        refine ⟨[], l, ls, rfl, rfl, hu, ?_⟩
        rw [List.nil_append, sizes_cons, sizes_nil, Nat.add_zero]
        exact hafter
      | cons v before =>
        obtain ⟨rfl, hrest⟩ := List.cons.inj h
        exact hlater hrest (by rw [hu]; rfl)

end Tokens

end StackCompiler
