import Mathlib.Data.List.Basic
import StackCompiler.Token.Basic

/-!
# Proofs/Token/Brackets — brackets that are closed in turn

Tokens nest well if every bracket is closed by **one of its own kind**, behind all that were opened
inside of it (`WellNested`).  Going through the tokens with a stack of the brackets that are open tells
whether they do (`wellNested_iff`), and tells it piece by piece.
-/

namespace StackCompiler

/-- The kinds of brackets. -/
inductive Bracket where
  | round | square | curly
deriving DecidableEq, Repr

namespace Bracket

/-- The bracket that a punctuator of that text opens. -/
def opening? (text : String) : Option Bracket :=
  if text = "(" then some round
  else if text = "[" then some square
  else if text = "\x7b" then some curly
  else none

/-- The bracket that a punctuator of that text closes. -/
def closing? (text : String) : Option Bracket :=
  if text = ")" then some round
  else if text = "]" then some square
  else if text = "\x7d" then some curly
  else none

/-- No text **opens one bracket and closes another**. -/
theorem opening?_of_closing? {text : String} {b : Bracket} (h : closing? text = some b) :
    opening? text = none := by
  have hmem : text = ")" ∨ text = "]" ∨ text = "\x7d" := by
    unfold closing? at h
    split at h
    · exact .inl ‹_›
    split at h
    · exact .inr (.inl ‹_›)
    split at h
    · exact .inr (.inr ‹_›)
    · cases h
  rcases hmem with rfl | rfl | rfl <;> decide

end Bracket

/-! ## Tokens -/

namespace Token

variable {t : Token} {text : String} {b : Bracket} {stack stack' : List Bracket}

/-- The bracket that the token opens. -/
def opens? (t : Token) : Option Bracket :=
  if t.kind = .punctuator then Bracket.opening? t.text else none

/-- The bracket that the token closes. -/
def closes? (t : Token) : Option Bracket :=
  if t.kind = .punctuator then Bracket.closing? t.text else none

/-- The brackets that are open behind the token, **the innermost first**; `none` if it closes another
one than that. -/
def pass (t : Token) (stack : List Bracket) : Option (List Bracket) :=
  match t.opens?, t.closes? with
  | some b, _ => some (b :: stack)
  | none, some b => if stack.head? = some b then some stack.tail else none
  | none, none => some stack

theorem kind_ne_of_is (h : t.is text = true) : t.kind ≠ .eof := by
  rw [(Token.is_iff.mp h).1]
  exact nofun

theorem opens?_of_is (h : t.is text = true) : t.opens? = Bracket.opening? text := by
  obtain ⟨hkind, rfl⟩ := Token.is_iff.mp h
  exact if_pos hkind

theorem closes?_of_is (h : t.is text = true) : t.closes? = Bracket.closing? text := by
  obtain ⟨hkind, rfl⟩ := Token.is_iff.mp h
  exact if_pos hkind

theorem opens?_of_closes? (h : t.closes? = some b) : t.opens? = none := by
  unfold closes? at h
  unfold opens?
  split at h
  next hkind => rw [if_pos hkind, Bracket.opening?_of_closing? h]
  · cases h

theorem pass_of_opens (h : t.opens? = some b) : t.pass stack = some (b :: stack) := by
  rw [pass, h]

theorem pass_of_closes (h : t.closes? = some b) : t.pass (b :: stack) = some stack := by
  rw [pass, opens?_of_closes? h, h]
  exact if_pos rfl

/-- What is no bracket leaves **all of them open**. -/
theorem pass_plain (hopens : t.opens? = none) (hcloses : t.closes? = none) :
    t.pass stack = some stack := by
  rw [pass, hopens, hcloses]

theorem pass_of_kind (h : t.kind ≠ .punctuator) : t.pass stack = some stack :=
  pass_plain (if_neg h) (if_neg h)

/-- A token that may be passed **opens a bracket, closes the innermost one, or is none**. -/
theorem pass_cases (h : t.pass stack = some stack') :
    (∃ b, t.opens? = some b ∧ stack' = b :: stack) ∨
    (∃ b, t.closes? = some b ∧ stack = b :: stack') ∨
    (t.opens? = none ∧ t.closes? = none) ∧ stack' = stack := by
  unfold pass at h
  split at h
  next _ _ b hopens => exact .inl ⟨b, hopens, (Option.some.inj h).symm⟩
  next _ _ b _ hcloses =>
    split at h
    next hhead =>
      obtain ⟨rest, rfl⟩ := List.head?_eq_some_iff.mp hhead
      exact .inr (.inl ⟨b, hcloses, congrArg (b :: ·) (Option.some.inj h)⟩)
    · cases h
  next _ _ hopens hcloses => exact .inr (.inr ⟨⟨hopens, hcloses⟩, (Option.some.inj h).symm⟩)

end Token

/-! ## Well-nested tokens -/

/-- Every bracket that the tokens open **they close in turn**, and they close no others. -/
inductive WellNested : List Token → Prop
  | nil : WellNested []
  | plain {t : Token} {ts : List Token} (hopens : t.opens? = none) (hcloses : t.closes? = none)
      (h : WellNested ts) : WellNested (t :: ts)
  | enclosed {b : Bracket} {first last : Token} {inner ts : List Token}
      (hfirst : first.opens? = some b) (hinner : WellNested inner) (hlast : last.closes? = some b)
      (h : WellNested ts) : WellNested (first :: (inner ++ last :: ts))

/-- The brackets that are open behind the tokens, if none is closed **out of turn**. -/
def unclosed (stack : List Bracket) (ts : List Token) : Option (List Bracket) :=
  ts.foldlM (fun stack t => t.pass stack) stack

section Nesting

variable {stack stack' : List Bracket} {t : Token} {ts ts' : List Token}

theorem unclosed_cons : unclosed stack (t :: ts) = (t.pass stack).bind (unclosed · ts) :=
  rfl

/-- **One piece behind the other.** -/
theorem unclosed_append : unclosed stack (ts ++ ts') = (unclosed stack ts).bind (unclosed · ts') :=
  List.foldlM_append

theorem WellNested.append (h : WellNested ts) (h' : WellNested ts') : WellNested (ts ++ ts') := by
  induction h with
  | nil => exact h'
  | plain hopens hcloses _ ih => exact .plain hopens hcloses ih
  | enclosed hfirst hinner hlast _ _ ih =>
    rw [List.cons_append, List.append_assoc]
    exact .enclosed hfirst hinner hlast ih

/-- Well-nested tokens leave open **what was open before them**. -/
theorem WellNested.unclosed_eq (h : WellNested ts) : unclosed stack ts = some stack := by
  induction h generalizing stack with
  | nil => rfl
  | plain hopens hcloses _ ih =>
    rw [unclosed_cons, Token.pass_plain hopens hcloses, Option.bind_some, ih]
  | enclosed hfirst _ hlast _ ihinner ih =>
    rw [unclosed_cons, Token.pass_of_opens hfirst, Option.bind_some, unclosed_append, ihinner,
      Option.bind_some, unclosed_cons, Token.pass_of_closes hlast, Option.bind_some, ih]

/-- The tokens close the brackets of the stack one by one, and nest well **between these**. -/
def ClosesAll : List Bracket → List Token → Prop
  | [], ts => WellNested ts
  | b :: stack, ts => ∃ inner last rest, ts = inner ++ last :: rest ∧ WellNested inner ∧
      last.closes? = some b ∧ ClosesAll stack rest

theorem ClosesAll.prepend (h : WellNested ts) (h' : ClosesAll stack ts') :
    ClosesAll stack (ts ++ ts') := by
  cases stack with
  | nil => exact h.append h'
  | cons b stack =>
    obtain ⟨inner, last, rest, rfl, hinner, hlast, hrest⟩ := h'
    exact ⟨ts ++ inner, last, rest, (List.append_assoc _ _ _).symm, h.append hinner, hlast, hrest⟩

theorem closesAll_of_unclosed (h : unclosed stack ts = some []) : ClosesAll stack ts := by
  induction ts generalizing stack with
  | nil =>
    obtain rfl : stack = [] := Option.some.inj h
    exact WellNested.nil
  | cons t ts ih =>
    obtain ⟨stack', hpass, hts⟩ := Option.bind_eq_some_iff.mp (unclosed_cons.symm.trans h)
    have hclosed := ih hts
    rcases Token.pass_cases hpass with ⟨b, hopens, rfl⟩ | ⟨b, hcloses, rfl⟩ | ⟨⟨hopens, hcloses⟩, rfl⟩
    · -- the bracket is closed by the first one that the rest closes
      obtain ⟨inner, last, rest, rfl, hinner, hlast, hrest⟩ := hclosed
      have hpair : WellNested (t :: (inner ++ [last])) := .enclosed hopens hinner hlast .nil
      have happend := ClosesAll.prepend hpair hrest
      rwa [List.cons_append, List.append_assoc] at happend
    · exact ⟨[], t, ts, rfl, .nil, hcloses, hclosed⟩
    · exact ClosesAll.prepend (.plain hopens hcloses .nil) hclosed

/-- Tokens nest well exactly if **nothing is left open**, and nothing is closed out of turn. -/
theorem wellNested_iff : WellNested ts ↔ unclosed [] ts = some [] :=
  ⟨WellNested.unclosed_eq, closesAll_of_unclosed⟩

instance : Decidable (WellNested ts) :=
  decidable_of_iff _ wellNested_iff.symm

end Nesting

/-- A square bracket is not closed by a round one. -/
example : ¬WellNested [⟨.punctuator, "[", none, 0, 1⟩, ⟨.punctuator, ")", none, 1, 1⟩] := by decide

end StackCompiler
