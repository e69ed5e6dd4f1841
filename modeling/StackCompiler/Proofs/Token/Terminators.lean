import Mathlib.Data.List.Pairwise
import StackCompiler.Proofs.Token.Tiles

/-!
# Proofs/Token/Terminators — where a newline ends a statement

A newline ends a statement if it is the first one behind a token that may be the last of one.  Whatever
blanks, comments and newlines the gap behind the token is made of, there is **at most one terminator**
in it: behind the first newline no statement is open any more.
-/

namespace StackCompiler

open Text

namespace Token

/-- The token is the end of a statement that a newline stands for. -/
def IsTerminator (t : Token) : Prop :=
  t = .lineEnd t.loc

/-- The token takes some of the source. -/
def IsWritten (t : Token) : Prop :=
  t.len ≠ 0

theorem IsTerminator.not_isWritten {t : Token} (h : t.IsTerminator) : ¬t.IsWritten :=
  fun hlen => hlen (congrArg len h)

theorem isWritten_ofText (kind : Kind) (c : Char) (text : List Char) (value : Option Int64)
    (loc : Nat) : (ofText kind (c :: text) value loc).IsWritten :=
  (Nat.add_pos_left c.utf8Size_pos _).ne'

end Token

/-! ## The terminators of a gap -/

/-- The terminators of a gap that starts at `loc`: if a statement is open in front of it, one **at its
first newline**, if it has any. -/
def terminators (pending : Bool) (loc : Nat) (gap : List Char) : List Token :=
  if pending = true ∧ '\n' ∈ gap then [.lineEnd (loc + byteLength (firstLine gap))] else []

section Gaps

variable {pending : Bool} {loc : Nat} {piece gap : List Char}

theorem terminators_closed : terminators false loc gap = [] :=
  if_neg fun h => nomatch h.1

theorem terminators_nil : terminators pending loc [] = [] :=
  if_neg fun h => absurd h.2 List.not_mem_nil

/-- The first newline **is the one that counts**. -/
theorem terminators_newline :
    terminators pending loc (['\n'] ++ gap) = if pending then [.lineEnd loc] else [] := by
  have hline : firstLine (['\n'] ++ gap) = [] := List.takeWhile_cons_of_neg (by decide)
  rw [terminators, hline]
  simp

/-- What has no newline in it **makes no difference** but to places. -/
theorem terminators_append (hpiece : '\n' ∉ piece) :
    terminators pending loc (piece ++ gap) = terminators pending (loc + byteLength piece) gap := by
  have hline : firstLine (piece ++ gap) = piece ++ firstLine gap :=
    List.takeWhile_append_of_pos fun c hc => bne_iff_ne.mpr fun h => hpiece (h ▸ hc)
  have hmem : '\n' ∈ piece ++ gap ↔ '\n' ∈ gap := by simp [hpiece]
  rw [terminators, terminators, hline, byteLength_append, Nat.add_assoc]
  simp only [hmem]

end Gaps

theorem Lexeme.ne_newline_of_isBlank {c : Char} (h : isBlank c = true) : '\n' ∉ [c] := by
  rw [List.mem_singleton]
  rintro rfl
  cases h

/-! ## Following a scan -/

section Scanned

variable {pending : Bool} {loc : Nat} {cs : List Char} {ts : List Token}

/-- What is scanned starts with a gap, and its tokens **with the terminators of the gap**. -/
theorem Scanned.exists_gap (h : Scanned pending loc cs ts) :
    ∃ gap rest next after, cs = gap ++ rest ∧ Gap rest gap ∧
      ts = terminators pending loc gap ++ next :: after ∧ ¬next.IsTerminator ∧
      next.loc = loc + byteLength gap := by
  induction h with
  | @finish pending loc =>
    exact ⟨[], [], .sourceEnd loc, [], rfl, .nil, by rw [terminators_nil]; rfl, nofun, rfl⟩
  | blank hc _ ih =>
    obtain ⟨gap, rest, next, after, rfl, hgap, rfl, hnext, hloc⟩ := ih
    refine ⟨_, rest, next, after, (List.append_assoc _ _ _).symm, .blank hc hgap, ?_, hnext, ?_⟩
    · rw [terminators_append (Lexeme.ne_newline_of_isBlank hc)]
    · rw [hloc, byteLength_append, Nat.add_assoc]
  | @newline pending loc cs ts _ ih =>
    obtain ⟨gap, rest, next, after, rfl, hgap, rfl, hnext, hloc⟩ := ih
    refine ⟨_, rest, next, after, (List.append_assoc _ _ _).symm, .newline hgap, ?_, hnext, ?_⟩
    · rw [terminators_newline, terminators_closed, List.nil_append]
    · rw [hloc, byteLength_append, Nat.add_assoc]
  | @comment pending loc body cs ts hbody hcs _ ih =>
    obtain ⟨gap, rest, next, after, rfl, hgap, rfl, hnext, hloc⟩ := ih
    have hpiece : '\n' ∉ '/' :: '/' :: body := by simpa using hbody
    refine ⟨_, rest, next, after, (List.append_assoc _ _ _).symm, .comment hbody hcs hgap, ?_, hnext,
      ?_⟩
    · rw [terminators_append hpiece]
    · rw [hloc, byteLength_append, Nat.add_assoc]
  | @token pending loc kind c text value cs ts _ _ _ =>
    exact ⟨[], _, .ofText kind (c :: text) value loc, ts, rfl, .nil, by rw [terminators_nil]; rfl,
      fun hmark => hmark.not_isWritten (Token.isWritten_ofText kind c text value loc), rfl⟩

/-- Behind a token the scan **goes on from its end**, with a statement open if the token may end one. -/
theorem Scanned.behind (h : Scanned pending loc cs ts) :
    ∀ before t after, ts = before ++ t :: after → t.IsWritten →
      ∃ front rest, cs = front ++ rest ∧ loc + byteLength front = t.loc + t.len ∧
        Scanned t.closesLine (t.loc + t.len) rest after := by
  have hprepend {piece cs : List Char} {loc : Nat} {t : Token} {after : List Token}
      (h : ∃ front rest, cs = front ++ rest ∧ loc + byteLength piece + byteLength front = t.loc + t.len ∧
        Scanned t.closesLine (t.loc + t.len) rest after) :
      ∃ front rest, piece ++ cs = front ++ rest ∧ loc + byteLength front = t.loc + t.len ∧
        Scanned t.closesLine (t.loc + t.len) rest after := by
    obtain ⟨front, rest, rfl, hloc, hscanned⟩ := h
    refine ⟨piece ++ front, rest, (List.append_assoc _ _ _).symm, ?_, hscanned⟩
    rw [byteLength_append, ← Nat.add_assoc, hloc]
  induction h with
  | @finish pending loc =>
    intro before t after heq hlen
    have hmem : t ∈ [Token.sourceEnd loc] := heq ▸ List.mem_append_right _ List.mem_cons_self
    obtain rfl := List.mem_singleton.mp hmem
    exact absurd rfl hlen
  | blank _ _ ih | comment _ _ _ ih =>
    exact fun before t after heq hlen => hprepend (ih before t after heq hlen)
  | @newline pending loc cs ts _ ih =>
    intro before t after heq hlen
    cases pending with
    | false => exact hprepend (ih before t after heq hlen)
    | true =>
      cases before with
      | nil =>
        obtain ⟨rfl, -⟩ := List.cons.inj heq
        exact absurd rfl hlen
      | cons e before => exact hprepend (ih before t after (List.cons.inj heq).2 hlen)
  | @token pending loc kind c text value cs ts _ h ih =>
    intro before t after heq hlen
    cases before with
    | nil =>
      obtain ⟨rfl, rfl⟩ := List.cons.inj heq
      exact ⟨c :: text, cs, rfl, rfl, h⟩
    | cons e before => exact hprepend (ih before t after (List.cons.inj heq).2 hlen)

end Scanned

/-! ## Sources -/

/-- Between the two offsets the source has that gap. -/
def GapBetween (source : List Char) (start stop : Nat) (gap : List Char) : Prop :=
  ∃ front rest, source = front ++ (gap ++ rest) ∧ start = byteLength front ∧
    stop = byteLength front + byteLength gap ∧ Gap rest gap

/-- The terminators of a source: those of **the gaps behind its tokens**, none in front of the first
token, and none in any token, also in a string that goes on over lines. -/
structure Terminated (source : List Char) (tokens : List Token) : Prop where
  behind : ∀ before t rest, tokens = before ++ t :: rest → t.IsWritten →
    ∃ gap next after, GapBetween source (t.loc + t.len) next.loc gap ∧
      rest = terminators t.closesLine (t.loc + t.len) gap ++ next :: after ∧ ¬next.IsTerminator
  leading : ∀ before t rest, tokens = before ++ t :: rest → t.IsTerminator →
    ∃ t' ∈ before, t'.IsWritten
  inside : ∀ t ∈ tokens, ∀ e ∈ tokens, t.IsWritten → e.IsTerminator →
    e.loc < t.loc ∨ t.loc + t.len ≤ e.loc

/-- **A newline ends a statement if it is the first one behind a token** other than a brace or a
semicolon, and there is a terminator nowhere else. -/
theorem terminated_of_tokenize {source : List Char} {tokens : List Token}
    (h : tokenize source = .ok tokens) : Terminated source tokens := by
  have hscanned := scanned_of_tokenize h
  refine ⟨fun before t rest heq hlen => ?_, fun before t rest heq hmark => ?_, ?_⟩
  · obtain ⟨front, cs, rfl, hfront, hbehind⟩ := hscanned.behind before t rest heq hlen
    rw [Nat.zero_add] at hfront
    obtain ⟨gap, cs, next, after, rfl, hgap, hrest, hnext, hloc⟩ := hbehind.exists_gap
    exact ⟨gap, next, after, ⟨front, cs, rfl, hfront.symm, hfront ▸ hloc, hgap⟩, hrest, hnext⟩
  · obtain ⟨gap, cs, first, after, -, -, hfirst, hnext, -⟩ := hscanned.exists_gap
    rw [terminators_closed, List.nil_append] at hfirst
    obtain ⟨init, hinit, heof⟩ := exists_concat_of_tokenize h
    cases before with
    | nil =>
      obtain ⟨rfl, -⟩ := List.cons.inj (heq.symm.trans hfirst)
      exact absurd hmark hnext
    | cons u before =>
      obtain ⟨rfl, -⟩ := List.cons.inj (heq.symm.trans hfirst)
      refine ⟨u, List.mem_cons_self, fun hlen => ?_⟩
      -- the end of the source is the last token, and `t` stands behind this one
      have hend : u = .sourceEnd (byteLength source) :=
        (marks_of_tokenize h u (heq ▸ List.mem_cons_self) hlen).resolve_left hnext
      cases init with
      | nil => simp [heq] at hinit
      | cons v init =>
        obtain ⟨rfl, -⟩ := List.cons.inj (heq.symm.trans hinit)
        exact heof u List.mem_cons_self (congrArg Token.kind hend)
  · exact fun t ht e he => List.Pairwise.forall_of_forall_of_flip
      (R := fun t e => t.IsWritten → e.IsTerminator → e.loc < t.loc ∨ t.loc + t.len ≤ e.loc)
      (fun t _ hlen hmark => absurd hlen hmark.not_isWritten)
      ((ascending_of_tokenize h).imp fun h _ _ => .inr h.2)
      ((ascending_of_tokenize h).imp fun h _ _ => .inl h.1) ht he

/-- A string and a comment with what would be newlines, empty lines behind a name, a brace and a
semicolon, and carriage returns. -/
def textOfLines : String :=
  "\n// one\nx := \"a\nb\" // two\r\n\n\t// three\n\x7b\n\n\x7d;\n y\n"

/-- Two statements **end with their lines**: the one with the string, and the last one. -/
theorem terminated_of_lines :
    ∃ tokens, tokenize textOfLines.toList = .ok tokens ∧ tokens.filter (·.len == 0) =
      [.lineEnd 26, .lineEnd 46, .sourceEnd 47] ∧ Terminated textOfLines.toList tokens := by
  obtain ⟨tokens, htokens, hmarks⟩ := exists_ok_of_text (s := textOfLines) rfl (f := tokenize)
    (P := fun _ tokens => tokens.filter (·.len == 0) == [.lineEnd 26, .lineEnd 46, .sourceEnd 47])
    (by decide +kernel)
  exact ⟨tokens, htokens, beq_iff_eq.mp hmarks, terminated_of_tokenize htokens⟩

end StackCompiler
