import Mathlib.Data.List.Forall2
import StackCompiler.Proofs.Token.Tiles

/-!
# Proofs/Token/Alike — tokens that differ in their places

What a token is depends on **its own text** and on whether what comes next would lengthen it.  So the
tokens of a source can be written again with a blank behind each, and a newline for each end of a
statement: the text is cut into tokens that differ from those at most in their places (`Alike`).
-/

namespace StackCompiler

open Text

/-- The tokens have one kind, text and value, and both or neither **take any of their source**. -/
structure Token.Alike (t t' : Token) : Prop where
  kind : t.kind = t'.kind
  text : t.text = t'.text
  value : t.value = t'.value
  mark : t.len = 0 ↔ t'.len = 0

namespace Token.Alike

variable {t t' : Token}

theorem is_eq (h : t.Alike t') (text : String) : t.is text = t'.is text := by
  rw [Token.is, Token.is, h.kind, h.text]

theorem body_eq (h : t.Alike t') : t.body = t'.body := by
  rw [Token.body, Token.body, h.text]

theorem isCharLiteral_eq (h : t.Alike t') : t.isCharLiteral = t'.isCharLiteral := by
  rw [Token.isCharLiteral, Token.isCharLiteral, h.kind, h.text]

theorem describe_eq (h : t.Alike t') : Token.describe (some t) = Token.describe (some t') := by
  simp only [Token.describe, h.kind, h.text, h.mark]

end Token.Alike

/-- The token as it is written again: with a blank behind it, as a newline if it is the end of a
statement that was not written, and **not at all** at the end of the source. -/
def Token.respelled (t : Token) : List Char :=
  if t.kind = .eof then []
  else if t.text = ";" ∧ t.len = 0 then ['\n']
  else t.text.toList ++ [' ']

/-- The tokens written again, one behind the other. -/
def respell (tokens : List Token) : List Char :=
  tokens.flatMap Token.respelled

namespace Lexeme

/-- Whether the character would **lengthen** the token `c :: cs` if it came right behind it. -/
def lengthened (c : Char) (cs : List Char) (d : Char) : Bool :=
  if isWordStart c then isWordChar d
  else if c.isDigit then d.isDigit
  else cs.isEmpty && (isOperatorPair c d || c == '/' && d == '/')

section Behind

variable {c : Char} {cs after rest : List Char} {kind : Token.Kind} {value : Option Int64}

/-- A run that goes on no further in front of one text is **the run in front of another**. -/
theorem takeWhile_behind {p : Char → Bool} (h : (cs ++ after).takeWhile p = cs)
    (hrest : ∀ d ∈ rest.head?, p d = false) : (cs ++ rest).takeWhile p = cs :=
  takeWhile_run (fun d hd => List.all_eq_true.mp (h ▸ List.all_takeWhile) d hd) hrest

theorem word_behind (h : word c (cs ++ after) = .token kind (c :: cs) value)
    (hrest : ∀ d ∈ rest.head?, isWordChar d = false) :
    word c (cs ++ rest) = .token kind (c :: cs) value := by
  obtain ⟨rfl, htext, rfl⟩ := Lexeme.token.inj h
  have hrun := (List.cons.inj htext).2
  rw [word, takeWhile_behind hrun hrest, hrun]

theorem number_behind (h : number c (cs ++ after) = .token kind (c :: cs) value)
    (hrest : ∀ d ∈ rest.head?, d.isDigit = false) :
    number c (cs ++ rest) = .token kind (c :: cs) value := by
  obtain ⟨rfl, htext, rfl⟩ := Lexeme.token.inj h
  have hrun := (List.cons.inj htext).2
  rw [number, takeWhile_behind hrun hrest, hrun]

theorem string_behind (h : string (cs ++ after) = .ok (.token kind (c :: cs) value)) :
    string (cs ++ rest) = .ok (.token kind (c :: cs) value) := by
  unfold string at h
  split at h
  · obtain ⟨rfl, htext, rfl⟩ := Lexeme.token.inj (Except.ok.inj h)
    obtain ⟨rfl, hcs⟩ := List.cons.inj htext
    obtain ⟨body, hbody, hrun⟩ : ∃ body, cs = body ++ ['"'] ∧ ∀ d ∈ body, (d != '"') = true :=
      ⟨_, hcs.symm, fun d hd => List.all_eq_true.mp List.all_takeWhile d hd⟩
    have htake : (cs ++ rest).takeWhile (· != '"') = body := by
      rw [hbody, List.append_assoc]
      exact takeWhile_run hrun (by rintro _ ⟨⟩; rfl)
    rw [string, if_pos (by simp [hbody]), htake, List.cons_append, ← hbody]
  · cases h

theorem character_behind (h : character (cs ++ after) = .ok (.token kind (c :: cs) value)) :
    character (cs ++ rest) = .ok (.token kind (c :: cs) value) := by
  unfold character at h
  split at h
  next d _ hcs =>
    split at h
    next hd =>
      obtain ⟨rfl, htext, rfl⟩ := Lexeme.token.inj (Except.ok.inj h)
      obtain ⟨rfl, rfl⟩ := List.cons.inj htext
      simp [character, hd]
    · cases h
  · cases h

theorem operator_behind (h : operator c (cs ++ after) = .ok (.token kind (c :: cs) value))
    (hrest : cs = [] → ∀ d ∈ rest.head?, isOperatorPair c d = false) :
    operator c (cs ++ rest) = .ok (.token kind (c :: cs) value) := by
  unfold operator at h
  split at h
  next hpair =>
    obtain ⟨rfl, htext, rfl⟩ := Lexeme.token.inj (Except.ok.inj h)
    obtain ⟨-, rfl⟩ := List.cons.inj htext
    rw [operator, if_pos (by simpa using hpair)]
  split at h
  next hpunctuation =>
    obtain ⟨rfl, htext, rfl⟩ := Lexeme.token.inj (Except.ok.inj h)
    obtain ⟨-, rfl⟩ := List.cons.inj htext
    have hnopair : isOperatorPair c (rest.headD ' ') = false := by
      cases rest with
      | nil => simp [isOperatorPair]
      | cons d rest => exact hrest rfl d rfl
    rw [List.nil_append, operator, if_neg (Bool.eq_false_iff.mp hnopair), if_pos hpunctuation]
  · cases h

/-- **What a token is read as depends on its own text**, as long as what comes right behind it does
not lengthen it. -/
theorem first_behind (h : first c (cs ++ after) = .ok (.token kind (c :: cs) value))
    (hrest : ∀ d ∈ rest.head?, lengthened c cs d = false) :
    first c (cs ++ rest) = .ok (.token kind (c :: cs) value) := by
  unfold first at h ⊢
  by_cases hblank : isBlank c = true
  · rw [if_pos hblank] at h
    cases h
  by_cases hnewline : c = '\n'
  · rw [if_neg hblank, if_pos hnewline] at h
    cases h
  by_cases hcomment : c = '/' ∧ (cs ++ after).head? = some '/'
  · rw [if_neg hblank, if_neg hnewline, if_pos hcomment] at h
    cases h
  rw [if_neg hblank, if_neg hnewline, if_neg hcomment] at h
  have hcomment' : ¬(c = '/' ∧ (cs ++ rest).head? = some '/') := by
    rintro ⟨rfl, hslash⟩
    cases cs with
    | nil => exact absurd (hrest '/' hslash) (by decide)
    | cons d cs => exact hcomment ⟨rfl, hslash⟩
  rw [if_neg hblank, if_neg hnewline, if_neg hcomment']
  by_cases hword : isWordStart c = true
  · rw [if_pos hword] at h ⊢
    refine congrArg _ (word_behind (Except.ok.inj h) fun d hd => ?_)
    exact (if_pos hword).symm.trans (hrest d hd)
  by_cases hdigit : c.isDigit = true
  · rw [if_neg hword, if_pos hdigit] at h ⊢
    refine congrArg _ (number_behind (Except.ok.inj h) fun d hd => ?_)
    exact ((if_neg hword).trans (if_pos hdigit)).symm.trans (hrest d hd)
  rw [if_neg hword, if_neg hdigit] at h ⊢
  split at h
  next hquote =>
    rw [if_pos hquote]
    exact string_behind h
  next hquote =>
  rw [if_neg hquote]
  split at h
  next hquote =>
    rw [if_pos hquote]
    exact character_behind h
  next hquote =>
  rw [if_neg hquote]
  refine operator_behind h fun hnil d hd => ?_
  have hd := hrest d hd
  rw [lengthened, if_neg hword, if_neg hdigit, hnil, List.isEmpty_nil, Bool.true_and,
    Bool.or_eq_false_iff] at hd
  exact hd.1

/-- A blank lengthens **nothing**. -/
theorem lengthened_blank (c : Char) (cs : List Char) : lengthened c cs ' ' = false := by
  have hpair : isOperatorPair c ' ' = false := by simp [isOperatorPair]
  unfold lengthened
  split
  · rfl
  split
  · rfl
  · rw [hpair]
    simp

end Behind

end Lexeme

/-! ## Writing tokens again -/

/-- The tokens that a text is cut into are those that it is cut into **written again**. -/
theorem Scanned.exists_alike {pending : Bool} {loc : Nat} {cs : List Char} {ts : List Token}
    (h : Scanned pending loc cs ts) :
    ∀ loc', ∃ ts', scan 0 pending loc' (respell ts) = .ok ts' ∧ List.Forall₂ Token.Alike ts ts' := by
  induction h with
  | @finish pending loc =>
    exact fun loc' => ⟨[.sourceEnd loc'], rfl, .cons ⟨rfl, rfl, rfl, Iff.rfl⟩ .nil⟩
  | blank _ _ ih | comment _ _ _ ih => exact ih
  | @newline pending loc cs ts _ ih =>
    intro loc'
    cases pending with
    | false => exact ih loc'
    | true =>
      obtain ⟨ts', hscan, halike⟩ := ih (loc' + '\n'.utf8Size)
      refine ⟨.lineEnd loc' :: ts', ?_, .cons ⟨rfl, rfl, rfl, Iff.rfl⟩ halike⟩
      change scan 0 true loc' ('\n' :: respell ts) = _
      have hfirst : Lexeme.first '\n' (respell ts) = .ok .newline := rfl
      rw [scan, hfirst]
      dsimp only
      rw [hscan]
      rfl
  | @token pending loc kind c text value cs ts hfirst _ ih =>
    intro loc'
    have hlen : byteLength (c :: text) ≠ 0 := (Nat.add_pos_left c.utf8Size_pos _).ne'
    have hrespelled : (Token.ofText kind (c :: text) value loc).respelled = c :: text ++ [' '] := by
      unfold Token.respelled Token.ofText
      dsimp only
      rw [if_neg (Lexeme.kind_ne_of_first hfirst), if_neg fun h => hlen h.2]
      exact congrArg (· ++ [' ']) String.toList_ofList
    obtain ⟨ts', hscan, halike⟩ := ih (loc' + byteLength (c :: text) + ' '.utf8Size)
    refine ⟨.ofText kind (c :: text) value loc' :: ts', ?_, .cons ⟨rfl, rfl, rfl, Iff.rfl⟩ halike⟩
    have hfirst' : Lexeme.first c (text ++ ' ' :: respell ts) =
        .ok (.token kind (c :: text) value) := by
      refine Lexeme.first_behind hfirst ?_
      rintro _ ⟨⟩
      exact Lexeme.lengthened_blank c text
    have hblank : Lexeme.first ' ' (respell ts) = .ok .blank := rfl
    rw [respell, List.flatMap_cons, hrespelled, List.append_assoc]
    change scan 0 pending loc' (c :: (text ++ ' ' :: respell ts)) = _
    rw [scan, hfirst']
    dsimp only
    rw [scan_covered, scan, hblank]
    dsimp only
    exact congrArg (· >>= fun rest => pure (Token.ofText kind (c :: text) value loc' :: rest)) hscan

/-- **Tokens can be written again.**  The tokens of a source, each with a blank behind it and each
end of a statement as a newline, are a source of tokens that differ from them only in their
places. -/
theorem tokenize_respell {source : List Char} {tokens : List Token}
    (h : tokenize source = .ok tokens) :
    ∃ tokens', tokenize (respell tokens) = .ok tokens' ∧ List.Forall₂ Token.Alike tokens tokens' :=
  (scanned_of_tokenize h).exists_alike 0

/-- Tokens that touch, in a source in which **comments and line breaks** stand between others. -/
theorem tokenize_respell_of_slashes :
    ∃ tokens tokens', tokenize textOfSlashes.toList = .ok tokens ∧
      tokenize (respell tokens) = .ok tokens' ∧ List.Forall₂ Token.Alike tokens tokens' ∧
      respell tokens = "s := \"// é\n\" \nt := 6 / '\"' \x7d ".toList := by
  obtain ⟨tokens, htokens, hrespell⟩ := exists_ok_of_text (s := textOfSlashes) rfl (f := tokenize)
    (P := fun _ tokens => respell tokens == "s := \"// é\n\" \nt := 6 / '\"' \x7d ".toList)
    (by decide +kernel)
  obtain ⟨tokens', htokens', halike⟩ := tokenize_respell htokens
  exact ⟨tokens, tokens', htokens, htokens', halike, beq_iff_eq.mp hrespell⟩

end StackCompiler
