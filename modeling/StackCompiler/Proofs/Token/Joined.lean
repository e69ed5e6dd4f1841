import StackCompiler.Proofs.Token.Lexemes

/-!
# Proofs/Token/Joined — one source behind another

A source that has tokens and ends with a newline leaves the scan as it was at the start: its last lexeme
is that newline, which **nothing behind it can lengthen**, and no statement is open.  So what stands
behind it is read as if it stood alone, and told of further on.
-/

namespace StackCompiler

open Text

/-! ## Moving -/

/-- The token, that many bytes further on. -/
def Token.moved (n : Nat) (t : Token) : Token :=
  { t with loc := n + t.loc }

/-- The diagnostic, told that many bytes further on. -/
def Diagnostic.moved (n : Nat) (d : Diagnostic) : Diagnostic :=
  { d with offset := n + d.offset }

/-- What a scan comes to, **that many bytes further on**. -/
def movedBy (n : Nat) : Except Diagnostic (List Token) → Except Diagnostic (List Token)
  | .ok tokens => .ok (tokens.map (Token.moved n))
  | .error d => .error (d.moved n)

/-- A scan that starts further on is **the same scan, further on**. -/
theorem scan_moved (n covered : Nat) (pending : Bool) (loc : Nat) (cs : List Char) :
    scan covered pending (n + loc) cs = movedBy n (scan covered pending loc cs) := by
  have hcons {x y : Except Diagnostic (List Token)} (t : Token) (h : x = movedBy n y) :
      (x >>= fun rest => return t.moved n :: rest) = movedBy n (y >>= fun rest => return t :: rest) := by
    subst h
    cases y <;> rfl
  induction cs generalizing covered pending loc with
  | nil => rfl
  | cons c cs ih =>
    have hnext (covered : Nat) (pending : Bool) :
        scan covered pending (n + loc + c.utf8Size) cs =
          movedBy n (scan covered pending (loc + c.utf8Size) cs) := by
      rw [Nat.add_assoc]
      exact ih covered pending _
    cases covered with
    | succ covered => exact hnext covered pending
    | zero =>
    rw [scan, scan]
    cases Lexeme.first c cs with
    | error cause => rfl
    | ok l =>
    cases l with
    | blank => exact hnext 0 pending
    | newline =>
      cases pending with
      | true => exact hcons (.lineEnd loc) (hnext 0 false)
      | false => simpa using hnext 0 false
    | comment text => exact hnext _ pending
    | token kind text value => exact hcons (.ofText kind text value loc) (hnext _ _)

/-! ## Neutral ends -/

namespace Lexeme

variable {rest rest' piece : List Char} {l : Lexeme}

/-- Only a newline **ends with one**. -/
theorem Spelled.eq_newline (h : l.Spelled rest piece) (hlast : piece.getLast? = some '\n') :
    piece = ['\n'] ∧ l = .newline := by
  have hmem : '\n' ∈ piece := List.mem_of_getLast? hlast
  have hrun {p : Char → Bool} {text : List Char} (htext : ∀ d ∈ text, p d = true)
      (hp : p '\n' = false) : '\n' ∉ text := fun hmem =>
    absurd (htext '\n' hmem) (Bool.eq_false_iff.mp hp)
  cases h with
  | newline => exact ⟨rfl, rfl⟩
  | blank hc => exact absurd hmem (hrun (List.forall_mem_singleton.mpr hc) rfl)
  | comment hbody => simp [hbody] at hmem
  | @word c cs hc hcs =>
    have hstart : isWordChar c = true := by
      rw [isWordStart, Bool.or_eq_true] at hc
      rw [isWordChar, Char.isAlphanum, Bool.or_eq_true, Bool.or_eq_true]
      exact hc.imp_left .inl
    exact absurd hmem (hrun (List.forall_mem_cons.mpr ⟨hstart, hcs⟩) (by decide))
  | number hc hcs => exact absurd hmem (hrun (List.forall_mem_cons.mpr ⟨hc, hcs⟩) rfl)
  | string =>
    rw [← List.cons_append, List.getLast?_concat] at hlast
    cases hlast
  | character | pair => simp at hlast
  | sign hc => exact absurd hmem (hrun (List.forall_mem_singleton.mpr hc) rfl)

end Lexeme

namespace Lexemes

variable {rest cs : List Char} {ls : List Lexeme}

theorem eq_nil (h : Lexemes rest cs ls) (hcs : cs = []) : ls = [] := by
  cases h with
  | nil => rfl
  | cons h _ => exact absurd (List.append_eq_nil_iff.mp hcs).1 h.ne_nil

/-- Lexemes of which the last is a newline are lexemes **whatever stands behind them**, and no statement
is pending there. -/
theorem behind_newline (h : Lexemes [] cs ls) (hends : cs.getLast? = some '\n') (rest : List Char)
    (pending : Bool) : Lexemes rest cs ls ∧ pendsAfter pending ls = false := by
  induction h generalizing pending with
  | nil => cases hends
  | @cons piece cs l ls h hs ih =>
    cases cs with
    | nil =>
      obtain rfl := hs.eq_nil rfl
      rw [List.append_nil] at hends
      obtain ⟨rfl, rfl⟩ := h.eq_newline hends
      exact ⟨.cons .newline .nil, rfl⟩
    | cons c cs =>
      rw [List.getLast?_append_of_ne_nil _ (List.cons_ne_nil c cs)] at hends
      obtain ⟨hls, hpends⟩ := ih hends (l.pends pending)
      exact ⟨.cons (h.mono fun _ => id) hls, hpends⟩

end Lexemes

/-- **A text behind one that ends with a newline is read as if it stood alone**: its tokens come behind
those of the first one, with the end of that taken off, and further on by its bytes; and where it is
refused, both together are, as far behind. -/
theorem tokenize_append {first : List Char} {tokens : List Token} (h : tokenize first = .ok tokens)
    (hends : first = [] ∨ first.getLast? = some '\n') (second : List Char) :
    ∃ init, tokens = init ++ [.sourceEnd (byteLength first)] ∧
      (∀ tokens', tokenize second = .ok tokens' → tokenize (first ++ second) =
        .ok (init ++ tokens'.map (Token.moved (byteLength first)))) ∧
      ∀ d, tokenize second = .error d →
        tokenize (first ++ second) = .error (d.moved (byteLength first)) := by
  obtain ⟨before, rest, ls, rfl, hls, rfl | ⟨cause, hbarred⟩⟩ := exists_lexemes first
  · rw [List.append_nil] at h hends ⊢
    have hneutral : Lexemes second before ls ∧ pendsAfter false ls = false := by
      rcases hends with rfl | hends
      · obtain rfl := hls.eq_nil rfl
        exact ⟨.nil, rfl⟩
      · exact hls.behind_newline hends second false
    obtain ⟨hls', hpends⟩ := hneutral
    have hjoined : tokenize (before ++ second) =
        (tokensFrom false 0 ls ++ ·) <$> movedBy (byteLength before) (tokenize second) := by
      rw [tokenize, hls'.scan_eq, hpends, Nat.zero_add, ← Nat.add_zero (byteLength before), scan_moved]
      rfl
    refine ⟨tokensFrom false 0 ls, Except.ok.inj (h.symm.trans hls.tokenize_eq), ?_, ?_⟩
    · intro tokens' htokens'
      rw [hjoined, htokens']
      rfl
    · intro d hd
      rw [hjoined, hd]
      rfl
  · cases (hls.tokenize_error hbarred).symm.trans h

/-- A word, a comment and an empty line. -/
def textAbove : String :=
  "x := 1 // one\n\n"

/-- A string behind a sum that `1` would be read with, if it stood in the line above. -/
def textBelow : String :=
  "2 + y\n\x7b\"a\nb\"\x7d"

/-- The second text has its tokens **sixteen bytes further on** behind the first. -/
theorem tokenize_append_of_texts :
    ∃ tokens, tokenize textAbove.toList = .ok tokens ∧
      textAbove.toList.getLast? = some '\n' ∧
      ∃ init, tokens = init ++ [.sourceEnd (byteLength textAbove.toList)] ∧
        (∀ tokens', tokenize textBelow.toList = .ok tokens' →
          tokenize (textAbove.toList ++ textBelow.toList) =
            .ok (init ++ tokens'.map (Token.moved (byteLength textAbove.toList)))) ∧
        ∀ d, tokenize textBelow.toList = .error d →
          tokenize (textAbove.toList ++ textBelow.toList) =
            .error (d.moved (byteLength textAbove.toList)) := by
  obtain ⟨tokens, htokens, -⟩ := exists_ok_of_text (s := textAbove) rfl (f := tokenize)
    (P := fun _ tokens => tokens.length == 5) (by decide +kernel)
  have hends : textAbove.toList.getLast? = some '\n' := by decide +kernel
  exact ⟨tokens, htokens, hends, tokenize_append htokens (.inr hends) textBelow.toList⟩

end StackCompiler
