import Mathlib.Data.Int.ModEq
import StackCompiler.Proofs.Token.Longest
import StackCompiler.Proofs.Token.Pieces
import StackCompiler.Proofs.Token.Refusals
import StackCompiler.Word

/-!
# Proofs/Token/Numbers — the words that digits are read as

A run of digits may be as long as it likes, and the number that it is need not fit a word.  It is read
as **the one word that is congruent to it modulo 2 ^ 64** (`Word.Wraps`), so a number that fits is read
as itself.  Where a scan comes to such a run it goes on behind it, with a token for it: a number is
never too large to be read (`readsNumbers`).
-/

namespace StackCompiler

open Text

/-! ## Words and numbers -/

namespace Word

/-- The word is the number **modulo 2 ^ 64**. -/
structure Wraps (n : Nat) (v : Int64) : Prop where
  fits : fits v.toInt = true
  congruent : v.toInt ≡ n [ZMOD 2 ^ 64]
  unique : ∀ m, Word.fits m = true → m ≡ n [ZMOD 2 ^ 64] → m = v.toInt
  itself : (n : Int) ≤ greatest → v.toInt = n
  /-- Its bits are the last 64 of the number. -/
  bits : v.toBitVec = BitVec.ofNat 64 n

/-- Two numbers of a word that are congruent **are the same**. -/
theorem eq_of_modEq {m m' : Int} (h : fits m = true) (h' : fits m' = true)
    (hmod : m ≡ m' [ZMOD 2 ^ 64]) : m = m' := by
  have hm := fits_iff.mp h
  have hm' := fits_iff.mp h'
  unfold least greatest at hm hm'
  unfold Int.ModEq at hmod
  omega

theorem wraps_ofNat (n : Nat) : Wraps n (Int64.ofNat n) := by
  have hfits : fits (Int64.ofNat n).toInt = true := fits_iff.mpr ⟨Int64.le_toInt _, Int64.toInt_le _⟩
  have hmod : (Int64.ofNat n).toInt ≡ n [ZMOD 2 ^ 64] := by
    rw [Int64.toInt_ofNat']
    exact Int.bmod_emod
  have hunique : ∀ m, fits m = true → m ≡ n [ZMOD 2 ^ 64] → m = (Int64.ofNat n).toInt :=
    fun m hm h => eq_of_modEq hm hfits (h.trans hmod.symm)
  refine ⟨hfits, hmod, hunique, fun hle => (hunique n (fits_iff.mpr ⟨?_, hle⟩) rfl).symm, rfl⟩
  unfold least
  omega

end Word

/-! ## Runs of digits -/

/-- The number that a run of digits is, **however large**: a digit counts ten times what it would one
place further on. -/
def numberOf : List Char → Nat
  | [] => 0
  | c :: cs => (c.toNat - '0'.toNat) * 10 ^ cs.length + numberOf cs

/-- A run of digits, which is not empty and **goes no further** where `rest` stands behind it. -/
structure IsRun (digits rest : List Char) : Prop where
  ne_nil : digits ≠ []
  digits : ∀ c ∈ digits, c.isDigit = true
  ends : ∀ c ∈ rest.head?, c.isDigit = false

section Runs

variable {digits rest text : List Char} {value : Option Int64}

/-- Read from the left, what is there already counts **as many tens as digits follow**. -/
theorem ofDigitChars_eq (digits : List Char) (n : Nat) :
    Nat.ofDigitChars 10 digits n = n * 10 ^ digits.length + numberOf digits := by
  induction digits generalizing n with
  | nil => simp [numberOf]
  | cons c cs ih =>
    rw [Nat.ofDigitChars_cons, ih, numberOf, List.length_cons]
    ring

/-- **The value of a run is its number modulo 2 ^ 64.** -/
theorem wraps_decimalValue (digits : List Char) :
    Word.Wraps (numberOf digits) (Lexeme.decimalValue digits) := by
  have hnumber : Nat.ofDigitChars 10 digits 0 = numberOf digits := by
    rw [ofDigitChars_eq, Nat.zero_mul, Nat.zero_add]
  rw [decimalValue_eq, hnumber]
  exact Word.wraps_ofNat _

/-- Zeros in front **count nothing**. -/
theorem numberOf_zeros (k : Nat) (digits : List Char) :
    numberOf (List.replicate k '0' ++ digits) = numberOf digits := by
  induction k with
  | zero => rfl
  | succ k ih =>
    rw [List.replicate_succ, List.cons_append, numberOf, ih, Nat.sub_self, Nat.zero_mul, Nat.zero_add]

theorem decimalValue_zeros (k : Nat) (digits : List Char) :
    Lexeme.decimalValue (List.replicate k '0' ++ digits) = Lexeme.decimalValue digits := by
  have hzeros := wraps_decimalValue (List.replicate k '0' ++ digits)
  rw [numberOf_zeros] at hzeros
  exact Int64.toInt_inj.mp
    ((wraps_decimalValue digits).unique _ hzeros.fits hzeros.congruent)

theorem IsRun.spelled (h : IsRun digits rest) :
    (Lexeme.token .num digits (some (Lexeme.decimalValue digits))).Spelled rest digits := by
  obtain ⟨hne, hdigits, hends⟩ := h
  obtain ⟨c, cs, rfl⟩ := List.exists_cons_of_ne_nil hne
  obtain ⟨hc, hcs⟩ := List.forall_mem_cons.mp hdigits
  exact .number hc hcs hends

theorem IsRun.zeros (h : IsRun digits rest) (k : Nat) : IsRun (List.replicate k '0' ++ digits) [] where
  ne_nil hnil := h.ne_nil (List.append_eq_nil_iff.mp hnil).2
  digits c hc := by
    rcases List.mem_append.mp hc with hc | hc
    · rw [List.eq_of_mem_replicate hc]
      rfl
    · exact h.digits c hc
  ends := nofun

/-- A number that is no character literal is a run of digits, **with the value of the run**. -/
theorem Lexeme.Spelled.isRun_of_num (h : (Lexeme.token .num text value).Spelled rest text)
    (hhead : text.head? ≠ some '\'') :
    IsRun text rest ∧ value = some (Lexeme.decimalValue text) := by
  obtain ⟨hne, hdigits, hends⟩ := h.digits_of_num hhead
  have hrun : IsRun text rest := ⟨hne, hdigits, hends⟩
  exact ⟨hrun, (Lexeme.token.inj (h.unique hrun.spelled)).2.2⟩

end Runs

/-! ## Tokens -/

section Tokens

variable {source : List Char} {tokens : List Token} {t : Token}

/-- A token that takes any of the source is a lexeme **at a place that the scan comes to**. -/
theorem exists_reached (h : tokenize source = .ok tokens) (ht : t ∈ tokens) (hwritten : t.IsWritten) :
    ∃ before piece rest kind value, source = before ++ (piece ++ rest) ∧
      Reached before (piece ++ rest) ∧ (Lexeme.token kind piece value).Spelled rest piece ∧
      t = .ofText kind piece value (byteLength before) := by
  obtain ⟨ls, hls, rfl⟩ := exists_lexemes_of_tokenize h
  rcases List.mem_append.mp ht with ht | ht
  · obtain ⟨front, after, heq⟩ := List.append_of_mem ht
    obtain ⟨first, l, behind, rfl, -, hl, -⟩ := exists_of_tokensFrom_eq heq
    obtain ⟨before, cs, rfl, hbefore, hcs⟩ := hls.exists_append
    rw [List.append_nil] at hbefore
    rw [Nat.zero_add, ← hbefore.byteLength_eq] at hl
    cases hcs with
    | @cons piece rest _ _ hpiece _ =>
    rw [List.append_nil] at hpiece
    cases l with
    | blank | comment => cases hl
    | newline =>
      rw [Lexeme.tokens] at hl
      split at hl
      · obtain rfl := List.singleton_inj.mp hl
        exact absurd rfl hwritten
      · cases hl
    | token kind text value =>
      obtain rfl := hpiece.token_eq
      obtain rfl := List.singleton_inj.mp hl
      exact ⟨before, _, rest, kind, value, rfl, ⟨first, hbefore⟩, hpiece, rfl⟩
  · obtain rfl := List.mem_singleton.mp ht
    exact absurd rfl hwritten

/-- A number that is no character literal is **a run of digits that the scan comes to**. -/
theorem exists_run_of_num (h : tokenize source = .ok tokens) (ht : t ∈ tokens) (hkind : t.kind = .num)
    (hliteral : t.isCharLiteral = false) :
    ∃ before digits rest, source = before ++ (digits ++ rest) ∧ Reached before (digits ++ rest) ∧
      IsRun digits rest ∧
      t = .ofText .num digits (some (Lexeme.decimalValue digits)) (byteLength before) := by
  have hwritten : t.IsWritten := fun hlen => by
    rcases marks_of_tokenize h t ht hlen with hmark | hmark <;> rw [hmark] at hkind <;> cases hkind
  obtain ⟨before, digits, rest, kind, value, hsource, hreached, hspelled, rfl⟩ :=
    exists_reached h ht hwritten
  obtain rfl : kind = .num := hkind
  have hhead : digits.head? ≠ some '\'' := by
    simpa [Token.isCharLiteral, Token.ofText] using hliteral
  obtain ⟨hrun, rfl⟩ := hspelled.isRun_of_num hhead
  exact ⟨before, digits, rest, hsource, hreached, hrun, rfl⟩

/-- A token whose text is a run of digits **is a number with the value of the run**. -/
theorem num_of_digits (h : tokenize source = .ok tokens) (ht : t ∈ tokens)
    (hrun : IsRun t.text.toList []) :
    t.kind = .num ∧ t.value = some (Lexeme.decimalValue t.text.toList) := by
  obtain ⟨first, rest, hfirst, hkind, hvalue⟩ := exists_first_of_text h ht
  obtain ⟨rfl, -⟩ := List.cons.inj (Except.ok.inj (hrun.spelled.tokenize_alone.symm.trans hfirst))
  exact ⟨hkind.symm, hvalue.symm⟩

end Tokens

/-! ## Sources -/

/-- The numbers of a source are its runs of digits, each **read as the word that it wraps to**. -/
structure ReadsNumbers (source : List Char) : Prop where
  /-- Where the scan comes to a run of digits it goes on behind it, whatever stands there. -/
  read : ∀ before digits rest, source = before ++ (digits ++ rest) →
    Reached before (digits ++ rest) → IsRun digits rest →
      ∃ front value, tokenize before = .ok (front ++ [.sourceEnd (byteLength before)]) ∧
        Word.Wraps (numberOf digits) value ∧
        tokenize source =
          (front ++ Token.ofText .num digits (some value) (byteLength before) :: ·) <$>
            scan 0 true (byteLength before + byteLength digits) rest
  /-- A number that is no character literal is such a run. -/
  written : ∀ tokens, tokenize source = .ok tokens → ∀ t ∈ tokens,
    t.kind = .num → t.isCharLiteral = false →
      ∃ before digits rest value, source = before ++ (digits ++ rest) ∧
        Reached before (digits ++ rest) ∧ IsRun digits rest ∧
        Word.Wraps (numberOf digits) value ∧
        t = .ofText .num digits (some value) (byteLength before)
  /-- Zeros in front of it change nothing, in this source or another. -/
  zeros : ∀ tokens, tokenize source = .ok tokens → ∀ t ∈ tokens,
    t.kind = .num → t.isCharLiteral = false →
      ∀ source' tokens', tokenize source' = .ok tokens' → ∀ t' ∈ tokens', ∀ k,
        t'.text.toList = List.replicate k '0' ++ t.text.toList → t'.kind = .num ∧ t'.value = t.value

/-- **Digits are read as the word that is congruent to their number modulo 2 ^ 64**, as many as they
are: wherever a scan comes to them they are a token, and no number is too large to be one. -/
theorem readsNumbers (source : List Char) : ReadsNumbers source where
  read := by
    rintro before digits rest rfl ⟨ls, hls⟩ hrun
    refine ⟨tokensFrom false 0 ls, _, hls.tokenize_eq, wraps_decimalValue digits, ?_⟩
    rw [tokenize, hls.scan_eq, Nat.zero_add, cut_number hrun.ne_nil hrun.digits rest hrun.ends,
      Functor.map_map]
    rfl
  written := by
    intro tokens h t ht hkind hliteral
    obtain ⟨before, digits, rest, hsource, hreached, hrun, rfl⟩ :=
      exists_run_of_num h ht hkind hliteral
    exact ⟨before, digits, rest, _, hsource, hreached, hrun, wraps_decimalValue digits, rfl⟩
  zeros := by
    intro tokens h t ht hkind hliteral source' tokens' h' t' ht' k htext
    obtain ⟨before, digits, rest, -, -, hrun, rfl⟩ := exists_run_of_num h ht hkind hliteral
    rw [Token.ofText, String.toList_ofList] at htext
    have hrun' : IsRun t'.text.toList [] := htext ▸ hrun.zeros k
    obtain ⟨hkind', hvalue'⟩ := num_of_digits h' ht' hrun'
    rw [hvalue', htext, decimalValue_zeros]
    exact ⟨hkind', rfl⟩

/-- Six more than 2 ^ 64, with two zeros in front, is read as six. -/
example : (tokenize "0018446744073709551622 9223372036854775808".toList).toOption.map
    (·.map Token.value) = some [some 6, some Int64.minValue, none] := by decide +kernel

end StackCompiler
