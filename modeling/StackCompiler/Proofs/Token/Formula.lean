import StackCompiler.Proofs.Meaning.Formula
import StackCompiler.Token.Scan

/-!
# Proofs/Token/Formula — the tokens of a formula

A text that spells a formula is cut into the tokens that do (`Spells.exists_phrase`), **whatever
stands behind it** that is no digit: numbers are whole runs of digits, and no two signs that come
together make another one.
-/

namespace StackCompiler

open Text

/-! ## Lexemes -/

namespace Lexeme

/-- What the characters behind a run do not go on with is **the whole run**. -/
theorem takeWhile_run {goesOn : Char → Bool} {run rest : List Char}
    (h : ∀ c ∈ run, goesOn c = true) (hrest : ∀ c ∈ rest.head?, goesOn c = false) :
    (run ++ rest).takeWhile goesOn = run := by
  rw [List.takeWhile_append_of_pos h]
  cases rest with
  | nil => simp
  | cons c rest => rw [List.takeWhile_cons_of_neg (by simp [hrest c rfl]), List.append_nil]

theorem first_of_isBlank {c : Char} (h : isBlank c = true) (cs : List Char) :
    first c cs = .ok .blank := by
  rw [first, if_pos h]

theorem ne_of_isDigit {c d : Char} (hc : c.isDigit = true) (hd : d.isDigit = false) : c ≠ d := by
  rintro rfl
  rw [hc] at hd
  cases hd

/-- A digit begins a number, **and nothing else**. -/
theorem first_of_isDigit {c : Char} (h : c.isDigit = true) (cs : List Char) :
    first c cs = .ok (number c cs) := by
  have hne {d : Char} : d.isDigit = false → c ≠ d := ne_of_isDigit h
  have hblank : isBlank c = false := by
    simp [isBlank, hne (d := ' ') (by decide), hne (d := '\t') (by decide),
      hne (d := '\r') (by decide)]
  have hword : isWordStart c = false := by
    have hunder : c ≠ '_' := hne (by decide)
    change (decide (c.val ≥ 'A'.val ∧ c.val ≤ 'Z'.val) ||
      (decide (c.val ≥ 'a'.val) && decide (c.val ≤ 'z'.val)) || c == '_') = false
    change (decide (c.val ≥ '0'.val) && decide (c.val ≤ '9'.val)) = true at h
    simp [hunder] at h ⊢
    simp [UInt32.le_iff_toNat_le, UInt32.lt_iff_toNat_lt] at h ⊢
    omega
  simp [first, hblank, hne (d := '\n') (by decide), hne (d := '/') (by decide), hword, h]

/-- The characters that may not come right behind a sign that they would lengthen. -/
def lengthens (c : Char) : Bool :=
  c == '=' || c == '/'

theorem lengthens_of_isBlank {c : Char} (h : isBlank c = true) : lengthens c = false := by
  simp only [isBlank, Bool.or_eq_true, beq_iff_eq] at h
  rcases h with (rfl | rfl) | rfl <;> rfl

theorem isDigit_of_isBlank {c : Char} (h : isBlank c = true) : c.isDigit = false := by
  simp only [isBlank, Bool.or_eq_true, beq_iff_eq] at h
  rcases h with (rfl | rfl) | rfl <;> rfl

/-- A sign is a lexeme of its own, unless what comes next **lengthens** it. -/
theorem first_of_sign (sign : Sign) {c : Char} {cs : List Char} (hsign : sign.text = c :: cs)
    {rest : List Char} (hrest : ∀ d ∈ rest.head?, lengthens d = false) :
    first c (cs ++ rest) = .ok (.token .punctuator (c :: cs) none) := by
  have hhead : rest.headD ' ' ≠ '=' ∧ rest.head? ≠ some '/' := by
    cases rest with
    | nil => exact ⟨by decide, nofun⟩
    | cons d rest =>
      have hd := hrest d rfl
      refine ⟨?_, fun h => ?_⟩
      · rintro rfl
        cases hd
      · cases h
        cases hd
  rw [List.headD_eq_head?_getD] at hhead
  cases sign <;> cases hsign <;>
    simp [first, operator, isBlank, isWordStart, isOperatorPair, isPunctuation, hhead]

theorem first_of_bracket {c : Char} (h : c ∈ ['(', ')', '\x7b', '\x7d']) (rest : List Char) :
    first c rest = .ok (.token .punctuator [c] none) := by
  simp only [List.mem_cons, List.not_mem_nil, or_false] at h
  rcases h with rfl | rfl | rfl | rfl <;>
    simp [first, operator, isBlank, isWordStart, isOperatorPair, isPunctuation]

/-- A word goes on **as long as there are characters for it**. -/
theorem first_of_word {c : Char} {cs rest : List Char} (hc : isWordStart c = true)
    (hcs : ∀ d ∈ cs, isWordChar d = true) (hrest : ∀ d ∈ rest.head?, isWordChar d = false) :
    first c (cs ++ rest) =
      .ok (.token (wordKind (String.ofList (c :: cs))) (c :: cs) none) := by
  have hne {d : Char} (hd : isWordStart d = false) : c ≠ d := by
    rintro rfl
    rw [hc] at hd
    cases hd
  have hblank : isBlank c = false := by
    simp [isBlank, hne (d := ' ') (by decide), hne (d := '\t') (by decide),
      hne (d := '\r') (by decide)]
  have hrun : (cs ++ rest).takeWhile isWordChar = cs := takeWhile_run hcs hrest
  simp [first, hblank, hne (d := '\n') (by decide), hne (d := '/') (by decide), hc, word, hrun]

end Lexeme

/-! ## Numbers -/

/-- A run of digits has the value of its number, **modulo 2 ^ 64**. -/
theorem decimalValue_eq (digits : List Char) :
    Lexeme.decimalValue digits = Int64.ofNat (Nat.ofDigitChars 10 digits 0) := by
  have hfold : ∀ (digits : List Char) (n : Nat),
      digits.foldl (fun value digit => value * 10 + Int64.ofNat (digit.toNat - '0'.toNat))
        (Int64.ofNat n) = Int64.ofNat (Nat.ofDigitChars 10 digits n) := by
    intro digits
    induction digits with
    | nil => exact fun n => congrArg Int64.ofNat Nat.ofDigitChars_nil.symm
    | cons c cs ih =>
      intro n
      rw [List.foldl_cons, Nat.ofDigitChars_cons, ← ih, Int64.ofNat_add, Int64.ofNat_mul, Int64.mul_comm]
      rfl
  exact hfold digits 0

/-! ## Pieces of a text -/

/-- The token that was read from that text. -/
def Token.ofText (kind : Token.Kind) (text : List Char) (value : Option Int64) (loc : Nat) : Token :=
  ⟨kind, String.ofList text, value, loc, byteLength text⟩

theorem Token.is_ofText (text : List Char) (loc : Nat) :
    (Token.ofText .punctuator text none loc).is (String.ofList text) = true :=
  Token.is_iff.mpr ⟨rfl, rfl⟩

/-- From that place on the text is cut into those tokens, whatever stands behind it that **does not
go on** with it; before and after it a statement is `pending` or not. -/
def Cut (goesOn : Char → Bool) (loc : Nat) (pending : Bool) (s : List Char) (ts : List Token)
    (pending' : Bool) : Prop :=
  ∀ rest, (∀ c ∈ rest.head?, goesOn c = false) →
    scan 0 pending loc (s ++ rest) = (ts ++ ·) <$> scan 0 pending' (loc + byteLength s) rest

/-- The text starts with a character of that kind. -/
def StartsWith (kind : Char → Prop) (s : List Char) : Prop :=
  ∃ c cs, s = c :: cs ∧ kind c

theorem StartsWith.append {kind : Char → Prop} {s : List Char} (h : StartsWith kind s)
    (s' : List Char) : StartsWith kind (s ++ s') := by
  obtain ⟨c, cs, rfl, hc⟩ := h
  exact ⟨c, cs ++ s', rfl, hc⟩

section Pieces

variable {g g' : Char → Bool} {loc : Nat} {pending pending' pending'' : Bool} {s s' : List Char}
  {ts ts' : List Token}

/-- **One piece behind the other**, if the second does not go on with the first. -/
theorem Cut.append (h : Cut g loc pending s ts pending')
    (h' : Cut g' (loc + byteLength s) pending' s' ts' pending'')
    (hs' : StartsWith (g · = false) s') :
    Cut g' loc pending (s ++ s') (ts ++ ts') pending'' := by
  intro rest hrest
  obtain ⟨c, cs, rfl, hc⟩ := hs'
  have hgo : ∀ d ∈ (c :: cs ++ rest).head?, g d = false := by
    rintro _ ⟨⟩
    exact hc
  rw [List.append_assoc, h _ hgo, h' rest hrest, Functor.map_map, byteLength_append,
    ← Nat.add_assoc]
  simp only [List.append_assoc]

/-- A token takes **all the text** that it was read from. -/
theorem Cut.token {kind : Token.Kind} {c : Char} {cs : List Char} {value : Option Int64}
    (hfirst : ∀ rest, (∀ d ∈ rest.head?, g d = false) →
      Lexeme.first c (cs ++ rest) = .ok (.token kind (c :: cs) value)) :
    Cut g loc pending (c :: cs) [.ofText kind (c :: cs) value loc]
      (Token.ofText kind (c :: cs) value loc).closesLine := by
  intro rest hrest
  rw [List.cons_append, scan, hfirst rest hrest]
  simp only [List.length_cons, Nat.add_sub_cancel, scan_append]
  rw [map_eq_pure_bind, byteLength_cons, ← Nat.add_assoc]
  rfl

theorem cut_blank {c : Char} (hc : Lexeme.isBlank c = true) :
    Cut g loc pending [c] [] pending := by
  intro rest _
  rw [List.singleton_append, scan, Lexeme.first_of_isBlank hc]
  simp

/-- A newline ends a statement, **if there is one**. -/
theorem cut_newline : Cut g loc pending ['\n'] (if pending then [.lineEnd loc] else []) false := by
  intro rest _
  have hfirst : Lexeme.first '\n' rest = .ok .newline := rfl
  rw [List.singleton_append, scan, hfirst, map_eq_pure_bind]
  cases pending <;> rfl

theorem cut_bracket {c : Char} (hc : c ∈ ['(', ')', '\x7b', '\x7d']) :
    Cut g loc pending [c] [.ofText .punctuator [c] none loc]
      (Token.ofText .punctuator [c] none loc).closesLine :=
  .token fun rest _ => Lexeme.first_of_bracket hc rest

theorem cut_word {c : Char} {cs : List Char} (hc : Lexeme.isWordStart c = true)
    (hcs : ∀ d ∈ cs, Lexeme.isWordChar d = true) :
    Cut Lexeme.isWordChar loc pending (c :: cs)
      [.ofText (Lexeme.wordKind (String.ofList (c :: cs))) (c :: cs) none loc]
      (Token.ofText (Lexeme.wordKind (String.ofList (c :: cs))) (c :: cs) none loc).closesLine :=
  .token fun _ hrest => Lexeme.first_of_word hc hcs hrest

theorem cut_sign (sign : Sign) :
    Cut Lexeme.lengthens loc pending sign.text [.ofText .punctuator sign.text none loc] true := by
  obtain ⟨c, cs, hsign⟩ : ∃ c cs, sign.text = c :: cs := by cases sign <;> exact ⟨_, _, rfl⟩
  have hcloses : (Token.ofText .punctuator sign.text none loc).closesLine = true := by
    cases sign <;> rfl
  rw [← hcloses, hsign]
  exact .token fun _ hrest => Lexeme.first_of_sign sign hsign hrest

theorem cut_number (hne : s ≠ []) (hs : ∀ c ∈ s, c.isDigit = true) :
    Cut Char.isDigit loc pending s [.ofText .num s (some (Lexeme.decimalValue s)) loc] true := by
  obtain ⟨c, cs, rfl⟩ := List.exists_cons_of_ne_nil hne
  obtain ⟨hc, hcs⟩ := List.forall_mem_cons.mp hs
  refine .token fun rest hrest => ?_
  rw [Lexeme.first_of_isDigit hc, Lexeme.number, Lexeme.takeWhile_run hcs hrest]

end Pieces

/-! ## Formulas -/

/-- The tokens spell the formula, as an operand of that tier. -/
inductive Phrase : Nat → List Token → Formula → Prop
  | literal {token : Token} {digits : List Char} (hkind : token.kind = .num)
    (hvalue : token.value = (Formula.literal digits).value) : Phrase 5 [token] (.literal digits)
  | group {opening closing : Token} {ts : List Token} {t : Formula} (ho : opening.is "(" = true)
    (hc : closing.is ")" = true) (h : Phrase 0 ts t) : Phrase 5 (opening :: (ts ++ [closing])) t
  | positive {token : Token} {ts : List Token} {t : Formula} (hs : token.is "+" = true)
    (h : Phrase 4 ts t) : Phrase 4 (token :: ts) (.positive t)
  | negative {token : Token} {ts : List Token} {t : Formula} (hs : token.is "-" = true)
    (h : Phrase 4 ts t) : Phrase 4 (token :: ts) (.negative t)
  | joined {token : Token} {ts ts' : List Token} {t t' : Formula} (sign : Sign)
    (hs : token.is (String.ofList sign.text) = true) (h : Phrase sign.tier ts t)
    (h' : Phrase (sign.tier + 1) ts' t') :
    Phrase sign.tier (ts ++ token :: ts') (.joined sign t t')
  | looser {n : Nat} {ts : List Token} {t : Formula} (h : Phrase (n + 1) ts t) : Phrase n ts t


/-- A formula starts with nothing that **lengthens a sign** in front of it. -/
theorem Spells.startsWith {n : Nat} {s : List Char} {t : Formula} (h : Spells n s t) :
    StartsWith (Lexeme.lengthens · = false) s := by
  induction h with
  | @literal digits hne hdigits =>
    obtain ⟨c, cs, rfl⟩ := List.exists_cons_of_ne_nil hne
    have hc := hdigits c List.mem_cons_self
    refine ⟨c, cs, rfl, ?_⟩
    simp [Lexeme.lengthens, Lexeme.ne_of_isDigit hc (d := '=') (by decide),
      Lexeme.ne_of_isDigit hc (d := '/') (by decide)]
  | group => exact ⟨_, _, rfl, rfl⟩
  | positive => exact ⟨_, _, rfl, rfl⟩
  | negative => exact ⟨_, _, rfl, rfl⟩
  | joined sign _ _ ih =>
    obtain ⟨c, cs, rfl, hc⟩ := ih
    exact ⟨c, _, rfl, hc⟩
  | looser _ ih => exact ih
  | before hc => exact ⟨_, _, rfl, Lexeme.lengthens_of_isBlank hc⟩
  | after _ _ ih =>
    obtain ⟨c, cs, rfl, hc⟩ := ih
    exact ⟨c, _, rfl, hc⟩

/-- **A text that spells a formula is cut into tokens that spell it.** -/
theorem Spells.exists_phrase {n : Nat} {s : List Char} {t : Formula} (h : Spells n s t) :
    ∀ loc pending, ∃ ts, Phrase n ts t ∧ Cut Char.isDigit loc pending s ts true := by
  induction h with
  | literal hne hdigits =>
    exact fun loc _ => ⟨_, .literal rfl (congrArg some (decimalValue_eq _)), cut_number hne hdigits⟩
  | @group s t h ih =>
    intro loc pending
    obtain ⟨ts, hts, hcut⟩ := ih (loc + byteLength ['(']) true
    have hopen : Cut Lexeme.lengthens loc pending ['('] [.ofText .punctuator ['('] none loc] true :=
      cut_bracket (by simp)
    have hclose : Cut Char.isDigit (loc + byteLength ['('] + byteLength s) true [')']
        [.ofText .punctuator [')'] none (loc + byteLength ['('] + byteLength s)] true :=
      cut_bracket (by simp)
    exact ⟨_, .group (Token.is_ofText ['('] loc) (Token.is_ofText [')'] _) hts,
      hopen.append (hcut.append hclose ⟨_, _, rfl, rfl⟩) (h.startsWith.append _)⟩
  | positive h ih =>
    intro loc pending
    obtain ⟨ts, hts, hcut⟩ := ih (loc + byteLength ['+']) true
    exact ⟨_, .positive (Token.is_ofText ['+'] loc) hts, (cut_sign .plus).append hcut h.startsWith⟩
  | negative h ih =>
    intro loc pending
    obtain ⟨ts, hts, hcut⟩ := ih (loc + byteLength ['-']) true
    exact ⟨_, .negative (Token.is_ofText ['-'] loc) hts, (cut_sign .minus).append hcut h.startsWith⟩
  | @joined s s' t t' sign h h' ih ih' =>
    intro loc pending
    obtain ⟨ts, hts, hcut⟩ := ih loc pending
    obtain ⟨ts', hts', hcut'⟩ := ih' (loc + byteLength s + byteLength sign.text) true
    have hstart : StartsWith (Char.isDigit · = false) sign.text := by
      cases sign <;> exact ⟨_, _, rfl, rfl⟩
    exact ⟨_, .joined sign (Token.is_ofText sign.text (loc + byteLength s)) hts hts',
      hcut.append ((cut_sign sign).append hcut' h'.startsWith) (hstart.append _)⟩
  | looser _ ih => exact fun loc pending => (ih loc pending).imp fun ts h => ⟨.looser h.1, h.2⟩
  | @before n s t c hc h ih =>
    intro loc pending
    obtain ⟨ts, hts, hcut⟩ := ih (loc + byteLength [c]) pending
    have hblank : Cut Lexeme.lengthens loc pending [c] [] pending := cut_blank hc
    exact ⟨ts, hts, hblank.append hcut h.startsWith⟩
  | @after n s t c hc h ih =>
    intro loc pending
    obtain ⟨ts, hts, hcut⟩ := ih loc pending
    have hblank : Cut Char.isDigit (loc + byteLength s) true [c] [] true := cut_blank hc
    refine ⟨ts, hts, ?_⟩
    rw [← List.append_nil ts]
    exact hcut.append hblank ⟨_, _, rfl, Lexeme.isDigit_of_isBlank hc⟩

/-! ## A source around a formula -/

/-- The source of a `main` that returns what the text spells. -/
def mainReturning (s : List Char) : List Char :=
  "package p\nfunc main() int \x7b return ".toList ++ (s ++ " \x7d\n".toList)

/-- The tokens up to the `return`. -/
def tokensBefore : List Token :=
  [⟨.punctuator, "package", none, 0, 7⟩, ⟨.ident, "p", none, 8, 1⟩, .lineEnd 9,
    ⟨.punctuator, "func", none, 10, 4⟩, ⟨.ident, "main", none, 15, 4⟩,
    ⟨.punctuator, "(", none, 19, 1⟩, ⟨.punctuator, ")", none, 20, 1⟩,
    ⟨.typeName, "int", none, 22, 3⟩, ⟨.punctuator, "\x7b", none, 26, 1⟩,
    ⟨.punctuator, "return", none, 28, 6⟩]

theorem cut_before {g : Char → Bool} :
    Cut g 0 false "package p\nfunc main() int \x7b return ".toList tokensBefore true := by
  have hword (c : Char) (cs : List Char) {loc : Nat} {pending : Bool}
      (h : (Lexeme.isWordStart c && cs.all Lexeme.isWordChar) = true) :
      Cut Lexeme.isWordChar loc pending (c :: cs) _ _ :=
    cut_word (Bool.and_eq_true_iff.mp h).1 (List.all_eq_true.mp (Bool.and_eq_true_iff.mp h).2)
  have hblank {g : Char → Bool} {loc : Nat} {pending : Bool} : Cut g loc pending [' '] [] pending :=
    cut_blank rfl
  have hbracket (c : Char) {loc : Nat} {pending : Bool} (h : c ∈ ['(', ')', '\x7b', '\x7d']) :
      Cut Char.isDigit loc pending [c] _ _ := cut_bracket h
  have hpackage : Cut Lexeme.isWordChar 0 false ['p', 'a', 'c', 'k', 'a', 'g', 'e'] _ _ :=
    hword 'p' ['a', 'c', 'k', 'a', 'g', 'e'] rfl
  have hclause := ((hpackage.append (hblank (g := Char.isDigit)) ⟨_, _, rfl, rfl⟩).append
    (hword 'p' [] rfl) ⟨_, _, rfl, rfl⟩).append (cut_newline (g := Char.isDigit)) ⟨_, _, rfl, rfl⟩
  have hfunc := ((hclause.append (hword 'f' ['u', 'n', 'c'] rfl) ⟨_, _, rfl, rfl⟩).append
    (hblank (g := Char.isDigit)) ⟨_, _, rfl, rfl⟩).append (hword 'm' ['a', 'i', 'n'] rfl)
    ⟨_, _, rfl, rfl⟩
  have hparams := ((hfunc.append (hbracket '(' (by simp)) ⟨_, _, rfl, rfl⟩).append
    (hbracket ')' (by simp)) ⟨_, _, rfl, rfl⟩).append (hblank (g := Char.isDigit)) ⟨_, _, rfl, rfl⟩
  have htype := ((hparams.append (hword 'i' ['n', 't'] rfl) ⟨_, _, rfl, rfl⟩).append
    (hblank (g := Char.isDigit)) ⟨_, _, rfl, rfl⟩).append (hbracket '\x7b' (by simp))
    ⟨_, _, rfl, rfl⟩
  have hreturn := ((htype.append (hblank (g := Char.isDigit)) ⟨_, _, rfl, rfl⟩).append
    (hword 'r' ['e', 't', 'u', 'r', 'n'] rfl) ⟨_, _, rfl, rfl⟩).append (hblank (g := g))
    ⟨_, _, rfl, rfl⟩
  exact hreturn

/-- **The tokens of the source are those of the formula**, between what is always there. -/
theorem Spells.tokenize_mainReturning {s : List Char} {t : Formula} (h : Spells 0 s t) :
    ∃ ts loc, Phrase 0 ts t ∧ tokenize (mainReturning s) =
      .ok (tokensBefore ++ (ts ++ [⟨.punctuator, "\x7d", none, loc, 1⟩, .sourceEnd (loc + 2)])) := by
  obtain ⟨ts, hts, hcut⟩ := h.exists_phrase 35 true
  refine ⟨ts, 35 + byteLength s + 1, hts, ?_⟩
  have hblank : Cut Char.isDigit (35 + byteLength s) true [' '] [] true := cut_blank rfl
  have hbrace : Cut Char.isDigit (35 + byteLength s + 1) true ['\x7d']
      [.ofText .punctuator ['\x7d'] none (35 + byteLength s + 1)] false := cut_bracket (by simp)
  have hend : Cut Char.isDigit (35 + byteLength s + 1 + 1) false ['\n'] [] false := cut_newline
  have hback := hblank.append (hbrace.append hend ⟨_, _, rfl, rfl⟩) ⟨_, _, rfl, rfl⟩
  have hsource := cut_before.append (hcut.append hback ⟨_, _, rfl, rfl⟩) (h.startsWith.append _)
  have hscan := hsource [] nofun
  have hloc : 0 + byteLength (mainReturning s) = 35 + byteLength s + 1 + 2 := by
    unfold mainReturning
    rw [byteLength_append, byteLength_append]
    change 0 + (35 + (byteLength s + 3)) = _
    omega
  rw [List.append_nil] at hscan
  rw [← hloc]
  refine hscan.trans (congrArg Except.ok ?_)
  dsimp only
  rw [List.append_assoc, List.append_assoc]
  rfl

end StackCompiler
