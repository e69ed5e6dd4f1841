import StackCompiler.Proofs.Token.Tiles

/-!
# Proofs/Token/Lexemes — what lexemes are, and what bars them

Which lexeme a text starts with is told here without the reader: words, numbers and comments are whole
runs, an operator of two characters wins over one of one (`Lexeme.Spelled`).  A text that is not empty
starts with one, **or it is barred** in one of three ways (`Lexeme.Barred`).  So a source is lexemes one behind the
other (`Lexemes`), and the scan of it is told lexeme by lexeme.
-/

namespace StackCompiler

open Text

namespace Lexeme

/-! ## Lexemes and bars -/

/-- The piece is that lexeme, **as long as it can be** where `rest` stands behind it. -/
inductive Spelled (rest : List Char) : List Char → Lexeme → Prop
  | blank {c : Char} (hc : isBlank c = true) : Spelled rest [c] .blank
  | newline : Spelled rest ['\n'] .newline
  | comment {body : List Char} (hbody : '\n' ∉ body) (hrest : ∀ d ∈ rest.head?, d = '\n') :
      Spelled rest ('/' :: '/' :: body) (.comment ('/' :: '/' :: body))
  | word {c : Char} {cs : List Char} (hc : isWordStart c = true) (hcs : ∀ d ∈ cs, isWordChar d = true)
      (hrest : ∀ d ∈ rest.head?, isWordChar d = false) :
      Spelled rest (c :: cs) (.token (wordKind (String.ofList (c :: cs))) (c :: cs) none)
  | number {c : Char} {cs : List Char} (hc : c.isDigit = true) (hcs : ∀ d ∈ cs, d.isDigit = true)
      (hrest : ∀ d ∈ rest.head?, d.isDigit = false) :
      Spelled rest (c :: cs) (.token .num (c :: cs) (some (decimalValue (c :: cs))))
  | string {body : List Char} (hbody : '"' ∉ body) :
      Spelled rest ('"' :: (body ++ ['"'])) (.token .str ('"' :: (body ++ ['"'])) none)
  | character {c : Char} (hc : isLiteralChar c = true) :
      Spelled rest ['\'', c, '\'']
        (.token .num ['\'', c, '\''] (some (Int64.ofNat c.toNat)))
  | pair {c : Char} (hc : isOperatorPair c '=' = true) :
      Spelled rest [c, '='] (.token .punctuator [c, '='] none)
  | sign {c : Char} (hc : isPunctuation c = true)
      (hrest : ∀ d ∈ rest.head?, isOperatorPair c d = false ∧ ¬(c = '/' ∧ d = '/')) :
      Spelled rest [c] (.token .punctuator [c] none)

/-- The character can be the first of a lexeme **whatever comes next**, but for literals. -/
def begins (c : Char) : Bool :=
  isBlank c || c == '\n' || isWordStart c || c.isDigit || c == '"' || c == '\'' || isPunctuation c

/-- No lexeme can start the text: a string without an end, a quote without **one character and a quote**
behind it, or a character that starts none, alone or with the next one. -/
inductive Barred : List Char → Cause → Prop
  | string {cs : List Char} (hcs : '"' ∉ cs) : Barred ('"' :: cs) .unterminatedString
  | character {cs : List Char} (hcs : ∀ c rest, cs = c :: '\'' :: rest → isLiteralChar c = false) :
      Barred ('\'' :: cs) .malformedCharacter
  | other {c : Char} {cs : List Char} (hc : begins c = false)
      (hcs : ∀ d ∈ cs.head?, isOperatorPair c d = false) : Barred (c :: cs) (.invalidCharacter c)

/-! ## What is read first -/

section First

variable {c : Char} {cs rest piece : List Char} {l : Lexeme} {cause : Cause}

/-- The characters of operators, alone or before `=`. -/
def operatorChars : List Char :=
  ['!', ':', '+', '-', '*', '/', '(', ')', '<', '>', ';', '=', '\x7b', '\x7d', '[', ']', ',', '&']

theorem mem_operatorChars_of_isPunctuation (h : isPunctuation c = true) : c ∈ operatorChars := by
  rw [isPunctuation, List.contains_iff_mem] at h
  exact List.mem_cons_of_mem _ (List.mem_cons_of_mem _ h)

theorem mem_operatorChars_of_isOperatorPair {d : Char} (h : isOperatorPair c d = true) :
    c ∈ operatorChars := by
  simp only [isOperatorPair, Bool.and_eq_true, Bool.or_eq_true, beq_iff_eq] at h
  obtain ⟨-, (((rfl | rfl) | rfl) | rfl) | rfl⟩ := h <;> decide

/-- A character of operators starts **nothing but an operator** or a comment. -/
theorem first_of_mem_operatorChars (h : c ∈ operatorChars)
    (hcomment : ¬(c = '/' ∧ cs.head? = some '/')) : first c cs = operator c cs := by
  have hplain : operatorChars.all fun d => !(isBlank d || d == '\n' || isWordStart d || d.isDigit ||
      d == '"' || d == '\'') := rfl
  have hc := List.all_eq_true.1 hplain c h
  simp only [Bool.not_eq_true', Bool.or_eq_false_iff, beq_eq_false_iff_ne] at hc
  obtain ⟨⟨⟨⟨⟨hblank, hnewline⟩, hword⟩, hdigit⟩, hstring⟩, hcharacter⟩ := hc
  simp [first, hblank, hnewline, hcomment, hword, hdigit, hstring, hcharacter]

theorem isOperatorPair_headD (h : ∀ d ∈ cs.head?, isOperatorPair c d = false) :
    isOperatorPair c (cs.headD ' ') = false := by
  cases cs with
  | nil => simp [isOperatorPair]
  | cons d cs => exact h d rfl

/-- **What is spelled is read.** -/
theorem Spelled.first (h : l.Spelled rest piece) :
    ∃ c cs, piece = c :: cs ∧ Lexeme.first c (cs ++ rest) = .ok l := by
  cases h with
  | @blank c hc => exact ⟨c, [], rfl, first_of_isBlank hc _⟩
  | newline => exact ⟨'\n', [], rfl, rfl⟩
  | @comment body hbody hrest =>
    have hline : firstLine ('/' :: (body ++ rest)) = '/' :: body := by
      refine congrArg ('/' :: ·) (takeWhile_run (fun c hc => ?_) fun c hc => ?_)
      · exact bne_iff_ne.mpr fun h => hbody (h ▸ hc)
      · rw [hrest c hc]
        rfl
    refine ⟨'/', '/' :: body, rfl, ?_⟩
    simp [Lexeme.first, isBlank, hline]
  | @word c cs hc hcs hrest => exact ⟨c, cs, rfl, first_of_word hc hcs hrest⟩
  | @number c cs hc hcs hrest =>
    refine ⟨c, cs, rfl, ?_⟩
    rw [first_of_isDigit hc, Lexeme.number, takeWhile_run hcs hrest]
  | @string body hbody =>
    have hrun : (body ++ ['"'] ++ rest).takeWhile (· != '"') = body := by
      rw [List.append_assoc]
      refine takeWhile_run (fun c hc => bne_iff_ne.mpr fun h => hbody (h ▸ hc)) ?_
      rintro _ ⟨⟩
      rfl
    refine ⟨'"', body ++ ['"'], rfl, ?_⟩
    change Lexeme.string (body ++ ['"'] ++ rest) = _
    rw [Lexeme.string, if_pos (by simp), hrun]
    rfl
  | @character c hc =>
    refine ⟨'\'', [c, '\''], rfl, ?_⟩
    change Lexeme.character (c :: '\'' :: rest) = _
    rw [Lexeme.character, if_pos hc]
  | @pair c hc =>
    refine ⟨c, ['='], rfl, ?_⟩
    rw [first_of_mem_operatorChars (mem_operatorChars_of_isOperatorPair hc) (by simp), operator]
    exact if_pos hc
  | @sign c hc hrest =>
    have hcomment : ¬(c = '/' ∧ rest.head? = some '/') := fun h => (hrest '/' h.2).2 ⟨h.1, rfl⟩
    refine ⟨c, [], rfl, ?_⟩
    rw [List.nil_append, first_of_mem_operatorChars (mem_operatorChars_of_isPunctuation hc) hcomment,
      operator, if_neg (Bool.eq_false_iff.mp (isOperatorPair_headD fun d hd => (hrest d hd).1)),
      if_pos hc]

/-- **Where a text is barred nothing is read.** -/
theorem Barred.first (h : Barred cs cause) :
    ∃ c cs', cs = c :: cs' ∧ Lexeme.first c cs' = .error cause := by
  cases h with
  | @string cs hcs =>
    refine ⟨'"', cs, rfl, ?_⟩
    change Lexeme.string cs = _
    rw [Lexeme.string, if_neg hcs]
  | @character cs hcs =>
    refine ⟨'\'', cs, rfl, ?_⟩
    change Lexeme.character cs = _
    unfold Lexeme.character
    split
    next c rest =>
      rw [if_neg (Bool.eq_false_iff.mp (hcs c rest rfl))]
    · rfl
  | @other c cs hc hcs =>
    simp only [begins, Bool.or_eq_false_iff, beq_eq_false_iff_ne] at hc
    obtain ⟨⟨⟨⟨⟨⟨hblank, hnewline⟩, hword⟩, hdigit⟩, hstring⟩, hcharacter⟩, hpunctuation⟩ := hc
    have hslash : c ≠ '/' := by
      rintro rfl
      cases hpunctuation
    have hpair := isOperatorPair_headD hcs
    rw [List.headD_eq_head?_getD] at hpair
    refine ⟨c, cs, rfl, ?_⟩
    simp [Lexeme.first, hblank, hnewline, hslash, hword, hdigit, hstring, hcharacter, operator, hpair,
      hpunctuation]

/-- A text starts with a run of such characters, which **stops where it has to**. -/
theorem exists_run (p : Char → Bool) (cs : List Char) :
    ∃ run rest, cs = run ++ rest ∧ (∀ d ∈ run, p d = true) ∧ ∀ d ∈ rest.head?, p d = false := by
  refine ⟨cs.takeWhile p, cs.dropWhile p, List.takeWhile_append_dropWhile.symm,
    List.all_eq_true.mp List.all_takeWhile, fun d hd => ?_⟩
  have hnot := List.head?_dropWhile_not p cs
  rwa [Option.mem_def.mp hd] at hnot

/-- A text starts with that lexeme. -/
def Starts (cs : List Char) (l : Lexeme) : Prop :=
  ∃ piece rest, cs = piece ++ rest ∧ l.Spelled rest piece

theorem starts_comment (cs : List Char) : ∃ l, Starts ('/' :: '/' :: cs) l := by
  obtain ⟨body, rest, rfl, -, hbody, hrest⟩ := exists_firstLine cs
  exact ⟨_, '/' :: '/' :: body, rest, rfl, .comment hbody hrest⟩

theorem starts_word (hc : isWordStart c = true) (cs : List Char) : ∃ l, Starts (c :: cs) l := by
  obtain ⟨run, rest, rfl, hrun, hrest⟩ := exists_run isWordChar cs
  exact ⟨_, c :: run, rest, rfl, .word hc hrun hrest⟩

theorem starts_number (hc : c.isDigit = true) (cs : List Char) : ∃ l, Starts (c :: cs) l := by
  obtain ⟨run, rest, rfl, hrun, hrest⟩ := exists_run Char.isDigit cs
  exact ⟨_, c :: run, rest, rfl, .number hc hrun hrest⟩

theorem starts_string (h : '"' ∈ cs) : ∃ l, Starts ('"' :: cs) l := by
  obtain ⟨body, rest, rfl, hbody⟩ := List.eq_append_cons_of_mem h
  exact ⟨_, '"' :: (body ++ ['"']), rest, by simp, .string hbody⟩

theorem starts_pair {d : Char} (h : isOperatorPair c d = true) (cs : List Char) :
    ∃ l, Starts (c :: d :: cs) l := by
  obtain rfl : d = '=' := by
    rw [isOperatorPair, Bool.and_eq_true, beq_iff_eq] at h
    exact h.1
  exact ⟨_, [c, '='], cs, rfl, .pair h⟩

/-- A text that is not empty **starts with a lexeme or is barred**. -/
theorem starts_or_barred (c : Char) (cs : List Char) :
    (∃ l, Starts (c :: cs) l) ∨ ∃ cause, Barred (c :: cs) cause := by
  by_cases hpair : ∃ d ∈ cs.head?, isOperatorPair c d = true
  · obtain ⟨d, hd, hpair⟩ := hpair
    obtain ⟨cs, rfl⟩ := List.head?_eq_some_iff.mp hd
    exact .inl (starts_pair hpair cs)
  have hpair : ∀ d ∈ cs.head?, isOperatorPair c d = false := fun d hd =>
    Bool.eq_false_iff.mpr fun h => hpair ⟨d, hd, h⟩
  cases hbegins : begins c with
  | false => exact .inr ⟨_, .other hbegins hpair⟩
  | true =>
  simp only [begins, Bool.or_eq_true, beq_iff_eq] at hbegins
  rcases hbegins with (((((hc | rfl) | hc) | hc) | rfl) | rfl) | hc
  · exact .inl ⟨_, [c], cs, rfl, .blank hc⟩
  · exact .inl ⟨_, ['\n'], cs, rfl, .newline⟩
  · exact .inl (starts_word hc cs)
  · exact .inl (starts_number hc cs)
  · by_cases hmem : '"' ∈ cs
    · exact .inl (starts_string hmem)
    · exact .inr ⟨_, .string hmem⟩
  · by_cases hliteral : ∃ d rest, cs = d :: '\'' :: rest ∧ isLiteralChar d = true
    · obtain ⟨d, rest, rfl, hd⟩ := hliteral
      exact .inl ⟨_, ['\'', d, '\''], rest, rfl, .character hd⟩
    · exact .inr ⟨_, .character fun d rest heq =>
        Bool.eq_false_iff.mpr fun hd => hliteral ⟨d, rest, heq, hd⟩⟩
  · by_cases hcomment : c = '/' ∧ cs.head? = some '/'
    · obtain ⟨rfl, hslash⟩ := hcomment
      obtain ⟨cs, rfl⟩ := List.head?_eq_some_iff.mp hslash
      exact .inl (starts_comment cs)
    · refine .inl ⟨_, [c], cs, rfl, .sign hc fun d hd => ⟨hpair d hd, ?_⟩⟩
      rintro ⟨rfl, rfl⟩
      exact hcomment ⟨rfl, hd⟩

/-- A text that starts with a lexeme **is not barred**. -/
theorem Barred.not_starts (h : Barred cs cause) (l : Lexeme) : ¬Starts cs l := by
  rintro ⟨piece, rest, rfl, hl⟩
  obtain ⟨c, cs, rfl, hfirst⟩ := hl.first
  obtain ⟨_, _, heq, herror⟩ := h.first
  obtain ⟨rfl, rfl⟩ := List.cons.inj heq
  cases hfirst.symm.trans herror

/-- A lexeme stays one where **nothing else can come next**. -/
theorem Spelled.mono {rest' : List Char} (h : l.Spelled rest piece)
    (hrest : ∀ d ∈ rest'.head?, d ∈ rest.head?) : l.Spelled rest' piece := by
  cases h with
  | blank hc => exact .blank hc
  | newline => exact .newline
  | comment hbody h => exact .comment hbody fun d hd => h d (hrest d hd)
  | word hc hcs h => exact .word hc hcs fun d hd => h d (hrest d hd)
  | number hc hcs h => exact .number hc hcs fun d hd => h d (hrest d hd)
  | string hbody => exact .string hbody
  | character hc => exact .character hc
  | pair hc => exact .pair hc
  | sign hc h => exact .sign hc fun d hd => h d (hrest d hd)

theorem Spelled.ne_nil (h : l.Spelled rest piece) : piece ≠ [] := by
  cases h <;> exact List.cons_ne_nil _ _

end First

/-! ## What a lexeme gives -/

/-- The bytes that a lexeme takes. -/
def size : Lexeme → Nat
  | .blank | .newline => 1
  | .comment text | .token _ text _ => byteLength text

/-- The tokens that a lexeme at `loc` gives, where a statement is `pending` or not. -/
def tokens (pending : Bool) (loc : Nat) : Lexeme → List Token
  | .blank | .comment _ => []
  | .newline => if pending then [.lineEnd loc] else []
  | .token kind text value => [.ofText kind text value loc]

/-- Whether a statement is pending behind a lexeme. -/
def pends (pending : Bool) : Lexeme → Bool
  | .blank | .comment _ => pending
  | .newline => false
  | .token kind text value => (Token.ofText kind text value 0).closesLine

section Scan

variable {rest piece : List Char} {l : Lexeme}

theorem Spelled.byteLength_eq (h : l.Spelled rest piece) : byteLength piece = l.size := by
  cases h with
  | @blank c hc =>
    simp only [isBlank, Bool.or_eq_true, beq_iff_eq] at hc
    rcases hc with (rfl | rfl) | rfl <;> rfl
  | _ => rfl

theorem Spelled.comment_eq {text : List Char} (h : (Lexeme.comment text).Spelled rest piece) :
    text = piece := by
  cases h
  rfl

theorem Spelled.token_eq {kind : Token.Kind} {text : List Char} {value : Option Int64}
    (h : (Lexeme.token kind text value).Spelled rest piece) : text = piece := by
  cases h <;> rfl

/-- The scan of a lexeme **gives its tokens**, and goes on behind it. -/
theorem Spelled.scan (h : l.Spelled rest piece) (pending : Bool) (loc : Nat) :
    scan 0 pending loc (piece ++ rest) =
      (l.tokens pending loc ++ ·) <$> scan 0 (l.pends pending) (loc + byteLength piece) rest := by
  have hnone (x : Except Diagnostic (List Token)) : ([] ++ ·) <$> x = x := by cases x <;> rfl
  obtain ⟨c, cs, rfl, hfirst⟩ := h.first
  rw [List.cons_append, StackCompiler.scan, hfirst]
  cases l with
  | blank =>
    cases h
    exact (hnone _).symm
  | newline =>
    cases h
    cases pending with
    | false => exact (map_eq_pure_bind _ _).symm
    | true => exact (map_eq_pure_bind _ _).symm
  | comment text =>
    obtain rfl := h.comment_eq
    dsimp only
    rw [scan_covered]
    exact (hnone _).symm
  | token kind text value =>
    obtain rfl := h.token_eq
    dsimp only
    rw [scan_covered]
    exact (map_eq_pure_bind _ _).symm

end Scan

end Lexeme

/-! ## Lexemes one behind the other -/

/-- The text is those lexemes, **one behind the other**, where `rest` stands behind it. -/
inductive Lexemes (rest : List Char) : List Char → List Lexeme → Prop
  | nil : Lexemes rest [] []
  | cons {piece cs : List Char} {l : Lexeme} {ls : List Lexeme} (h : l.Spelled (cs ++ rest) piece)
      (hs : Lexemes rest cs ls) : Lexemes rest (piece ++ cs) (l :: ls)

/-- The tokens of lexemes from `loc` on. -/
def tokensFrom (pending : Bool) (loc : Nat) : List Lexeme → List Token
  | [] => []
  | l :: ls => l.tokens pending loc ++ tokensFrom (l.pends pending) (loc + l.size) ls

/-- Whether a statement is pending behind lexemes. -/
def pendsAfter (pending : Bool) (ls : List Lexeme) : Bool :=
  ls.foldl Lexeme.pends pending

namespace Lexemes

variable {rest before cs source : List Char} {ls ls' : List Lexeme} {cause : Cause}

/-- **A scan is told lexeme by lexeme.** -/
theorem scan_eq (h : Lexemes rest before ls) (pending : Bool) (loc : Nat) :
    scan 0 pending loc (before ++ rest) = (tokensFrom pending loc ls ++ ·) <$>
      scan 0 (pendsAfter pending ls) (loc + byteLength before) rest := by
  induction h generalizing pending loc with
  | nil =>
    rw [List.nil_append]
    exact (id_map' _).symm
  | @cons piece cs l ls h _ ih =>
    rw [List.append_assoc, h.scan, ih, Functor.map_map, h.byteLength_eq, byteLength_append,
      h.byteLength_eq, ← Nat.add_assoc]
    simp only [tokensFrom, List.append_assoc]
    rfl

/-- Lexemes **behind lexemes**. -/
theorem append (h : Lexemes (cs ++ rest) before ls) (h' : Lexemes rest cs ls') :
    Lexemes rest (before ++ cs) (ls ++ ls') := by
  induction h with
  | nil => exact h'
  | cons h _ ih =>
    rw [List.append_assoc, List.cons_append]
    exact .cons (by rwa [List.append_assoc]) ih

/-- Complete lexemes are complete **where the text ends** behind them. -/
theorem truncated (h : Lexemes rest before ls) : Lexemes [] before ls := by
  induction h with
  | nil => exact .nil
  | @cons piece cs l ls h _ ih =>
    refine .cons (h.mono fun d hd => ?_) ih
    rw [List.append_nil] at hd
    rw [List.head?_append, Option.mem_def.mp hd]
    rfl

/-- A text that is lexemes up to its end **has tokens**. -/
theorem tokenize_eq (h : Lexemes rest before ls) :
    tokenize before = .ok (tokensFrom false 0 ls ++ [.sourceEnd (byteLength before)]) := by
  have hscan := h.truncated.scan_eq false 0
  rw [List.append_nil, Nat.zero_add] at hscan
  exact hscan

/-- The scan is stopped where the text is barred **behind complete lexemes**. -/
theorem tokenize_error (h : Lexemes rest before ls) (hbarred : Lexeme.Barred rest cause) :
    tokenize (before ++ rest) = .error ⟨cause, byteLength before⟩ := by
  obtain ⟨c, cs, rfl, hfirst⟩ := hbarred.first
  rw [tokenize, h.scan_eq, Nat.zero_add, scan, hfirst]
  rfl

end Lexemes

/-- **Every text is lexemes up to its end**, or to where it is barred. -/
theorem exists_lexemes (source : List Char) :
    ∃ before rest ls, source = before ++ rest ∧ Lexemes rest before ls ∧
      (rest = [] ∨ ∃ cause, Lexeme.Barred rest cause) := by
  induction hn : source.length using Nat.strong_induction_on generalizing source with
  | _ n ih =>
  subst hn
  cases source with
  | nil => exact ⟨[], [], [], rfl, .nil, .inl rfl⟩
  | cons c cs =>
  rcases Lexeme.starts_or_barred c cs with ⟨l, piece, tail, heq, hl⟩ | hbarred
  · rw [heq]
    have hshorter : tail.length < (c :: cs).length := by
      rw [heq, List.length_append]
      exact Nat.lt_add_of_pos_left (List.length_pos_of_ne_nil hl.ne_nil)
    obtain ⟨before, rest, ls, rfl, hls, hrest⟩ := ih _ hshorter tail rfl
    exact ⟨piece ++ before, rest, l :: ls, (List.append_assoc _ _ _).symm, .cons hl hls, hrest⟩
  · exact ⟨[], c :: cs, [], rfl, .nil, .inr hbarred⟩

/-- A source that has tokens **is lexemes up to its end**, and they give its tokens. -/
theorem exists_lexemes_of_tokenize {source : List Char} {tokens : List Token}
    (h : tokenize source = .ok tokens) :
    ∃ ls, Lexemes [] source ls ∧
      tokens = tokensFrom false 0 ls ++ [.sourceEnd (byteLength source)] := by
  obtain ⟨before, rest, ls, rfl, hls, rfl | ⟨cause, hbarred⟩⟩ := exists_lexemes source
  · rw [List.append_nil] at h ⊢
    exact ⟨ls, hls, Except.ok.inj (h.symm.trans hls.tokenize_eq)⟩
  · cases (hls.tokenize_error hbarred).symm.trans h

end StackCompiler
