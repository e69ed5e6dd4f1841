import StackCompiler.Proofs.Token.Lexemes
import StackCompiler.Proofs.Token.Terminators

/-!
# Proofs/Token/Longest — every token is as long as it can be

Names of one kind start with names of another one, and operators with operators, so where a token ends
decides what it is.  A lexeme with what stands behind it is the start of **no longer lexeme**
(`Spelled.longest`): a longer one would be read at the same place.  And its text alone, cut off from
the source, is read as the same token, so its kind and value hang on nothing else.
-/

namespace StackCompiler

open Text

namespace Lexeme

section Longest

variable {rest rest' piece piece' : List Char} {l l' : Lexeme}

/-- A lexeme stays one **where the text ends** behind it. -/
theorem Spelled.alone (h : l.Spelled rest piece) : l.Spelled [] piece :=
  h.mono nofun

/-- One text is **one lexeme**, whatever stands behind it. -/
theorem Spelled.unique (h : l.Spelled rest piece) (h' : l'.Spelled rest' piece) : l = l' := by
  obtain ⟨c, cs, rfl, hfirst⟩ := h.alone.first
  obtain ⟨_, _, heq, hfirst'⟩ := h'.alone.first
  obtain ⟨rfl, rfl⟩ := List.cons.inj heq
  exact Except.ok.inj (hfirst.symm.trans hfirst')

/-- **No longer lexeme stands where a lexeme stands**, whatever would be behind it. -/
theorem Spelled.longest (h : l.Spelled rest piece) (h' : l'.Spelled rest' piece')
    (hpiece : piece' <+: piece ++ rest) : piece'.length ≤ piece.length := by
  by_contra hlonger
  obtain ⟨more, rfl⟩ : piece <+: piece' :=
    List.prefix_of_prefix_length_le (List.prefix_append piece rest) hpiece (by omega)
  obtain ⟨d, ds, rfl⟩ : ∃ d ds, more = d :: ds :=
    List.exists_cons_of_ne_nil fun hnil => hlonger (by simp [hnil])
  have hmore : d :: ds <+: rest := (List.prefix_append_right_inj piece).mp hpiece
  -- both are read from the longer text: one as all of it, the other before the rest of it
  have hbefore : l.Spelled (d :: ds) piece := h.mono fun e he => by
    obtain ⟨tail, rfl⟩ := hmore
    exact he
  obtain ⟨c, cs, rfl, hfirst⟩ := hbefore.first
  obtain ⟨_, _, heq, hfirst'⟩ := h'.alone.first
  obtain ⟨rfl, rfl⟩ := List.cons.inj heq
  rw [List.append_nil] at hfirst'
  obtain rfl := Except.ok.inj (hfirst.symm.trans hfirst')
  have hsize := h'.byteLength_eq.trans h.byteLength_eq.symm
  rw [byteLength_append, byteLength_cons d] at hsize
  have hpos := d.utf8Size_pos
  omega

/-- What is read first is **spelled there**. -/
theorem starts_of_first {c : Char} {cs : List Char} (h : first c cs = .ok l) : Starts (c :: cs) l := by
  rcases starts_or_barred c cs with ⟨l', piece, rest, heq, hl'⟩ | ⟨cause, hbarred⟩
  · obtain ⟨_, _, rfl, hfirst⟩ := hl'.first
    obtain ⟨rfl, rfl⟩ := List.cons.inj heq
    obtain rfl := Except.ok.inj (h.symm.trans hfirst)
    exact ⟨_, rest, heq, hl'⟩
  · obtain ⟨_, _, heq, hfirst⟩ := hbarred.first
    obtain ⟨rfl, rfl⟩ := List.cons.inj heq
    cases h.symm.trans hfirst

end Longest

/-! ## Words -/

/-- The kind of a word, told by the lists that it is in: **in one list at most**, else it is a name. -/
structure KindOfWord (word : String) (kind : Token.Kind) : Prop where
  stdlib : kind = .stdlib ↔ word ∈ stdlibNames
  typeName : kind = .typeName ↔ word ∈ typeNames
  keyword : kind = .punctuator ↔ word ∈ keywords
  ident : kind = .ident ↔ word ∉ stdlibNames ∧ word ∉ typeNames ∧ word ∉ keywords

theorem kindOfWord_wordKind (word : String) : KindOfWord word (wordKind word) := by
  have hstdlib : ∀ word ∈ stdlibNames, word ∉ typeNames ∧ word ∉ keywords := by decide
  have htypeName : ∀ word ∈ typeNames, word ∉ keywords := by decide
  unfold wordKind
  split
  next h => exact ⟨by simp [h], by simp [hstdlib word h], by simp [hstdlib word h], by simp [h]⟩
  next hnot =>
  split
  next h => exact ⟨by simp [hnot], by simp [h], by simp [htypeName word h], by simp [h]⟩
  next hnot' =>
  split
  next h => exact ⟨by simp [hnot], by simp [hnot'], by simp [h], by simp [h]⟩
  next h => exact ⟨by simp [hnot], by simp [hnot'], by simp [h], by simp [hnot, hnot', h]⟩

end Lexeme

/-! ## Tokens -/

/-- The token is the longest match of what stands from it on, where `rest` stands behind it. -/
structure Token.LongestBefore (rest : List Char) (t : Token) : Prop where
  /-- No longer text from the token on is a lexeme. -/
  longest : ∀ l rest' piece, Lexeme.Spelled rest' piece l → piece <+: t.text.toList ++ rest →
    piece.length ≤ t.text.toList.length
  /-- The text alone is cut into the same token. -/
  alone : tokenize t.text.toList = .ok [{ t with loc := 0 }, .sourceEnd t.len]
  word : (∃ c ∈ t.text.toList.head?, Lexeme.isWordStart c = true) →
    (∀ c ∈ t.text.toList, Lexeme.isWordChar c = true) ∧
      (∀ d ∈ rest.head?, Lexeme.isWordChar d = false) ∧ Lexeme.KindOfWord t.text t.kind
  number : t.kind = .num → t.isCharLiteral = false →
    t.text ≠ "" ∧ (∀ c ∈ t.text.toList, c.isDigit = true) ∧ ∀ d ∈ rest.head?, d.isDigit = false
  sign : t.text ∈ ["=", "<", ">"] → rest.head? ≠ some '='
  slash : t.text = "/" → rest.head? ≠ some '/'

section Spelled

open Lexeme

variable {rest text : List Char} {kind : Token.Kind} {value : Option Int64}

/-- A token alone in a text **is its only token**. -/
theorem Lexeme.Spelled.tokenize_alone (h : (Lexeme.token kind text value).Spelled rest text) :
    tokenize text = .ok [.ofText kind text value 0, .sourceEnd (byteLength text)] := by
  have hlexemes : Lexemes [] (text ++ []) [.token kind text value] := .cons h.alone .nil
  have htokens := hlexemes.tokenize_eq
  rwa [List.append_nil] at htokens

/-- A token that starts as a word is **the whole run**, and its kind is that of the word. -/
theorem Lexeme.Spelled.word_of_isWordStart (h : (Lexeme.token kind text value).Spelled rest text)
    (hstart : ∃ c ∈ text.head?, isWordStart c = true) :
    (∀ c ∈ text, isWordChar c = true) ∧ (∀ d ∈ rest.head?, isWordChar d = false) ∧
      KindOfWord (String.ofList text) kind := by
  obtain ⟨c, cs, rfl, hfirst⟩ := h.first
  obtain ⟨_, ⟨⟩, hstart⟩ := hstart
  obtain ⟨run, behind, hruns, hrun, hbehind⟩ := exists_run isWordChar (cs ++ rest)
  rw [hruns, first_of_word hstart hrun hbehind] at hfirst
  obtain ⟨rfl, htext, -⟩ := Lexeme.token.inj (Except.ok.inj hfirst)
  obtain rfl : run = cs := (List.cons.inj htext).2
  obtain rfl : rest = behind := List.append_cancel_left hruns
  have hc : isWordChar c = true := by
    simp only [isWordStart, isWordChar, Char.isAlphanum, Bool.or_eq_true] at hstart ⊢
    exact hstart.imp_left .inl
  exact ⟨List.forall_mem_cons.mpr ⟨hc, hrun⟩, hbehind, kindOfWord_wordKind _⟩

theorem Lexeme.wordKind_ne_num (word : String) : wordKind word ≠ .num := by
  unfold wordKind
  split_ifs <;> exact nofun

/-- A number that is no character literal is **the whole run of digits**. -/
theorem Lexeme.Spelled.digits_of_num (h : (Lexeme.token .num text value).Spelled rest text)
    (hhead : text.head? ≠ some '\'') :
    text ≠ [] ∧ (∀ c ∈ text, c.isDigit = true) ∧ ∀ d ∈ rest.head?, d.isDigit = false := by
  generalize htoken : Lexeme.token .num text value = l at h
  cases h with
  | word => exact absurd (Lexeme.token.inj htoken).1.symm (wordKind_ne_num _)
  | number hc hcs hrest =>
    exact ⟨List.cons_ne_nil _ _, List.forall_mem_cons.mpr ⟨hc, hcs⟩, hrest⟩
  | character => exact absurd rfl hhead
  | blank | newline | comment | string | pair | sign => cases htoken

/-- A sign that would make **a longer one** with `=` does not stand before it. -/
theorem Lexeme.Spelled.head?_ne_of_pair {c : Char} (h : (Lexeme.token kind [c] value).Spelled rest [c])
    (hc : isOperatorPair c '=' = true) : rest.head? ≠ some '=' := by
  intro hhead
  obtain ⟨tail, rfl⟩ := List.head?_eq_some_iff.mp hhead
  have hpair : Spelled tail [c, '='] (.token .punctuator [c, '='] none) := .pair hc
  have hlength := h.longest hpair ⟨tail, rfl⟩
  exact absurd hlength (by simp)

/-- A slash that is a token does not stand **before another one**. -/
theorem Lexeme.Spelled.head?_ne_of_slash (h : (Lexeme.token kind ['/'] value).Spelled rest ['/']) :
    rest.head? ≠ some '/' := by
  intro hhead
  obtain ⟨tail, rfl⟩ := List.head?_eq_some_iff.mp hhead
  obtain ⟨body, behind, rfl, -, hbody, hbehind⟩ := exists_firstLine tail
  have hlength := h.longest (.comment hbody hbehind) ⟨behind, rfl⟩
  exact absurd hlength (by simp)

/-- **A lexeme that is a token is the longest match there.** -/
theorem Lexeme.Spelled.longestBefore (h : (Lexeme.token kind text value).Spelled rest text) (loc : Nat) :
    (Token.ofText kind text value loc).LongestBefore rest := by
  have htext : (Token.ofText kind text value loc).text.toList = text := String.toList_ofList
  have hone {sign : String} {c : Char} (hsign : sign.toList = [c]) (hc : String.ofList text = sign) :
      text = [c] := by
    rw [← hsign, ← hc, String.toList_ofList]
  constructor
  case longest =>
    rw [htext]
    exact fun l rest' piece hl hpiece => h.longest hl hpiece
  case alone =>
    rw [htext]
    exact h.tokenize_alone
  case word =>
    rw [htext]
    exact h.word_of_isWordStart
  case number =>
    rintro rfl hliteral
    have hhead : text.head? ≠ some '\'' := by
      simpa [Token.isCharLiteral, Token.ofText] using hliteral
    obtain ⟨hne, hdigits, hrest⟩ := h.digits_of_num hhead
    rw [htext]
    exact ⟨fun hempty => hne (htext.symm.trans (congrArg String.toList hempty)), hdigits, hrest⟩
  case sign =>
    intro hmem
    simp only [List.mem_cons, List.not_mem_nil, or_false] at hmem
    rcases hmem with hsign | hsign | hsign
    · obtain rfl := hone (c := '=') rfl hsign
      exact h.head?_ne_of_pair rfl
    · obtain rfl := hone (c := '<') rfl hsign
      exact h.head?_ne_of_pair rfl
    · obtain rfl := hone (c := '>') rfl hsign
      exact h.head?_ne_of_pair rfl
  case slash =>
    intro hslash
    obtain rfl := hone (c := '/') rfl hslash
    exact h.head?_ne_of_slash

end Spelled

/-! ## Sources -/

/-- The tokens of a source are **longest matches, each of the kind that its text has**.  Those that take
none of the source mark the ends of lines and of the source. -/
structure LongestMatches (source : List Char) (tokens : List Token) : Prop where
  written : ∀ t ∈ tokens, t.IsWritten → ∃ front rest,
    source = front ++ (t.text.toList ++ rest) ∧ t.loc = byteLength front ∧ t.LongestBefore rest
  marks : ∀ t ∈ tokens, ¬t.IsWritten → t = .lineEnd t.loc ∨ t = .sourceEnd (byteLength source)
  /-- In all sources one text has one kind and one value. -/
  kinds : ∀ source' tokens', tokenize source' = .ok tokens' → ∀ t ∈ tokens, ∀ t' ∈ tokens',
    t.text = t'.text → t.kind = t'.kind ∧ t.value = t'.value

section Sources

variable {source : List Char} {tokens : List Token}

theorem exists_longestBefore (h : tokenize source = .ok tokens) {t : Token} (ht : t ∈ tokens)
    (hwritten : t.IsWritten) : ∃ front rest, source = front ++ (t.text.toList ++ rest) ∧
      t.loc = byteLength front ∧ t.LongestBefore rest := by
  cases readFrom_of_tokenize h t ht with
  | @lexeme before c cs kind text value hsource hread =>
    obtain ⟨piece, rest, heq, hspelled⟩ := Lexeme.starts_of_first hread
    obtain rfl := hspelled.token_eq
    refine ⟨before, rest, ?_, rfl, hspelled.longestBefore _⟩
    rw [hsource, heq, String.toList_ofList]
  | lineEnd | sourceEnd => exact absurd rfl hwritten

/-- What the text of a token is cut into **starts with a token of its kind and value**. -/
theorem exists_first_of_text (h : tokenize source = .ok tokens) {t : Token} (ht : t ∈ tokens) :
    ∃ first rest, tokenize t.text.toList = .ok (first :: rest) ∧ first.kind = t.kind ∧
      first.value = t.value := by
  by_cases hwritten : t.IsWritten
  · obtain ⟨front, rest, -, -, hlongest⟩ := exists_longestBefore h ht hwritten
    exact ⟨_, _, hlongest.alone, rfl, rfl⟩
  · rcases marks_of_tokenize h t ht (not_not.mp hwritten) with hmark | hmark
    · have hspelled : (Lexeme.token .punctuator ";".toList none).Spelled [] ";".toList :=
        .sign rfl nofun
      rw [hmark]
      exact ⟨_, _, hspelled.tokenize_alone, rfl, rfl⟩
    · rw [hmark]
      exact ⟨.sourceEnd 0, [], rfl, rfl, rfl⟩

/-- **Every token of a source is a longest match, and its text says what it is.** -/
theorem longestMatches_of_tokenize (h : tokenize source = .ok tokens) :
    LongestMatches source tokens := by
  refine ⟨fun t ht hwritten => exists_longestBefore h ht hwritten, fun t ht hlen =>
    marks_of_tokenize h t ht (not_not.mp hlen), ?_⟩
  intro source' tokens' h' t ht t' ht' htext
  obtain ⟨first, rest, hfirst, hkind, hvalue⟩ := exists_first_of_text h ht
  obtain ⟨first', rest', hfirst', hkind', hvalue'⟩ := exists_first_of_text h' ht'
  rw [htext] at hfirst
  obtain ⟨rfl, -⟩ := List.cons.inj (Except.ok.inj (hfirst.symm.trans hfirst'))
  exact ⟨hkind.symm.trans hkind', hvalue.symm.trans hvalue'⟩

end Sources

/-- Names that start with names of types, keywords and library calls, signs with and without `=` behind
them, slashes apart and together, and numbers **up to the word behind them**. -/
def textOfNeighbours : String :=
  "int int8 integer int64x print println printer func format _1 a1:=12<=3==4/ /5//6/\n'/'/7x = >="

theorem longestMatches_of_neighbours :
    ∃ tokens, tokenize textOfNeighbours.toList = .ok tokens ∧
      tokens.map (fun t => (t.text, t.kind)) = [("int", .typeName), ("int8", .typeName),
        ("integer", .ident), ("int64x", .ident), ("print", .stdlib), ("println", .stdlib),
        ("printer", .ident), ("func", .punctuator), ("format", .ident), ("_1", .ident),
        ("a1", .ident), (":=", .punctuator), ("12", .num), ("<=", .punctuator), ("3", .num),
        ("==", .punctuator), ("4", .num), ("/", .punctuator), ("/", .punctuator), ("5", .num),
        (";", .punctuator), ("'/'", .num), ("/", .punctuator), ("7", .num), ("x", .ident),
        ("=", .punctuator), (">=", .punctuator), ("", .eof)] ∧
      LongestMatches textOfNeighbours.toList tokens := by
  obtain ⟨tokens, htokens, htexts⟩ := exists_ok_of_text (s := textOfNeighbours) rfl (f := tokenize)
    (P := fun _ tokens => tokens.map (fun t => (t.text, t.kind)) == [("int", .typeName),
      ("int8", .typeName), ("integer", .ident), ("int64x", .ident), ("print", .stdlib),
      ("println", .stdlib), ("printer", .ident), ("func", .punctuator), ("format", .ident),
      ("_1", .ident), ("a1", .ident), (":=", .punctuator), ("12", .num), ("<=", .punctuator),
      ("3", .num), ("==", .punctuator), ("4", .num), ("/", .punctuator), ("/", .punctuator),
      ("5", .num), (";", .punctuator), ("'/'", .num), ("/", .punctuator), ("7", .num),
      ("x", .ident), ("=", .punctuator), (">=", .punctuator), ("", .eof)]) (by decide +kernel)
  exact ⟨tokens, htokens, beq_iff_eq.mp htexts, longestMatches_of_tokenize htokens⟩

end StackCompiler
