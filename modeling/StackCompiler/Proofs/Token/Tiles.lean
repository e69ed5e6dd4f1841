import StackCompiler.Proofs.Token.Formula
import StackCompiler.Proofs.Token.Places

/-!
# Proofs/Token/Tiles — a source is tokens and the gaps between them

A scan is followed lexeme by lexeme (`Scanned`).  What it passes over between two tokens is a `Gap`:
blanks, newlines, and comments up to the end of their line.  So a source is a gap, a token, a gap,
and so on to its end (`Tiles`): **nothing is left out, and nothing is read twice**.
-/

namespace StackCompiler

open Text

/-! ## Lexemes that are no tokens -/

namespace Lexeme

variable {c : Char} {cs : List Char}

theorem token_of_string {l : Lexeme} (h : string cs = .ok l) :
    ∃ kind text value, l = .token kind text value := by
  unfold string at h
  split at h
  · cases h
    exact ⟨_, _, _, rfl⟩
  · cases h

theorem token_of_character {l : Lexeme} (h : character cs = .ok l) :
    ∃ kind text value, l = .token kind text value := by
  unfold character at h
  split at h
  · split at h
    · cases h
      exact ⟨_, _, _, rfl⟩
    · cases h
  · cases h

theorem token_of_operator {l : Lexeme} (h : operator c cs = .ok l) :
    ∃ kind text value, l = .token kind text value := by
  unfold operator at h
  split at h
  · cases h
    exact ⟨_, _, _, rfl⟩
  split at h
  · cases h
    exact ⟨_, _, _, rfl⟩
  · cases h

/-- A lexeme is a blank, a newline, a comment or a token, each with **the characters it starts at**. -/
theorem eq_of_first {l : Lexeme} (h : first c cs = .ok l) :
    isBlank c = true ∧ l = .blank ∨ c = '\n' ∧ l = .newline ∨
    (∃ rest, c = '/' ∧ cs = '/' :: rest ∧ l = .comment (c :: firstLine cs)) ∨
    ∃ kind text value, l = .token kind text value := by
  unfold first at h
  split at h
  next hc => exact .inl ⟨hc, (Except.ok.inj h).symm⟩
  split at h
  next hc => exact .inr (.inl ⟨hc, (Except.ok.inj h).symm⟩)
  split at h
  next hc =>
    obtain ⟨rest, hrest⟩ := List.head?_eq_some_iff.mp hc.2
    exact .inr (.inr (.inl ⟨rest, hc.1, hrest, (Except.ok.inj h).symm⟩))
  refine .inr (.inr (.inr ?_))
  split at h
  · exact ⟨_, _, _, (Except.ok.inj h).symm⟩
  split at h
  · exact ⟨_, _, _, (Except.ok.inj h).symm⟩
  split at h
  · exact token_of_string h
  split at h
  · exact token_of_character h
  · exact token_of_operator h

/-- A token takes **at least one character**. -/
theorem ne_nil_of_first {kind : Token.Kind} {text : List Char} {value : Option Int64}
    (h : first c cs = .ok (.token kind text value)) : text ≠ [] := by
  rcases reader_of_first h with ⟨-, h⟩ | h | ⟨-, h⟩ | ⟨-, h⟩ | h
  · cases h
    exact List.cons_ne_nil _ _
  · cases h
    exact List.cons_ne_nil _ _
  · obtain ⟨-, -, rfl⟩ := string_eq_ok h
    exact List.cons_ne_nil _ _
  · obtain ⟨-, d, rest, -, rfl⟩ := character_eq_ok h
    exact List.cons_ne_nil _ _
  · rcases (operator_eq_ok h).2 with rfl | ⟨rfl, -⟩ <;> exact List.cons_ne_nil _ _

/-- No word is the end of the source. -/
theorem wordKind_ne (word : String) : wordKind word ≠ .eof := by
  unfold wordKind
  split
  · exact nofun
  split
  · exact nofun
  split <;> exact nofun

/-- The end of the source is **read from no text**. -/
theorem kind_ne_of_first {kind : Token.Kind} {text : List Char} {value : Option Int64}
    (h : first c cs = .ok (.token kind text value)) : kind ≠ .eof := by
  rcases reader_of_first h with ⟨-, h⟩ | h | ⟨-, h⟩ | ⟨-, h⟩ | h
  · cases h
    exact wordKind_ne _
  · cases h
    exact nofun
  · rw [(string_eq_ok h).2.1]
    exact nofun
  · rw [(character_eq_ok h).1]
    exact nofun
  · rw [(operator_eq_ok h).1]
    exact nofun

end Lexeme

/-! ## A scan, lexeme by lexeme -/

/-- From `loc` on the text is cut into those tokens; `pending` says whether a statement is open. -/
inductive Scanned : Bool → Nat → List Char → List Token → Prop
  | finish {pending : Bool} {loc : Nat} : Scanned pending loc [] [.sourceEnd loc]
  | blank {pending : Bool} {loc : Nat} {c : Char} {cs : List Char} {ts : List Token}
      (hc : Lexeme.isBlank c = true) (h : Scanned pending (loc + byteLength [c]) cs ts) :
      Scanned pending loc ([c] ++ cs) ts
  | newline {pending : Bool} {loc : Nat} {cs : List Char} {ts : List Token}
      (h : Scanned false (loc + byteLength ['\n']) cs ts) :
      Scanned pending loc (['\n'] ++ cs) ((if pending then [.lineEnd loc] else []) ++ ts)
  | comment {pending : Bool} {loc : Nat} {body cs : List Char} {ts : List Token}
      (hbody : '\n' ∉ body) (hcs : ∀ c ∈ cs.head?, c = '\n')
      (h : Scanned pending (loc + byteLength ('/' :: '/' :: body)) cs ts) :
      Scanned pending loc ('/' :: '/' :: body ++ cs) ts
  | token {pending : Bool} {loc : Nat} {kind : Token.Kind} {c : Char} {text : List Char}
      {value : Option Int64} {cs : List Char} {ts : List Token}
      (hfirst : Lexeme.first c (text ++ cs) = .ok (.token kind (c :: text) value))
      (h : Scanned (Token.ofText kind (c :: text) value loc).closesLine
        (loc + byteLength (c :: text)) cs ts) :
      Scanned pending loc (c :: text ++ cs) (.ofText kind (c :: text) value loc :: ts)

/-- The first line of a text ends **before a newline** or with the text. -/
theorem exists_firstLine (cs : List Char) :
    ∃ body rest, cs = body ++ rest ∧ firstLine cs = body ∧ '\n' ∉ body ∧
      ∀ c ∈ rest.head?, c = '\n' := by
  refine ⟨firstLine cs, cs.dropWhile (· != '\n'), List.takeWhile_append_dropWhile.symm, rfl,
    fun h => ?_, fun c hc => ?_⟩
  · have hne := List.all_eq_true.mp (List.all_takeWhile (p := (· != '\n')) (l := cs)) _ h
    exact absurd hne (by decide)
  · have hnot := List.head?_dropWhile_not (· != '\n') cs
    rw [Option.mem_def.mp hc] at hnot
    simpa using hnot

/-- The characters of a lexeme behind its first one are **passed over**. -/
theorem scan_covered (c : Char) (text rest : List Char) (pending : Bool) (loc : Nat) :
    scan ((c :: text).length - 1) pending (loc + c.utf8Size) (text ++ rest) =
      scan 0 pending (loc + byteLength (c :: text)) rest := by
  rw [List.length_cons, Nat.add_sub_cancel, scan_append, byteLength_cons, Nat.add_assoc]

/-- **A scan that succeeds is one lexeme after the other.** -/
theorem yields_scanned (pending : Bool) (loc : Nat) (cs : List Char) :
    Yields (scan 0 pending loc cs) (Scanned pending loc cs) := by
  induction hn : cs.length using Nat.strong_induction_on generalizing pending loc cs with
  | _ n ih =>
  subst hn
  cases cs with
  | nil => exact (yields_ok _ _).mpr .finish
  | cons c cs =>
  rw [scan]
  cases hfirst : Lexeme.first c cs with
  | error cause => exact yields_error _ _
  | ok l =>
  rcases Lexeme.eq_of_first hfirst with ⟨hc, rfl⟩ | ⟨rfl, rfl⟩ | ⟨rest, rfl, rfl, rfl⟩ |
    ⟨kind, text, value, rfl⟩
  · exact (ih _ (Nat.lt_succ_self _) pending _ cs rfl).mono fun ts h => .blank hc h
  · refine (yields_bind _ _ _).mpr ?_
    refine (ih _ (Nat.lt_succ_self _) false _ cs rfl).mono fun ts h => (yields_pure _ _).mpr ?_
    have hscanned : Scanned pending loc _ ((if pending then [.lineEnd loc] else []) ++ ts) :=
      .newline h
    cases pending <;> exact hscanned
  · obtain ⟨body, rest, rfl, hline, hbody, hrest⟩ := exists_firstLine rest
    have hlines : firstLine ('/' :: (body ++ rest)) = '/' :: body := congrArg _ hline
    dsimp only
    rw [hlines, ← List.cons_append, scan_covered]
    have hshorter : rest.length < ('/' :: '/' :: (body ++ rest)).length := by
      simp only [List.length_cons, List.length_append]
      omega
    exact (ih _ hshorter pending _ rest rfl).mono fun ts h => .comment hbody hrest h
  · obtain ⟨rest, hrest⟩ := Lexeme.prefix_of_first hfirst
    obtain ⟨d, text, rfl⟩ := List.exists_cons_of_ne_nil (Lexeme.ne_nil_of_first hfirst)
    rw [List.cons_append] at hrest
    obtain ⟨rfl, rfl⟩ := List.cons.inj hrest
    dsimp only
    rw [scan_covered]
    refine (yields_bind _ _ _).mpr ?_
    have hshorter : rest.length < (d :: (text ++ rest)).length := by
      simp only [List.length_cons, List.length_append]
      omega
    refine (ih _ hshorter _ _ rest rfl).mono fun ts h => (yields_pure _ _).mpr ?_
    exact .token hfirst h

/-! ## Gaps -/

/-- Blanks, newlines, and comments, each of which goes on **up to a newline** or the end of the
source; `rest` is what stands behind them. -/
inductive Gap (rest : List Char) : List Char → Prop
  | nil : Gap rest []
  | blank {c : Char} {cs : List Char} (hc : Lexeme.isBlank c = true) (h : Gap rest cs) :
      Gap rest ([c] ++ cs)
  | newline {cs : List Char} (h : Gap rest cs) : Gap rest (['\n'] ++ cs)
  | comment {body cs : List Char} (hbody : '\n' ∉ body) (hend : ∀ c ∈ (cs ++ rest).head?, c = '\n')
      (h : Gap rest cs) : Gap rest ('/' :: '/' :: body ++ cs)

/-- The token ends a statement at a newline of the gap at `loc`, **outside of its comments**. -/
def Token.EndsLineIn (loc : Nat) (gap rest : List Char) (t : Token) : Prop :=
  ∃ before after, gap = before ++ '\n' :: after ∧ Gap ('\n' :: after ++ rest) before ∧
    t = .lineEnd (loc + byteLength before)

/-- The text that starts at `loc` is a gap, a token, a gap, and so on, **up to its end**; the tokens
are these, the ends of statements in the gaps, and the end of the source. -/
inductive Tiles : Nat → List Char → List Token → Prop
  | last {loc : Nat} {gap : List Char} {ends : List Token} (hgap : Gap [] gap)
      (hends : ∀ t ∈ ends, t.EndsLineIn loc gap []) :
      Tiles loc gap (ends ++ [.sourceEnd (loc + byteLength gap)])
  | next {loc : Nat} {gap : List Char} {ends : List Token} {kind : Token.Kind} {text : List Char}
      {value : Option Int64} {rest : List Char} {ts : List Token} (hgap : Gap (text ++ rest) gap)
      (hends : ∀ t ∈ ends, t.EndsLineIn loc gap (text ++ rest)) (htext : text ≠ [])
      (hkind : kind ≠ .eof) (h : Tiles (loc + byteLength gap + byteLength text) rest ts) :
      Tiles loc (gap ++ (text ++ rest))
        (ends ++ .ofText kind text value (loc + byteLength gap) :: ts)

section Tiles

variable {pending : Bool} {loc : Nat} {piece cs source : List Char} {ts tokens : List Token}

/-- An end in a gap is one in the gap that **starts earlier**. -/
theorem Token.EndsLineIn.prepend {gap rest : List Char} {t : Token}
    (h : t.EndsLineIn (loc + byteLength piece) gap rest)
    (hpiece : ∀ gap rest', cs = gap ++ rest' → Gap rest' gap → Gap rest' (piece ++ gap))
    (hcs : cs = gap ++ rest) : t.EndsLineIn loc (piece ++ gap) rest := by
  obtain ⟨before, after, rfl, hbefore, rfl⟩ := h
  refine ⟨piece ++ before, after, by rw [List.append_assoc], ?_, ?_⟩
  · exact hpiece before _ (by rw [hcs, List.append_assoc]) hbefore
  · rw [byteLength_append, Nat.add_assoc]

/-- What belongs to no token may be put **in front of a gap**, with the end of a statement in it. -/
theorem Tiles.prepend {first : List Token} (h : Tiles (loc + byteLength piece) cs ts)
    (hpiece : ∀ gap rest, cs = gap ++ rest → Gap rest gap → Gap rest (piece ++ gap))
    (hfirst : ∀ t ∈ first, ∀ gap rest, cs = gap ++ rest → t.EndsLineIn loc (piece ++ gap) rest) :
    Tiles loc (piece ++ cs) (first ++ ts) := by
  cases h with
  | last hgap hends =>
    have hcs : cs = cs ++ [] := (List.append_nil cs).symm
    rw [← List.append_assoc, Nat.add_assoc, ← byteLength_append]
    refine .last (hpiece cs [] hcs hgap) fun t ht => ?_
    rcases List.mem_append.mp ht with ht | ht
    · exact hfirst t ht cs [] hcs
    · exact (hends t ht).prepend hpiece hcs
  | @next _ gap ends kind text value rest ts hgap hends htext hkind h =>
    rw [← List.append_assoc piece gap, ← List.append_assoc first ends, Nat.add_assoc loc,
      ← byteLength_append piece gap]
    refine .next (hpiece gap _ rfl hgap) (fun t ht => ?_) htext hkind ?_
    · rcases List.mem_append.mp ht with ht | ht
      · exact hfirst t ht gap _ rfl
      · exact (hends t ht).prepend hpiece rfl
    · rwa [byteLength_append, ← Nat.add_assoc]

/-- **What is scanned is gaps and tokens.** -/
theorem Scanned.tiles (h : Scanned pending loc cs ts) : Tiles loc cs ts := by
  have hnone {P : Token → Prop} : ∀ t ∈ [], P t := fun _ ht => absurd ht List.not_mem_nil
  induction h with
  | finish => exact (.last .nil hnone : Tiles _ _ ([] ++ _))
  | blank hc _ ih => exact (ih.prepend (fun _ _ _ h => .blank hc h) hnone : Tiles _ _ ([] ++ _))
  | @newline pending loc cs ts _ ih =>
    refine ih.prepend (fun _ _ _ h => .newline h) fun t ht gap rest _ => ?_
    cases pending with
    | false => cases ht
    | true =>
      obtain rfl := List.mem_singleton.mp ht
      exact ⟨[], gap, rfl, .nil, rfl⟩
  | comment hbody hcs _ ih =>
    exact (ih.prepend (fun _ _ hgap h => .comment hbody (hgap ▸ hcs) h) hnone :
      Tiles _ _ ([] ++ _))
  | token hfirst _ ih =>
    exact (.next .nil hnone (List.cons_ne_nil _ _) (Lexeme.kind_ne_of_first hfirst) ih :
      Tiles _ ([] ++ _) ([] ++ _))

/-! ## Places of tokens -/

/-- Each token stands **behind those before it**. -/
theorem Scanned.ascending (h : Scanned pending loc cs ts) :
    (∀ t ∈ ts, loc ≤ t.loc) ∧ ts.Pairwise fun t t' => t.loc < t'.loc ∧ t.loc + t.len ≤ t'.loc := by
  have hlater {n m : Nat} {ts : List Token} (h : ∀ t ∈ ts, n + m ≤ t.loc) : ∀ t ∈ ts, n ≤ t.loc :=
    fun t ht => (Nat.le_add_right n m).trans (h t ht)
  induction h with
  | finish =>
    exact ⟨List.forall_mem_singleton.mpr le_rfl, List.pairwise_singleton _ _⟩
  | blank _ _ ih | comment _ _ _ ih => exact ⟨hlater ih.1, ih.2⟩
  | @newline pending loc cs ts _ ih =>
    cases pending with
    | false => exact ⟨hlater ih.1, ih.2⟩
    | true =>
      refine ⟨List.forall_mem_cons.mpr ⟨le_rfl, hlater ih.1⟩, List.pairwise_cons.mpr ⟨?_, ih.2⟩⟩
      exact fun t ht => ⟨(ih.1 t ht), hlater ih.1 t ht⟩
  | @token pending loc kind c text value cs ts _ _ ih =>
    refine ⟨List.forall_mem_cons.mpr ⟨le_rfl, hlater ih.1⟩, List.pairwise_cons.mpr ⟨?_, ih.2⟩⟩
    refine fun t ht => ⟨Nat.lt_of_lt_of_le (Nat.lt_add_of_pos_right ?_) (ih.1 t ht), ih.1 t ht⟩
    rw [byteLength_cons]
    exact Nat.add_pos_left c.utf8Size_pos _

/-- The end of the source is the last of the tokens, **and no other is one**. -/
theorem Scanned.exists_concat (h : Scanned pending loc cs ts) :
    ∃ init, ts = init ++ [.sourceEnd (loc + byteLength cs)] ∧ ∀ t ∈ init, t.kind ≠ .eof := by
  induction h with
  | finish => exact ⟨[], rfl, fun _ ht => absurd ht List.not_mem_nil⟩
  | blank _ _ ih | comment _ _ _ ih => rwa [byteLength_append, ← Nat.add_assoc]
  | @newline pending loc cs ts _ ih =>
    obtain ⟨init, rfl, hinit⟩ := ih
    refine ⟨(if pending then [.lineEnd loc] else []) ++ init, ?_, ?_⟩
    · rw [byteLength_append, ← Nat.add_assoc, List.append_assoc]
    · cases pending with
      | false => exact hinit
      | true => exact List.forall_mem_cons.mpr ⟨nofun, hinit⟩
  | token hfirst _ ih =>
    obtain ⟨init, rfl, hinit⟩ := ih
    rw [byteLength_append, ← Nat.add_assoc]
    exact ⟨_ :: init, rfl, List.forall_mem_cons.mpr ⟨Lexeme.kind_ne_of_first hfirst, hinit⟩⟩

/-- A token has a text that is not empty, ends a statement, or **is the end of the source**. -/
theorem Scanned.cases_of_mem (h : Scanned pending loc cs ts) :
    ∀ t ∈ ts, t.len ≠ 0 ∧ t.text ≠ "" ∨ t = .lineEnd t.loc ∨ t = .sourceEnd (loc + byteLength cs) := by
  induction h with
  | finish => exact List.forall_mem_singleton.mpr (.inr (.inr rfl))
  | blank _ _ ih | comment _ _ _ ih => rwa [byteLength_append, ← Nat.add_assoc]
  | @newline pending loc cs ts _ ih =>
    rw [byteLength_append, ← Nat.add_assoc]
    cases pending with
    | false => exact ih
    | true => exact List.forall_mem_cons.mpr ⟨.inr (.inl rfl), ih⟩
  | @token pending loc kind c text value cs ts _ _ ih =>
    rw [byteLength_append, ← Nat.add_assoc]
    refine List.forall_mem_cons.mpr ⟨.inl ⟨?_, ?_⟩, ih⟩
    · exact (Nat.add_pos_left c.utf8Size_pos _).ne'
    · intro htext
      have hnil : (String.ofList (c :: text)).toList = [] := congrArg String.toList htext
      rw [String.toList_ofList] at hnil
      cases hnil

end Tiles

/-! ## Sources -/

section Sources

variable {source : List Char} {tokens : List Token}

theorem scanned_of_tokenize (h : tokenize source = .ok tokens) : Scanned false 0 source tokens :=
  yields_scanned false 0 source tokens h

theorem ascending_of_tokenize (h : tokenize source = .ok tokens) :
    tokens.Pairwise fun t t' => t.loc < t'.loc ∧ t.loc + t.len ≤ t'.loc :=
  (scanned_of_tokenize h).ascending.2

/-- What stands behind all the other tokens is **the end of the source**. -/
theorem exists_concat_of_tokenize (h : tokenize source = .ok tokens) :
    ∃ init, tokens = init ++ [.sourceEnd (byteLength source)] ∧ ∀ t ∈ init, t.kind ≠ .eof := by
  have hconcat := (scanned_of_tokenize h).exists_concat
  rwa [Nat.zero_add] at hconcat

/-- A token that takes no characters ends a statement, or is **the end of the source**. -/
theorem marks_of_tokenize (h : tokenize source = .ok tokens) :
    ∀ t ∈ tokens, t.len = 0 → t = .lineEnd t.loc ∨ t = .sourceEnd (byteLength source) := by
  have hcases := (scanned_of_tokenize h).cases_of_mem
  rw [Nat.zero_add] at hcases
  exact fun t ht hlen => (hcases t ht).resolve_left fun hwritten => hwritten.1 hlen

theorem text_ne_of_tokenize (h : tokenize source = .ok tokens) :
    ∀ t ∈ tokens, t.len ≠ 0 → t.text ≠ "" := by
  intro t ht hlen
  rcases (scanned_of_tokenize h).cases_of_mem t ht with ⟨-, htext⟩ | hmark | hmark
  · exact htext
  · exact absurd (congrArg Token.len hmark) hlen
  · exact absurd (congrArg Token.len hmark) hlen

end Sources

/-- The source is **exactly its tokens and the gaps** before, between and after them. -/
structure TiledBy (source : List Char) (tokens : List Token) : Prop where
  tiles : Tiles 0 source tokens
  ascending : tokens.Pairwise fun t t' => t.loc < t'.loc ∧ t.loc + t.len ≤ t'.loc
  texts : ∀ t ∈ tokens, t.len ≠ 0 →
    t.text ≠ "" ∧ slice? t.loc (t.loc + t.len) source = some t.text.toList
  marks : ∀ t ∈ tokens, t.len = 0 → t = .lineEnd t.loc ∨ t = .sourceEnd (byteLength source)
  finish : ∃ init, tokens = init ++ [.sourceEnd (byteLength source)] ∧ ∀ t ∈ init, t.kind ≠ .eof

/-- **The tokens of a source tile it**: they stand one behind the other, each with its text between
its ends, what lies between them are gaps in which statements end at newlines, and the one end of
the source stands behind them all. -/
theorem tiledBy_of_tokenize {source : List Char} {tokens : List Token}
    (h : tokenize source = .ok tokens) : TiledBy source tokens where
  tiles := (scanned_of_tokenize h).tiles
  ascending := ascending_of_tokenize h
  texts t ht hlen := ⟨text_ne_of_tokenize h t ht hlen, (readFrom_of_tokenize h t ht).slice?_eq hlen⟩
  marks := marks_of_tokenize h
  finish := exists_concat_of_tokenize h

/-- Slashes in a string that goes on over a line and in one that holds none, quotation marks in a
comment, a character of two bytes, and a comment that **the source ends with**. -/
def textOfSlashes : String :=
  "s := \"// é\n\" // it\"s\n\n\tt := 6/'\"'\x7d\r\n// no newline"

theorem tiledBy_of_slashes :
    ∃ tokens, tokenize textOfSlashes.toList = .ok tokens ∧ tokens.length = 11 ∧
      TiledBy textOfSlashes.toList tokens := by
  obtain ⟨tokens, htokens, hlength⟩ := exists_ok_of_text (s := textOfSlashes) rfl (f := tokenize)
    (P := fun _ tokens => tokens.length == 11) (by decide +kernel)
  exact ⟨tokens, htokens, beq_iff_eq.mp hlength, tiledBy_of_tokenize htokens⟩

end StackCompiler
