import StackCompiler.Proofs.Grammar.Exchange
import StackCompiler.Proofs.Token.Pieces

/-!
# Proofs/Grammar/Texts — two functions of a text that change places

The text of a function starts with a word and ends with a brace, so that it is the same lexemes
wherever it is put, and what stands next to it is the same lexemes **next to another function**.  A
source in which two functions have changed places has the tokens that it had, those of the functions in
the other order, and line breaks between them where they were.
-/

namespace StackCompiler

open Text

/-! ## Functions -/

namespace Grammar

variable {depth : Nat} {ts : List Token}

instance (ts : List Token) : Decidable (IsFunction ts) :=
  decidable_of_iff (ts.head?.any (·.is "func") = true ∧ closing? 0 ts = some [])
    ⟨fun ⟨hhead, hclosing⟩ => by
      obtain ⟨t, hhead, ht⟩ := (Option.any_eq_true _ _).mp hhead
      obtain ⟨rest, rfl⟩ := List.head?_eq_some_iff.mp hhead
      exact ⟨⟨t, rest, rfl, ht⟩, hclosing⟩,
    fun h => by
      obtain ⟨t, rest, rfl, ht⟩ := h.head
      exact ⟨ht, h.closing⟩⟩

theorem exists_concat_of_closing? (h : closing? depth ts = some []) :
    ∃ init t, ts = init ++ [t] ∧ t.is "\x7d" = true := by
  fun_induction closing? depth ts with
  | case1 => cases h
  | case2 depth t rest _ ih | case5 depth t rest _ _ ih | case4 depth t rest _ _ _ ih =>
    obtain ⟨init, u, rfl, hu⟩ := ih h
    exact ⟨t :: init, u, rfl, hu⟩
  | case3 depth t rest _ ht =>
    obtain rfl := Option.some.inj h
    exact ⟨[], t, rfl, ht⟩

/-- A function starts with its word and ends with its brace, **which are two tokens**. -/
theorem IsFunction.exists_ends (h : IsFunction ts) :
    ∃ t init u, ts = t :: (init ++ [u]) ∧ t.is "func" = true ∧ u.is "\x7d" = true := by
  obtain ⟨t, tail, rfl, ht⟩ := h.head
  obtain ⟨init, u, hconcat, hu⟩ := exists_concat_of_closing? h.closing
  cases init with
  | nil =>
    obtain ⟨rfl, -⟩ := List.cons.inj hconcat
    rw [Token.is_eq_false_of_is ht (by decide)] at hu
    cases hu
  | cons t' init =>
    obtain ⟨rfl, rfl⟩ := List.cons.inj hconcat
    exact ⟨t, init, u, rfl, ht, hu⟩

theorem closing?_moved (n depth : Nat) (ts : List Token) :
    closing? depth (ts.map (Token.moved n)) = (closing? depth ts).map (List.map (Token.moved n)) := by
  have his (t : Token) (text : String) : (t.moved n).is text = t.is text := rfl
  fun_induction closing? depth ts with
  | case1 => rfl
  | case2 depth t rest ht ih => rwa [List.map_cons, closing?, if_pos ((his t _).trans ht)]
  | case3 depth t rest hopen ht hdepth =>
    rw [List.map_cons, closing?, his, his, if_neg hopen, if_pos ht, if_pos hdepth]
    rfl
  | case4 depth t rest hopen ht hdepth ih =>
    rwa [List.map_cons, closing?, his, his, if_neg hopen, if_pos ht, if_neg hdepth]
  | case5 depth t rest hopen ht ih =>
    rwa [List.map_cons, closing?, his, his, if_neg hopen, if_neg ht]

/-- The tokens of a function are those of one **anywhere**. -/
theorem isFunction_moved_iff {n : Nat} : IsFunction (ts.map (Token.moved n)) ↔ IsFunction ts := by
  constructor
  · rintro ⟨⟨_, _, hcons, ht⟩, hclosing⟩
    obtain ⟨t, rest, rfl, rfl, rfl⟩ := List.map_eq_cons_iff.mp hcons
    rw [closing?_moved] at hclosing
    obtain ⟨rest', hrest', hnil⟩ := Option.map_eq_some_iff.mp hclosing
    exact ⟨⟨t, rest, rfl, ht⟩, hrest'.trans (congrArg some (List.map_eq_nil_iff.mp hnil))⟩
  · rintro ⟨⟨t, rest, rfl, ht⟩, hclosing⟩
    refine ⟨⟨t.moved n, rest.map (Token.moved n), rfl, ht⟩, ?_⟩
    rw [closing?_moved, hclosing]
    rfl

end Grammar

/-- The tokens take a text **from the one offset to the other**. -/
structure Occupy (start stop : Nat) (ts : List Token) : Prop where
  head : ∀ t ∈ ts.head?, t.loc = start
  last : ∀ t ∈ ts.getLast?, t.loc + t.len = stop

instance (start stop : Nat) (ts : List Token) : Decidable (Occupy start stop ts) :=
  decidable_of_iff ((∀ t ∈ ts.head?, t.loc = start) ∧ ∀ t ∈ ts.getLast?, t.loc + t.len = stop)
    ⟨fun ⟨hhead, hlast⟩ => ⟨hhead, hlast⟩, fun h => ⟨h.head, h.last⟩⟩

theorem Occupy.unique {start stop start' stop' : Nat} {ts : List Token} (h : Occupy start stop ts)
    (h' : Occupy start' stop' ts) (hts : Grammar.IsFunction ts) : start = start' ∧ stop = stop' := by
  obtain ⟨t, tail, rfl, -⟩ := hts.head
  have hlast := List.getLast?_eq_some_getLast (List.cons_ne_nil t tail)
  exact ⟨(h.head t rfl).symm.trans (h'.head t rfl),
    (h.last _ hlast).symm.trans (h'.last _ hlast)⟩

section Lexemes

variable {rest cs : List Char} {ls : List Lexeme} {pending : Bool} {loc : Nat}
  {before stretch after : List Token}

/-- The lexemes of a function. -/
def IsFunctionLexemes (ls : List Lexeme) : Prop :=
  ∃ body, ls = .func :: (body ++ [.closing])

/-- Where the tokens of a function are **its lexemes are cut out**. -/
theorem exists_functionLexemes (hstretch : Grammar.IsFunction stretch) (hls : Lexemes rest cs ls)
    (h : tokensFrom pending loc ls = before ++ (stretch ++ after)) :
    ∃ front function behind, ls = front ++ (function ++ behind) ∧ IsFunctionLexemes function ∧
      tokensFrom pending loc front = before ∧
      tokensFrom false (loc + sizes front) function = stretch ∧
      tokensFrom false (loc + sizes front + sizes function) behind = after ∧
      Occupy (loc + sizes front) (loc + sizes front + sizes function) stretch := by
  obtain ⟨t, init, u, rfl, ht, hu⟩ := hstretch.exists_ends
  replace h : tokensFrom pending loc ls = before ++ t :: (init ++ u :: after) := by simpa using h
  obtain ⟨front, l, more, rfl, hfront, hl, hmore⟩ := exists_of_tokensFrom_eq h
  obtain ⟨_, _, hspelled⟩ := hls.exists_spelled l (by simp)
  obtain ⟨hfunc, htoken⟩ := hspelled.eq_of_is hl ht (by decide)
  obtain rfl : l = .func := hfunc
  obtain ⟨body, l, behind, rfl, hbody, hl', hbehind⟩ := exists_of_tokensFrom_eq hmore
  obtain ⟨_, _, hspelled'⟩ := hls.exists_spelled l (by simp)
  obtain ⟨hclosing, htoken'⟩ := hspelled'.eq_of_is hl' hu (by decide)
  obtain rfl : l = .closing := hclosing
  have hpends : pendsAfter pending (front ++ [.func]) = Lexeme.func.pends false := by
    rw [pendsAfter, List.foldl_concat]
    rfl
  have hpends' (pending : Bool) : pendsAfter pending (body ++ [.closing]) = false := by
    rw [pendsAfter, List.foldl_concat]
    rfl
  have hplace : loc + sizes (front ++ [.func]) = loc + sizes front + Lexeme.func.size := by
    rw [sizes_append, sizes_cons, sizes_nil, Nat.add_zero, Nat.add_assoc]
  rw [hplace] at hbody hl' hbehind htoken'
  rw [hpends] at hbody
  rw [hpends', sizes_append, sizes_cons, sizes_nil, Nat.add_zero, ← Nat.add_assoc] at hbehind
  have hclose : loc + sizes front + sizes (.func :: (body ++ [.closing])) =
      loc + sizes front + Lexeme.func.size + sizes body + Lexeme.closing.size := by
    simp only [sizes_cons, sizes_append, sizes_nil]
    omega
  refine ⟨front, .func :: (body ++ [.closing]), behind, by simp, ⟨body, rfl⟩, hfront, ?_, ?_, ?_, ?_⟩
  · rw [tokensFrom, tokensFrom_append, hbody]
    exact congrArg₂ (· ++ ·) hl (congrArg (init ++ ·) (congrArg (· ++ []) hl'))
  · rwa [hclose]
  · rintro _ ⟨⟩
    exact congrArg Token.loc htoken
  · rw [hclose]
    intro v hv
    rw [← List.cons_append, List.getLast?_concat] at hv
    cases hv
    rw [htoken']
    rfl

end Lexemes

/-! ## Texts -/

/-- The parts of a text **up to the end of the second stretch**. -/
def Parts.init {α : Type} (parts : Parts α) : List α :=
  parts.front ++ (parts.first ++ (parts.between ++ parts.second))

theorem Parts.all_eq {α : Type} (parts : Parts α) : parts.all = parts.init ++ parts.back := by
  simp only [all, init, List.append_assoc]

/-- The tokens of a text up to the end of the second of two functions, which stand one behind the other
and **have nothing but semicolons between them**. -/
structure Parts.Neighbours (text : Parts Char) (ts : Parts Token) : Prop where
  tokens : tokenize text.init = .ok (ts.init ++ [.sourceEnd (byteLength text.init)])
  isFirst : Grammar.IsFunction ts.first
  isSecond : Grammar.IsFunction ts.second
  between : ∀ t ∈ ts.between, t.is ";" = true
  first : Occupy (byteLength text.front) (byteLength (text.front ++ text.first)) ts.first
  second : Occupy (byteLength (text.front ++ (text.first ++ text.between))) (byteLength text.init)
    ts.second

instance (text : Parts Char) (ts : Parts Token) : Decidable (text.Neighbours ts) :=
  decidable_of_iff (tokenize text.init = .ok (ts.init ++ [.sourceEnd (byteLength text.init)]) ∧
      Grammar.IsFunction ts.first ∧ Grammar.IsFunction ts.second ∧
      (∀ t ∈ ts.between, t.is ";" = true) ∧
      Occupy (byteLength text.front) (byteLength (text.front ++ text.first)) ts.first ∧
      Occupy (byteLength (text.front ++ (text.first ++ text.between))) (byteLength text.init) ts.second)
    ⟨fun ⟨htokens, hisFirst, hisSecond, hbetween, hfirst, hsecond⟩ =>
      ⟨htokens, hisFirst, hisSecond, hbetween, hfirst, hsecond⟩,
    fun h => ⟨h.tokens, h.isFirst, h.isSecond, h.between, h.first, h.second⟩⟩

/-- The parts of a text are those lexemes where `rest` stands behind it, and its stretches are
functions. -/
structure Parts.Lexed (rest : List Char) (text : Parts Char) (ls : Parts Lexeme) : Prop where
  front : Lexemes ['f'] text.front ls.front
  first : Lexemes [] text.first ls.first
  between : Lexemes ['f'] text.between ls.between
  second : Lexemes [] text.second ls.second
  back : Lexemes rest text.back ls.back
  isFirst : IsFunctionLexemes ls.first
  isSecond : IsFunctionLexemes ls.second

/-- The tokens of the parts. -/
def Parts.tokens (ls : Parts Lexeme) : Parts Token where
  front := tokensFrom false 0 ls.front
  first := tokensFrom false (sizes ls.front) ls.first
  between := tokensFrom false (sizes ls.front + sizes ls.first) ls.between
  second := tokensFrom false (sizes ls.front + sizes ls.first + sizes ls.between) ls.second
  back := tokensFrom false (sizes ls.init) ls.back ++ [.sourceEnd (sizes ls.all)]

section Lexed

variable {rest : List Char} {text : Parts Char} {ls : Parts Lexeme} {ts : Parts Token}

theorem Parts.Lexed.exchanged (h : text.Lexed rest ls) : text.exchanged.Lexed rest ls.exchanged :=
  ⟨h.front, h.second, h.between, h.first, h.back, h.isSecond, h.isFirst⟩

theorem IsFunctionLexemes.lexemes {cs : List Char} {ls : List Lexeme} (h : IsFunctionLexemes ls)
    (hls : Lexemes rest cs ls) (rest' : List Char) : Lexemes rest' cs ls := by
  obtain ⟨body, rfl⟩ := h
  replace hls : Lexemes rest cs ((.func :: body) ++ [.closing]) := hls
  exact hls.behind_closing rest'

theorem IsFunctionLexemes.head? {cs : List Char} {ls : List Lexeme} (h : IsFunctionLexemes ls)
    (hls : Lexemes rest cs ls) (more : List Char) : (cs ++ more).head? = some 'f' := by
  obtain ⟨body, rfl⟩ := h
  cases hls with
  | cons h _ =>
    obtain rfl := h.token_eq
    rfl

/-- A function has its tokens whether **a statement is open before it** or not. -/
theorem IsFunctionLexemes.tokensFrom_eq {ls : List Lexeme} (h : IsFunctionLexemes ls)
    (pending : Bool) (loc : Nat) : tokensFrom pending loc ls = tokensFrom false loc ls := by
  obtain ⟨body, rfl⟩ := h
  rfl

/-- Behind a function **no statement is open**. -/
theorem IsFunctionLexemes.pendsAfter_eq {ls : List Lexeme} (h : IsFunctionLexemes ls)
    (pending : Bool) : pendsAfter pending ls = false := by
  obtain ⟨body, rfl⟩ := h
  rw [← List.cons_append, pendsAfter, List.foldl_concat]
  rfl

theorem Parts.Lexed.lexemes (h : text.Lexed rest ls) : Lexemes rest text.all ls.all := by
  have hfront {cs more : List Char} {function : List Lexeme} (hfunction : IsFunctionLexemes function)
      (hls : Lexemes [] cs function) : ∀ d ∈ (cs ++ more).head?, d ∈ ['f'].head? := by
    rw [hfunction.head? hls]
    exact fun d hd => hd
  refine .append ?_ (.append ?_ (.append ?_ (.append ?_ h.back)))
  · rw [List.append_assoc]
    exact h.front.mono (hfront h.isFirst h.first)
  · exact h.isFirst.lexemes h.first _
  · rw [List.append_assoc]
    exact h.between.mono (hfront h.isSecond h.second)
  · exact h.isSecond.lexemes h.second _

/-- The tokens of a text **are those of its parts**. -/
theorem Parts.Lexed.tokenize_eq (h : text.Lexed [] ls) : tokenize text.all = .ok ls.tokens.all := by
  rw [h.lexemes.tokenize_eq, h.lexemes.byteLength_eq]
  refine congrArg Except.ok ?_
  simp only [Parts.all, Parts.tokens, Parts.init, tokensFrom_append, h.isFirst.tokensFrom_eq,
    h.isFirst.pendsAfter_eq, h.isSecond.tokensFrom_eq, h.isSecond.pendsAfter_eq, sizes_append,
    List.append_assoc, Nat.zero_add, Nat.add_assoc]

/-- A text with two functions that stand one behind the other **is cut into lexemes** where these begin
and end, whatever stands behind them. -/
theorem Parts.Neighbours.exists_lexed (h : text.Neighbours ts) :
    ∃ ls behind rest, text.back = behind ++ rest ∧
      Parts.Lexed rest { text with back := behind } ls ∧
      (rest = [] ∨ ∃ cause, Lexeme.Barred rest cause) ∧
      ls.tokens.front = ts.front ∧ ls.tokens.first = ts.first ∧ ls.tokens.between = ts.between ∧
      ls.tokens.second = ts.second := by
  obtain ⟨ls, hls, htokens⟩ := exists_lexemes_of_tokenize h.tokens
  have htokens := (List.append_cancel_right htokens).symm
  obtain ⟨front, first, ls, rfl, hfirst, hfrontTokens, hfirstTokens, htokens, hplace⟩ :=
    exists_functionLexemes h.isFirst hls htokens
  obtain ⟨frontText, tail, htext, hfrontLexemes, htail⟩ := hls.exists_append
  obtain ⟨firstText, tail, rfl, hfirstLexemes, htail⟩ := htail.exists_append
  rw [← List.append_nil ts.second] at htokens
  obtain ⟨between, second, ls, rfl, hsecond, hbetweenTokens, hsecondTokens, -, hplace'⟩ :=
    exists_functionLexemes h.isSecond htail htokens
  obtain ⟨betweenText, tail, rfl, hbetweenLexemes, htail⟩ := htail.exists_append
  obtain ⟨secondText, tail, rfl, hsecondLexemes, -⟩ := htail.exists_append
  -- where the tokens are said to stand is where they do
  obtain ⟨hstart, hstop⟩ := hplace.unique h.first h.isFirst
  obtain ⟨hstart', hstop'⟩ := hplace'.unique h.second h.isSecond
  rw [Parts.init] at htext hstop'
  simp only [byteLength_append, Nat.zero_add] at hstart hstop hstart' hstop'
  obtain ⟨rfl, htext₁⟩ := append_inj_of_byteLength htext (by rw [hfrontLexemes.byteLength_eq]; omega)
  obtain ⟨rfl, htext₂⟩ := append_inj_of_byteLength htext₁ (by rw [hfirstLexemes.byteLength_eq]; omega)
  obtain ⟨rfl, htext₃⟩ :=
    append_inj_of_byteLength htext₂ (by rw [hbetweenLexemes.byteLength_eq]; omega)
  rw [← List.append_nil text.second] at htext₃
  obtain ⟨rfl, -⟩ := append_inj_of_byteLength htext₃ (by rw [hsecondLexemes.byteLength_eq]; omega)
  obtain ⟨behind, rest, back, hback, hbackLexemes, hrest⟩ := exists_lexemes text.back
  have hfunc {cs more : List Char} {function ls : List Lexeme} (hfunction : IsFunctionLexemes function)
      (hcs : Lexemes more cs function) {front rest : List Char}
      (hls : Lexemes (cs ++ rest) front ls) : Lexemes ['f'] front ls :=
    hls.mono fun d hd => by rwa [hfunction.head? hcs]
  rw [Nat.zero_add] at hfirstTokens hbetweenTokens hsecondTokens
  rw [List.append_assoc] at hfrontLexemes hbetweenLexemes
  exact ⟨⟨front, first, between, second, back⟩, behind, rest, hback,
    ⟨hfunc hfirst hfirstLexemes hfrontLexemes, hfirst.lexemes hfirstLexemes [],
      hfunc hsecond hsecondLexemes hbetweenLexemes, hsecond.lexemes hsecondLexemes [], hbackLexemes,
      hfirst, hsecond⟩, hrest, hfrontTokens, hfirstTokens, hbetweenTokens, hsecondTokens⟩

end Lexed

/-! ## Line breaks -/

section Spaced

variable {before before' after after' piece : List Char}

theorem breaksBehind_moved (before after : List Char) {t u : Token} (ts : List Token)
    (ht : t.loc + t.len ≤ u.loc) (hu : u.loc ≤ byteLength piece) :
    breaksBehind (before ++ (piece ++ after)) (t.moved (byteLength before))
        ((u :: ts).map (Token.moved (byteLength before))) =
      breaksBehind piece t (u :: ts) := by
  have hslice := slice?_between before piece after ht hu
  rw [← Nat.add_assoc] at hslice
  exact congrArg (Option.any (·.contains '\n')) hslice

/-- In two sources a piece that they have in common has **its tokens, and line breaks where it has
them**. -/
theorem spacedWithin_moved {source source' : List Char} (h : source = before ++ (piece ++ after))
    (h' : source' = before' ++ (piece ++ after')) {ts : List Token}
    (hts : ts.Pairwise fun t t' => t.loc + t.len ≤ t'.loc)
    (hpiece : ∀ t ∈ ts, t.loc ≤ byteLength piece) :
    SpacedWithin source source' (ts.map (Token.moved (byteLength before)))
      (ts.map (Token.moved (byteLength before'))) := by
  subst h h'
  induction ts with
  | nil => trivial
  | cons t ts ih =>
    obtain ⟨ht, hts⟩ := List.pairwise_cons.mp hts
    refine ⟨⟨rfl, rfl, rfl, Iff.rfl⟩, fun _ hne => ?_,
      ih hts fun u hu => hpiece u (List.mem_cons_of_mem _ hu)⟩
    cases ts with
    | nil => exact absurd rfl hne
    | cons u ts =>
      have hu := hpiece u (by simp)
      rw [breaksBehind_moved before after ts (ht u List.mem_cons_self) hu,
        breaksBehind_moved before' after' ts (ht u List.mem_cons_self) hu]

section Piece

variable {rest : List Char} {ls : List Lexeme} {u : Token}

/-- The tokens of a piece, **and one at its end**, stand in their order. -/
theorem Lexemes.ascending (h : Lexemes rest piece ls) (hu : u.loc = byteLength piece) :
    (tokensFrom false 0 ls ++ [u]).Pairwise (fun t t' => t.loc + t.len ≤ t'.loc) ∧
      ∀ t ∈ tokensFrom false 0 ls ++ [u], t.loc ≤ byteLength piece := by
  have hascending := ascending_of_tokenize h.tokenize_eq
  obtain ⟨htokens, -, hend⟩ := List.pairwise_append.mp hascending
  have hbelow : ∀ t ∈ tokensFrom false 0 ls, t.loc + t.len ≤ byteLength piece := fun t ht =>
    (hend t ht _ List.mem_cons_self).2
  refine ⟨List.pairwise_append.mpr ⟨htokens.imp And.right, List.pairwise_singleton _ _,
    fun t ht v hv => ?_⟩, List.forall_mem_append.mpr ⟨fun t ht => ?_, ?_⟩⟩
  · rw [List.mem_singleton.mp hv, hu]
    exact hbelow t ht
  · exact (Nat.le_add_right _ _).trans (hbelow t ht)
  · exact List.forall_mem_singleton.mpr hu.le

theorem tokensFrom_eq_map (loc : Nat) (ls : List Lexeme) :
    tokensFrom false loc ls = (tokensFrom false 0 ls).map (Token.moved loc) :=
  tokensFrom_moved loc false 0 ls

variable {source source' : List Char} {n n' : Nat}

theorem Lexemes.spacedWithin_concat (h : Lexemes rest piece ls) (hu : u.loc = byteLength piece)
    (hsource : source = before ++ (piece ++ after)) (hn : n = byteLength before)
    (hsource' : source' = before' ++ (piece ++ after')) (hn' : n' = byteLength before') :
    SpacedWithin source source' (tokensFrom false n ls ++ [u.moved n])
      (tokensFrom false n' ls ++ [u.moved n']) := by
  obtain ⟨hascending, hbelow⟩ := h.ascending hu
  have hspaced := spacedWithin_moved hsource hsource' hascending hbelow
  rwa [List.map_append, List.map_append, ← tokensFrom_eq_map, ← tokensFrom_eq_map, ← hn, ← hn']
    at hspaced

theorem Lexemes.spacedWithin (h : Lexemes rest piece ls)
    (hsource : source = before ++ (piece ++ after)) (hn : n = byteLength before)
    (hsource' : source' = before' ++ (piece ++ after')) (hn' : n' = byteLength before') :
    SpacedWithin source source' (tokensFrom false n ls) (tokensFrom false n' ls) := by
  have hu : (Token.sourceEnd (byteLength piece)).loc = byteLength piece := rfl
  obtain ⟨hascending, hbelow⟩ := h.ascending hu
  rw [tokensFrom_eq_map, tokensFrom_eq_map n', hn, hn']
  exact spacedWithin_moved hsource hsource' (List.pairwise_append.mp hascending).1
    fun t ht => hbelow t (List.mem_append_left _ ht)

end Piece

end Spaced

/-! ## Two sources -/

section Sources

variable {text : Parts Char} {ls : Parts Lexeme}

theorem Parts.Lexed.sound_exchanged (hsound : ls.tokens.Sound) :
    ls.exchanged.tokens.exchanged.Sound := by
  have hfunction {n m : Nat} {ls : List Lexeme} (h : Grammar.IsFunction (tokensFrom false n ls)) :
      Grammar.IsFunction (tokensFrom false m ls) := by
    rw [tokensFrom_eq_map, Grammar.isFunction_moved_iff] at h ⊢
    exact h
  refine ⟨hfunction hsound.isFirst, hfunction hsound.isSecond, ?_, hsound.unended⟩
  have hbetween := hsound.between
  change ∀ t ∈ tokensFrom false _ ls.between, _ at hbetween ⊢
  rw [tokensFrom_eq_map, List.forall_mem_map] at hbetween ⊢
  exact hbetween

theorem Token.moved_zero (t : Token) : t.moved 0 = t := by
  rw [moved, Nat.zero_add]

theorem IsFunctionLexemes.look_eq {ls : List Lexeme} (h : IsFunctionLexemes ls) (loc : Nat) :
    Grammar.look (tokensFrom false loc ls) = [.ofText .punctuator ['f', 'u', 'n', 'c'] none loc] := by
  obtain ⟨body, rfl⟩ := h
  rfl

/-- Up to the word that a function starts with **nothing is changed**. -/
theorem Parts.Lexed.spacedWithin_front (h : text.Lexed [] ls) :
    SpacedWithin text.all text.exchanged.all (ls.tokens.front ++ Grammar.look ls.tokens.first)
      (ls.tokens.front ++ Grammar.look ls.exchanged.tokens.first) := by
  have hword : (Token.ofText .punctuator ['f', 'u', 'n', 'c'] none (sizes ls.front)).loc =
      byteLength text.front := h.front.byteLength_eq.symm
  have hspaced := h.front.spacedWithin_concat hword (List.nil_append text.all).symm rfl
    (List.nil_append text.exchanged.all).symm rfl
  rw [byteLength_nil, Token.moved_zero] at hspaced
  change SpacedWithin _ _ (tokensFrom false 0 ls.front ++
    Grammar.look (tokensFrom false (sizes ls.front) ls.first)) (tokensFrom false 0 ls.front ++
    Grammar.look (tokensFrom false (sizes ls.front) ls.second))
  rwa [h.isFirst.look_eq, h.isSecond.look_eq]

/-- Behind the functions **nothing is changed**, up to the end. -/
theorem Parts.Lexed.spacedWithin_back (h : text.Lexed [] ls) :
    SpacedWithin text.all text.exchanged.all ls.tokens.back ls.exchanged.tokens.back := by
  have hfront := h.front.byteLength_eq
  have hfirst := h.first.byteLength_eq
  have hbetween := h.between.byteLength_eq
  have hsecond := h.second.byteLength_eq
  have hsource (text : Parts Char) : text.all = text.init ++ (text.back ++ []) := by
    rw [Parts.all_eq, List.append_nil]
  have hback {ls : Parts Lexeme} (hback : byteLength text.back = sizes ls.back) :
      ls.tokens.back = tokensFrom false (sizes ls.init) ls.back ++
        [(Token.sourceEnd (byteLength text.back)).moved (sizes ls.init)] := by
    rw [Parts.tokens, Parts.all_eq, sizes_append, ← hback]
    rfl
  rw [hback h.back.byteLength_eq, hback h.exchanged.back.byteLength_eq]
  refine h.back.spacedWithin_concat rfl (hsource text) ?_ (hsource text.exchanged) ?_
  · simp only [Parts.init, sizes_append, byteLength_append]
    omega
  · simp only [Parts.init, Parts.exchanged, sizes_append, byteLength_append]
    omega

/-- Where two functions of a text **change places** so do their tokens, and nothing else is changed. -/
theorem Parts.Lexed.exists_exchanged (h : text.Lexed [] ls)
    (hsize : byteLength text.all < Grammar.placeLimit) (hsound : ls.tokens.Sound) :
    ∃ c c' : CutSource, c.source = text.all ∧ c'.source = text.exchanged.all ∧
      tokenize text.all = .ok c.tokens ∧ tokenize text.exchanged.all = .ok c'.tokens ∧
      Grammar.Exchanged c c' ls.tokens ls.exchanged.tokens.exchanged := by
  have hfront := h.front.byteLength_eq
  have hfirst := h.first.byteLength_eq
  have hbetween := h.between.byteLength_eq
  have hsecond := h.second.byteLength_eq
  have hsize' : byteLength text.exchanged.all < Grammar.placeLimit := by
    refine lt_of_eq_of_lt ?_ hsize
    simp only [Parts.all, Parts.exchanged, byteLength_append]
    omega
  refine ⟨⟨text.all, ls.tokens.all, hsize, covers_of_tokenize h.tokenize_eq⟩,
    ⟨text.exchanged.all, ls.exchanged.tokens.all, hsize', covers_of_tokenize h.exchanged.tokenize_eq⟩,
    rfl, rfl, h.tokenize_eq, h.exchanged.tokenize_eq, rfl, rfl, hsound,
    Parts.Lexed.sound_exchanged hsound, h.spacedWithin_front, ?_, ?_, h.spacedWithin_back⟩
  · have hsource : text.exchanged.all =
        text.front ++ (text.second ++ text.between) ++ (text.first ++ text.back) := by
      simp only [Parts.all, Parts.exchanged, List.append_assoc]
    refine h.first.spacedWithin rfl hfront.symm hsource ?_
    simp only [Parts.exchanged, byteLength_append]
    omega
  · have hsource : text.all =
        text.front ++ (text.first ++ text.between) ++ (text.second ++ text.back) := by
      simp only [Parts.all, List.append_assoc]
    refine h.second.spacedWithin hsource ?_ rfl hfront.symm
    simp only [byteLength_append]
    omega

/-- A text of which what stands behind two functions is barred **has no tokens**. -/
theorem Parts.Lexed.exists_error {behind rest : List Char} {cause : Cause}
    (h : Parts.Lexed rest { text with back := behind } ls) (hback : text.back = behind ++ rest)
    (hbarred : Lexeme.Barred rest cause) : ∃ d, tokenize text.all = .error d := by
  have hall : text.all = Parts.all { text with back := behind } ++ rest := by
    rw [Parts.all_eq, Parts.all_eq, hback, ← List.append_assoc]
    rfl
  exact ⟨_, hall ▸ h.lexemes.tokenize_error hbarred⟩

/-- A text with two functions that stand one behind the other and the text with these exchanged **both
have no tokens, or both have them**, and then they are those of the functions in the other order. -/
theorem Parts.Neighbours.exists_exchanged {ts : Parts Token} (h : text.Neighbours ts)
    (hsize : byteLength text.all < Grammar.placeLimit) :
    (∃ d d', tokenize text.all = .error d ∧ tokenize text.exchanged.all = .error d') ∨
      ∃ (c c' : CutSource) (ts ts' : Parts Token), c.source = text.all ∧
        c'.source = text.exchanged.all ∧ tokenize text.all = .ok c.tokens ∧
        tokenize text.exchanged.all = .ok c'.tokens ∧ Grammar.Exchanged c c' ts ts' := by
  obtain ⟨ls, behind, rest, hback, hlexed, hrest, hfront, hfirst, hbetween, hsecond⟩ := h.exists_lexed
  rcases hrest with rfl | ⟨cause, hbarred⟩
  · obtain rfl : text.back = behind := hback.trans (List.append_nil _)
    have hunended : ∀ t ∈ ts.front, t.kind ≠ .eof := by
      obtain ⟨init, hinit, hkinds⟩ := exists_concat_of_tokenize h.tokens
      obtain rfl := List.append_cancel_right hinit
      exact fun t ht => hkinds t (List.mem_append_left _ ht)
    have hsound : ls.tokens.Sound :=
      ⟨hfirst ▸ h.isFirst, hsecond ▸ h.isSecond, hbetween ▸ h.between, hfront ▸ hunended⟩
    obtain ⟨c, c', hc, hc', htokens, htokens', hexchanged⟩ := hlexed.exists_exchanged hsize hsound
    exact .inr ⟨c, c', _, _, hc, hc', htokens, htokens', hexchanged⟩
  · obtain ⟨d, hd⟩ := hlexed.exists_error hback hbarred
    have hlexed' : Parts.Lexed rest { text.exchanged with back := behind } ls.exchanged :=
      hlexed.exchanged
    obtain ⟨d', hd'⟩ := hlexed'.exists_error hback hbarred
    exact .inl ⟨d, d', hd, hd'⟩

end Sources

end StackCompiler
