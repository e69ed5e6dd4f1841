import Mathlib.Data.Prod.Lex
import StackCompiler.Proofs.Token.Tiles

/-!
# Proofs/Text/Location — lines, columns and bytes tell the same place

The line of an offset is found by counting newlines, its column by counting characters, and its text by
looking for the newlines around it.  All of them agree with **the lines that the text is split into**
(`Location.StandsAt`), and an offset stands before another one exactly if its line and column do.
-/

namespace StackCompiler.Text

variable {source before after cs : List Char}

/-! ## Bytes -/

/-- The bytes of a text in UTF-8. -/
def utf8 (cs : List Char) : List UInt8 :=
  cs.flatMap String.utf8EncodeChar

theorem utf8_append (before after : List Char) : utf8 (before ++ after) = utf8 before ++ utf8 after :=
  List.flatMap_append

theorem length_utf8 (cs : List Char) : (utf8 cs).length = byteLength cs := by
  induction cs with
  | nil => rfl
  | cons c cs ih =>
    rw [utf8, List.flatMap_cons, List.length_append, String.length_utf8EncodeChar, byteLength_cons, ← ih,
      utf8]

/-- The bytes of a text **up to a cut**. -/
theorem take_utf8 (before after : List Char) :
    (utf8 (before ++ after)).take (byteLength before) = utf8 before := by
  rw [utf8_append, ← length_utf8 before, List.take_left]

/-- The byte of a newline is in **no other character**. -/
theorem count_utf8EncodeChar (c : Char) :
    (String.utf8EncodeChar c).count 10 = if c = '\n' then 1 else 0 := by
  have hnewline : c = '\n' ↔ c.val.toNat = 10 := by
    rw [Char.ext_iff, ← UInt32.toNat_inj]
    rfl
  have hbyte {n : Nat} (hn : n < 256) : UInt8.ofNat n = 10 ↔ n = 10 := by
    rw [← UInt8.toNat_inj, UInt8.toNat_ofNat_of_lt' hn]
    rfl
  have hlonger (bytes : List Nat) (hc : 127 < c.val.toNat) (h : ∀ n ∈ bytes, 127 < n ∧ n < 256) :
      (bytes.map UInt8.ofNat).count 10 = if c = '\n' then 1 else 0 := by
    rw [if_neg fun heq => by have := hnewline.mp heq; omega]
    refine List.count_eq_zero.mpr fun hmem => ?_
    obtain ⟨n, hn, hten⟩ := List.mem_map.mp hmem
    have := h n hn
    have := (hbyte this.2).mp hten
    omega
  unfold String.utf8EncodeChar
  dsimp only
  split
  next hshort =>
    have hsmall := Nat.lt_of_le_of_lt hshort (by decide : 127 < 256)
    simp only [List.count_singleton, beq_iff_eq, hbyte hsmall, hnewline]
  -- every byte of a longer character is above 127
  split
  · refine hlonger [_, _] (by omega) ?_
    simp only [List.mem_cons, List.not_mem_nil, or_false, forall_eq_or_imp, forall_eq]
    omega
  split
  · refine hlonger [_, _, _] (by omega) ?_
    simp only [List.mem_cons, List.not_mem_nil, or_false, forall_eq_or_imp, forall_eq]
    omega
  · refine hlonger [_, _, _, _] (by omega) ?_
    simp only [List.mem_cons, List.not_mem_nil, or_false, forall_eq_or_imp, forall_eq]
    omega

/-- **The newlines of a text are the bytes that are one.** -/
theorem count_utf8 (cs : List Char) : (utf8 cs).count 10 = cs.count '\n' := by
  induction cs with
  | nil => rfl
  | cons c cs ih =>
    rw [utf8, List.flatMap_cons, List.count_append, count_utf8EncodeChar, ← utf8, ih, List.count_cons,
      Nat.add_comm]
    simp only [beq_iff_eq]

/-- What is longer **takes more bytes**. -/
theorem byteLength_lt_append {more : List Char} (h : more ≠ []) :
    byteLength before < byteLength (before ++ more) := by
  obtain ⟨c, more, rfl⟩ := List.exists_cons_of_ne_nil h
  rw [byteLength_append, byteLength_cons]
  have := c.utf8Size_pos
  omega

/-! ## Lines -/

/-- The lines of a text, without their newlines. -/
def lines (cs : List Char) : List (List Char) :=
  cs.splitOn '\n'

/-- Where the line behind so many others starts: **behind all of them, and their newlines**. -/
def lineStart (cs : List Char) (i : Nat) : Nat :=
  (((lines cs).take i).map fun line => byteLength line + 1).sum

theorem lines_newline (before after : List Char) :
    lines (before ++ '\n' :: after) = lines before ++ lines after :=
  List.splitOnP_append_cons before after rfl

theorem lines_eq_singleton (h : '\n' ∉ cs) : lines cs = [cs] :=
  List.splitOnP_eq_singleton fun _ hc => beq_eq_false_iff_ne.mpr fun heq => h (heq ▸ hc)

theorem lines_cons {c : Char} (hc : c ≠ '\n') (cs : List Char) :
    lines (c :: cs) = (lines cs).modifyHead (c :: ·) := by
  rw [lines, List.splitOn, List.splitOnP_cons_eq_if_modifyHead, if_neg (by simpa using hc)]
  rfl

/-- There is **one line more** than there are newlines. -/
theorem length_lines (cs : List Char) : (lines cs).length = cs.count '\n' + 1 := by
  induction cs with
  | nil => rfl
  | cons c cs ih =>
    by_cases hc : c = '\n'
    · rw [hc, List.count_cons_self, ← ih]
      exact congrArg List.length (lines_newline [] cs)
    · rw [lines_cons hc, List.length_modifyHead, List.count_cons_of_ne hc, ih]

/-- The lines and their newlines take **all of the text, and one byte more** for a newline that the last
line has not. -/
theorem sum_lines (cs : List Char) :
    ((lines cs).map fun line => byteLength line + 1).sum = byteLength cs + 1 := by
  induction cs with
  | nil => rfl
  | cons c cs ih =>
    by_cases hc : c = '\n'
    · have hsplit : lines (c :: cs) = [] :: lines cs := hc ▸ lines_newline [] cs
      rw [hsplit, List.map_cons, List.sum_cons, ih, byteLength_cons, hc]
      exact (Nat.add_assoc 1 _ 1).symm
    · obtain ⟨line, rest, hlines⟩ := List.exists_cons_of_ne_nil (List.splitOnP_ne_nil (· == '\n') cs)
      rw [lines_cons hc]
      replace hlines : lines cs = line :: rest := hlines
      rw [hlines] at ih ⊢
      simp only [List.modifyHead_cons, List.map_cons, List.sum_cons, byteLength_cons] at ih ⊢
      omega

/-! ## The line of a cut -/

/-- Before a cut stand **whole lines, each with its newline**, and what the line of the cut starts
with. -/
theorem exists_front (before : List Char) : ∃ front whole, before = front ++ lastLine before ∧
    '\n' ∉ lastLine before ∧ (∀ cs, lines (front ++ cs) = whole ++ lines cs) ∧
      whole.length = before.count '\n' ∧
        (whole.map fun line => byteLength line + 1).sum = byteLength front := by
  obtain ⟨body, rest, hbefore, hbody, hfree, hrest⟩ := exists_firstLine before.reverse
  have hlast : lastLine before = body.reverse := congrArg List.reverse hbody
  have hsplit : before = rest.reverse ++ lastLine before := by
    rw [hlast, ← List.reverse_append, ← hbefore, List.reverse_reverse]
  have hnone : '\n' ∉ lastLine before := by rwa [hlast, List.mem_reverse]
  cases rest with
  | nil =>
    refine ⟨[], [], hsplit, hnone, fun _ => rfl, ?_, rfl⟩
    rw [hsplit]
    exact (List.count_eq_zero.mpr hnone).symm
  | cons c rest =>
    obtain rfl := hrest c rfl
    rw [List.reverse_cons] at hsplit
    refine ⟨_, lines rest.reverse, hsplit, hnone, fun cs => ?_, ?_, ?_⟩
    · rw [List.append_assoc]
      exact lines_newline _ _
    · rw [length_lines, hsplit, List.count_append, List.count_append, List.count_eq_zero.mpr hnone]
      rfl
    · rw [sum_lines, byteLength_append]
      rfl

/-- Behind whole lines stands the line of a cut, **up to the newline behind it**. -/
theorem head?_lines (h : '\n' ∉ cs) (after : List Char) :
    (lines (cs ++ after)).head? = some (cs ++ firstLine after) := by
  obtain ⟨body, rest, rfl, hbody, hfree, hrest⟩ := exists_firstLine after
  have hline : '\n' ∉ cs ++ body := fun hmem => (List.mem_append.mp hmem).elim h hfree
  rw [hbody, ← List.append_assoc]
  cases rest with
  | nil => rw [List.append_nil, lines_eq_singleton hline]; rfl
  | cons c rest =>
    obtain rfl := hrest c rfl
    rw [lines_newline, lines_eq_singleton hline]
    rfl

theorem lastLine_append {between : List Char} (h : '\n' ∉ between) :
    lastLine (before ++ between) = lastLine before ++ between := by
  unfold lastLine
  rw [List.reverse_append, List.takeWhile_append_of_pos, List.reverse_append, List.reverse_reverse]
  intro c hc
  exact bne_iff_ne.mpr fun heq => h (heq ▸ List.mem_reverse.mp hc)

/-! ## Places -/

namespace Location

/-- An offset that a place can be told of: past the end of the source, or **between two of its
characters**. -/
def Placed (source : List Char) (offset : Nat) : Prop :=
  byteLength source ≤ offset ∨ Boundary source offset

/-- The place of an offset in a source, told by **the lines that the source is split into**. -/
structure StandsAt (source : List Char) (offset : Nat) (l : Location) : Prop where
  offset_eq : l.offset = offset
  line_eq : l.line = 1 + ((utf8 source).take offset).count 10
  snippet_eq : (lines source)[l.line - 1]? = some l.snippet.toList
  column_pos : 0 < l.column
  column_le : l.column - 1 ≤ l.snippet.toList.length
  /-- The columns before it hold what stands between **the start of the line** and the offset. -/
  before_eq : slice? (lineStart source (l.line - 1)) offset source =
    some (l.snippet.toList.take (l.column - 1))
  marker_eq : l.marker.toList = List.replicate (l.column - 1) ' ' ++ ['^']

/-- The line and the column, the line **being looked at first**. -/
def position (l : Location) : Nat ×ₗ Nat :=
  toLex (l.line, l.column)

theorem between_standsAt (before after : List Char) :
    (between before after).StandsAt (before ++ after) (byteLength before) := by
  obtain ⟨front, whole, hbefore, hnone, hlines, hlength, hsum⟩ := exists_front before
  have hsource : before ++ after = front ++ (lastLine before ++ after) := by
    rw [← List.append_assoc, ← hbefore]
  have hall : lines (before ++ after) = whole ++ lines (lastLine before ++ after) :=
    hsource ▸ hlines _
  have hsnippet : (between before after).snippet.toList = lastLine before ++ firstLine after :=
    String.toList_ofList
  refine ⟨rfl, ?_, ?_, Nat.succ_pos _, ?_, ?_, ?_⟩
  · rw [take_utf8, count_utf8, Nat.add_comm]
    rfl
  · change (lines (before ++ after))[before.count '\n']? = _
    rw [hall, ← hlength, List.getElem?_append_right le_rfl, Nat.sub_self, ← List.head?_eq_getElem?,
      head?_lines hnone, hsnippet]
  · rw [hsnippet, List.length_append]
    exact Nat.le_add_right _ _
  · have hstart : lineStart (before ++ after) (before.count '\n') = byteLength front := by
      rw [lineStart, hall, ← hlength, List.take_left, hsum]
    have htake : (lastLine before ++ firstLine after).take (lastLine before).length = lastLine before :=
      List.take_left
    have hslice := slice?_append front (lastLine before) after
    rw [← byteLength_append, ← hbefore, ← hsource, ← hstart] at hslice
    rw [hsnippet]
    exact hslice.trans (congrArg some htake.symm)
  · exact (String.toList_append ..).trans (congrArg (· ++ ['^']) String.toList_ofList)

/-- **Behind a place there are later ones only**: on another line, or further on in the same one. -/
theorem position_lt {between' : List Char} (h : between' ≠ []) (after after' : List Char) :
    (between before after).position < (between (before ++ between') after').position := by
  rw [position, position, Prod.Lex.toLex_lt_toLex]
  by_cases hnewline : '\n' ∈ between'
  · refine .inl (Nat.succ_lt_succ ?_)
    rw [List.count_append]
    exact Nat.lt_add_of_pos_right (List.count_pos_iff.mpr hnewline)
  · refine .inr ⟨congrArg Nat.succ ?_, Nat.succ_lt_succ ?_⟩
    · rw [List.count_append, List.count_eq_zero.mpr hnewline, Nat.add_zero]
    · rw [lastLine_append hnewline, List.length_append]
      exact Nat.lt_add_of_pos_right (List.length_pos_iff.mpr h)

/-- Of two cuts of a source **the earlier one has the earlier position**. -/
theorem position_lt_iff {before' after' : List Char} (h : before ++ after = before' ++ after') :
    byteLength before < byteLength before' ↔
      (between before after).position < (between before' after').position := by
  rcases List.append_eq_append_iff.mp h with ⟨gap, rfl, rfl⟩ | ⟨gap, rfl, rfl⟩
  · by_cases hgap : gap = []
    · rw [hgap, List.append_nil, List.nil_append]
      exact iff_of_false (lt_irrefl _) (lt_irrefl _)
    · exact iff_of_true (byteLength_lt_append hgap) (position_lt hgap _ _)
  · by_cases hgap : gap = []
    · rw [hgap, List.append_nil, List.nil_append]
      exact iff_of_false (lt_irrefl _) (lt_irrefl _)
    · exact iff_of_false (byteLength_lt_append hgap).asymm (position_lt hgap _ _).asymm

/-- An offset that has a place is one to **cut the source at**, once it is clamped. -/
theorem Placed.exists_cut {offset : Nat} (h : Placed source offset) : ∃ before after,
    source = before ++ after ∧ byteLength before = min offset (byteLength source) ∧
      ofOffset? source offset = some (between before after) := by
  have hcut : Boundary source (min offset (byteLength source)) := by
    rcases h with hpast | hinside
    · rw [Nat.min_eq_right hpast]
      exact boundary_byteLength source
    · rwa [Nat.min_eq_left hinside.le]
  obtain ⟨before, after, hsource, hlength⟩ := hcut
  refine ⟨before, after, hsource, hlength, ?_⟩
  rw [ofOffset?, ← hlength, hsource, splitAt?_byteLength_append]
  rfl

/-- **Every offset that has a place is told by its line and column**: the line is the one of that number
that the source is split into, the columns before it hold the text up to the offset, and of two offsets
the earlier one has the earlier line and column. -/
theorem standsAt_of_placed {offset offset' : Nat} (h : Placed source offset)
    (h' : Placed source offset') : ∃ l l', ofOffset? source offset = some l ∧
      ofOffset? source offset' = some l' ∧ l.StandsAt source (min offset (byteLength source)) ∧
        l'.StandsAt source (min offset' (byteLength source)) ∧
          (min offset (byteLength source) < min offset' (byteLength source) ↔
            l.position < l'.position) ∧
              (l.position = l'.position →
                min offset (byteLength source) = min offset' (byteLength source)) := by
  obtain ⟨before, after, hsource, hlength, hplace⟩ := h.exists_cut
  obtain ⟨before', after', hsource', hlength', hplace'⟩ := h'.exists_cut
  have hlt := position_lt_iff (hsource.symm.trans hsource')
  have hgt := position_lt_iff (hsource'.symm.trans hsource)
  refine ⟨_, _, hplace, hplace', ?_, ?_, ?_, fun heq => ?_⟩
  · rw [← hlength, hsource]
    exact between_standsAt before after
  · rw [← hlength', hsource']
    exact between_standsAt before' after'
  · rw [← hlength, ← hlength']
    exact hlt
  · rw [← hlength, ← hlength']
    rw [heq] at hlt hgt
    refine le_antisymm (not_lt.mp fun h => ?_) (not_lt.mp fun h => ?_)
    · exact lt_irrefl _ (hgt.mp h)
    · exact lt_irrefl _ (hlt.mp h)

/-- A character of two bytes, an empty line, and a line without a newline. -/
def textOfAccent : List Char :=
  ['é', '\n', '\n', '$', 'x']

/-- The newline behind the accent stands **behind one character**, and all that is past the end behind
the last one. -/
theorem standsAt_of_accent :
    ofOffset? textOfAccent 2 = some ⟨2, 1, 2, "é"⟩ ∧ ofOffset? textOfAccent 99 = some ⟨6, 3, 3, "$x"⟩ ∧
      ∃ l l', ofOffset? textOfAccent 2 = some l ∧ ofOffset? textOfAccent 99 = some l' ∧
        l.StandsAt textOfAccent 2 ∧ l'.StandsAt textOfAccent 6 ∧
          (2 < 6 ↔ l.position < l'.position) ∧ (l.position = l'.position → 2 = 6) :=
  ⟨by decide +kernel, by decide +kernel,
    standsAt_of_placed
      (show Placed textOfAccent 2 from .inr ⟨['é'], ['\n', '\n', '$', 'x'], rfl, by decide⟩)
      (show Placed textOfAccent 99 from .inl (by decide))⟩

end Location

end StackCompiler.Text
