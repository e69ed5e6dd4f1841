import Mathlib.Data.List.Chain
import Mathlib.Data.List.TakeWhile
import StackCompiler.Proofs.Rendering.Writing

/-!
# Proofs/Rendering/Cutting — what is written is cut into its tokens

A text of tokens is cut into them if each of them is a whole lexeme (`Token.Whole`) and none would be
**lengthened by the one behind it** (`Token.Apart`).  What is written of a tree is such a list: it
starts and ends with tokens that the signs of operators can stand next to (`Legible`).
-/

namespace StackCompiler

open Text

/-! ## Characters behind a token -/

namespace Lexeme

variable {c d : Char} {cs : List Char}

/-- A token that starts no word and no number is lengthened by **two characters only**. -/
theorem lengthened_of_lengthens (hword : isWordStart c = false) (hdigit : c.isDigit = false)
    (hd : lengthens d = false) : lengthened c cs d = false := by
  obtain ⟨hequals, hslash⟩ := Bool.or_eq_false_iff.mp hd
  simp [lengthened, hword, hdigit, isOperatorPair, hequals, hslash]

theorem isWordChar_of_isDigit (hd : d.isDigit = true) : isWordChar d = true := by
  simp [isWordChar, Char.isAlphanum, hd]

theorem isWordChar_of_isWordStart (hd : isWordStart d = true) : isWordChar d = true := by
  rcases Bool.or_eq_true_iff.mp hd with hd | hd <;> simp [isWordChar, Char.isAlphanum, hd]

theorem lengthens_of_isWordChar (hd : isWordChar d = true) : lengthens d = false := by
  refine Bool.eq_false_iff.mpr fun h => ?_
  simp only [lengthens, Bool.or_eq_true, beq_iff_eq] at h
  rcases h with rfl | rfl <;> cases hd

/-- A token is lengthened by characters of words, **or by those two**. -/
theorem lengthened_of_isWordChar (hd : isWordChar d = false)
    (hc : isWordStart c = false → c.isDigit = false → lengthened c cs d = false) :
    lengthened c cs d = false := by
  cases hword : isWordStart c with
  | true => simp [lengthened, hword, hd]
  | false =>
    cases hdigit : c.isDigit with
    | true =>
      have hdigit' : d.isDigit = false :=
        Bool.eq_false_iff.mpr fun h => Bool.eq_false_iff.mp hd (isWordChar_of_isDigit h)
      simp [lengthened, hword, hdigit, hdigit']
    | false => exact hc hword hdigit

theorem lengthened_of_isBlank (hd : isBlank d = true) : lengthened c cs d = false := by
  have hword : isWordChar d = false := by
    simp only [isBlank, Bool.or_eq_true, beq_iff_eq] at hd
    rcases hd with (rfl | rfl) | rfl <;> rfl
  exact lengthened_of_isWordChar hword fun hstart hdigit =>
    lengthened_of_lengthens hstart hdigit (lengthens_of_isBlank hd)

end Lexeme

/-! ## Tokens next to each other -/

namespace Token

/-- The token is what its text is read as **with nothing behind it**. -/
def Whole (t : Token) : Prop :=
  ∃ kind c cs value loc, t = .ofText kind (c :: cs) value loc ∧
    Lexeme.first c cs = .ok (.token kind (c :: cs) value)

/-- The token starts with a character of that sort. -/
def StartsBy (sort : Char → Prop) (t : Token) : Prop :=
  ∀ d ∈ t.text.toList.head?, sort d

/-- No character of that sort lengthens the token. -/
def EndsBefore (sort : Char → Prop) (t : Token) : Prop :=
  ∀ c cs, t.text.toList = c :: cs → ∀ d, sort d → Lexeme.lengthened c cs d = false

/-- The second token may stand **right behind** the first. -/
def Apart (t u : Token) : Prop :=
  u.StartsBy fun d => t.EndsBefore (· = d)

theorem EndsBefore.apart {sort : Char → Prop} {t u : Token} (ht : t.EndsBefore sort)
    (hu : u.StartsBy sort) : t.Apart u :=
  fun d hd c cs htext _ heq => heq ▸ ht c cs htext d (hu d hd)

end Token

section Cutting

variable {ts : List Token} {s : List Char}

theorem scan_blanks {blanks : List Char} (h : ∀ c ∈ blanks, Lexeme.isBlank c = true)
    (pending : Bool) (loc : Nat) (s : List Char) :
    scan 0 pending loc (blanks ++ s) = scan 0 pending (loc + byteLength blanks) s := by
  induction blanks generalizing loc with
  | nil => rfl
  | cons c cs ih =>
    obtain ⟨hc, hcs⟩ := List.forall_mem_cons.mp h
    rw [List.cons_append, scan, Lexeme.first_of_isBlank hc]
    dsimp only
    rw [ih hcs, byteLength_cons, Nat.add_assoc]

/-- A text of tokens starts with a blank or **with its first token**. -/
theorem Spaced.head (h : Spaced ts s) (hwhole : ∀ t ∈ ts, t.Whole) :
    ∀ d ∈ s.head?, Lexeme.isBlank d = true ∨ ∃ t ∈ ts.head?, d ∈ t.text.toList.head? := by
  have hblanks {blanks s : List Char} (h : ∀ c ∈ blanks, Lexeme.isBlank c = true) {p : Char → Prop}
      (hs : ∀ d ∈ s.head?, p d) : ∀ d ∈ (blanks ++ s).head?, Lexeme.isBlank d = true ∨ p d := by
    cases blanks with
    | nil => exact fun d hd => .inr (hs d hd)
    | cons c cs =>
      rintro _ ⟨⟩
      exact .inl (h c List.mem_cons_self)
  cases h with
  | nil h =>
    rw [← List.append_nil s]
    exact hblanks h nofun
  | @cons blanks s t ts h hs =>
    refine hblanks h fun d hd => ⟨t, rfl, ?_⟩
    obtain ⟨kind, c, cs, value, loc, rfl, -⟩ := hwhole t List.mem_cons_self
    change d ∈ ((String.ofList (c :: cs)).toList ++ s).head? at hd
    change d ∈ (String.ofList (c :: cs)).toList.head?
    rwa [String.toList_ofList] at hd ⊢

/-- **A text is cut into the tokens that it was made of.** -/
theorem Spaced.exists_tokens (h : Spaced ts s) (hwhole : ∀ t ∈ ts, t.Whole)
    (hchain : ts.IsChain Token.Apart) (loc : Nat) (pending : Bool) :
    ∃ ts' finish, scan 0 pending loc s = .ok (ts' ++ [.sourceEnd finish]) ∧
      List.Forall₂ Token.Alike ts ts' := by
  induction h generalizing loc pending with
  | @nil blanks h =>
    refine ⟨[], loc + byteLength blanks, ?_, .nil⟩
    rw [← List.append_nil blanks, scan_blanks h, List.append_nil]
    rfl
  | @cons blanks s t ts h hs ih =>
    obtain ⟨hhead, htail⟩ := List.isChain_cons.mp hchain
    obtain ⟨hwholeHead, hwholeTail⟩ := List.forall_mem_cons.mp hwhole
    have hstart := hs.head hwholeTail
    obtain ⟨kind, c, cs, value, loc', rfl, hfirst⟩ := hwholeHead
    have htext : (Token.ofText kind (c :: cs) value loc').text.toList = c :: cs :=
      String.toList_ofList
    have hfirst' : Lexeme.first c (cs ++ s) = .ok (.token kind (c :: cs) value) := by
      have halone : Lexeme.first c (cs ++ []) = .ok (.token kind (c :: cs) value) := by
        rwa [List.append_nil]
      refine Lexeme.first_behind halone fun d hd => ?_
      rcases hstart d hd with hblank | ⟨u, hu, hd⟩
      · exact Lexeme.lengthened_of_isBlank hblank
      · exact hhead u hu d hd c cs htext d rfl
    let place := loc + byteLength blanks
    obtain ⟨ts', finish, hscan, halike⟩ := ih hwholeTail htail (place + byteLength (c :: cs))
      (Token.ofText kind (c :: cs) value place).closesLine
    refine ⟨.ofText kind (c :: cs) value place :: ts', finish, ?_,
      .cons ⟨rfl, rfl, rfl, Iff.rfl⟩ halike⟩
    rw [scan_blanks h, htext, List.cons_append, scan, hfirst']
    dsimp only
    rw [scan_covered]
    exact congrArg (· >>= fun rest => pure (Token.ofText kind (c :: cs) value place :: rest)) hscan

end Cutting

/-! ## The tokens of trees -/

namespace Token

theorem StartsBy.ofText {sort : Char → Prop} {kind : Token.Kind} {c : Char} {cs : List Char}
    {value : Option Int64} {loc : Nat} (hc : sort c) :
    (ofText kind (c :: cs) value loc).StartsBy sort := by
  intro d hd
  rw [Token.ofText, String.toList_ofList] at hd
  cases hd
  exact hc

theorem EndsBefore.ofText {sort : Char → Prop} {kind : Token.Kind} {c : Char} {cs : List Char}
    {value : Option Int64} {loc : Nat} (h : ∀ d, sort d → Lexeme.lengthened c cs d = false) :
    (ofText kind (c :: cs) value loc).EndsBefore sort := by
  intro c' cs' htext d hd
  rw [Token.ofText, String.toList_ofList] at htext
  cases htext
  exact h d hd

/-- The token may stand **between two trees**. -/
structure Joins (t : Token) : Prop where
  whole : t.Whole
  starts : t.StartsBy (Lexeme.isWordChar · = false)
  ends : t.EndsBefore (Lexeme.lengthens · = false)

/-- The signs that trees are written with. -/
def signs : List (List Char) :=
  [['=', '='], ['!', '='], ['<'], ['<', '='], ['+'], ['-'], ['*'], ['/'], ['&'], ['('], [')'], ['['],
    [']'], [',']]

theorem joins_sign {text : List Char} (h : text ∈ signs) : (sign text).Joins := by
  have hjoins {c : Char} {cs : List Char}
      (hfirst : Lexeme.first c cs = .ok (.token .punctuator (c :: cs) none))
      (hword : Lexeme.isWordChar c = false ∧ Lexeme.isWordStart c = false ∧ c.isDigit = false) :
      (sign (c :: cs)).Joins :=
    ⟨⟨_, _, _, _, _, rfl, hfirst⟩, .ofText hword.1,
      .ofText fun _ hd => Lexeme.lengthened_of_lengthens hword.2.1 hword.2.2 hd⟩
  simp only [signs, List.mem_cons, List.not_mem_nil, or_false] at h
  rcases h with rfl | rfl | rfl | rfl | rfl | rfl | rfl | rfl | rfl | rfl | rfl | rfl | rfl | rfl <;>
    exact hjoins rfl (by decide)

theorem joins_symbol (op : BinaryOp) : (sign op.symbol.toList).Joins := by
  cases op <;> exact joins_sign (by decide)

end Token

/-- The tokens are whole and stand next to each other, and **signs may stand on either side**. -/
structure Legible (ts : List Token) : Prop where
  nonempty : ts ≠ []
  whole : ∀ t ∈ ts, t.Whole
  chain : ts.IsChain Token.Apart
  starts : ∀ t ∈ ts.head?, t.StartsBy (Lexeme.lengthens · = false)
  ends : ∀ t ∈ ts.getLast?, t.EndsBefore (Lexeme.isWordChar · = false)

namespace Legible

variable {t : Token} {ts ts' : List Token}

theorem single (hwhole : t.Whole) (hstarts : t.StartsBy (Lexeme.lengthens · = false))
    (hends : t.EndsBefore (Lexeme.isWordChar · = false)) : Legible [t] where
  nonempty := List.cons_ne_nil t []
  whole := List.forall_mem_singleton.mpr hwhole
  chain := .singleton t
  starts := by rintro _ ⟨⟩; exact hstarts
  ends := by rintro _ ⟨⟩; exact hends

/-- **A sign in front.** -/
theorem front (h : Legible ts) (ht : t.Joins) (hstarts : t.StartsBy (Lexeme.lengthens · = false)) :
    Legible (t :: ts) where
  nonempty := List.cons_ne_nil t ts
  whole := List.forall_mem_cons.mpr ⟨ht.whole, h.whole⟩
  chain := h.chain.cons fun u hu => ht.ends.apart (h.starts u hu)
  starts := by rintro _ ⟨⟩; exact hstarts
  ends := by
    rw [List.getLast?_cons_of_ne_nil h.nonempty]
    exact h.ends

/-- What starts as a sign does may stand **behind**. -/
theorem append (h : Legible ts) (hstarts : t.StartsBy (Lexeme.isWordChar · = false))
    (hwhole : ∀ u ∈ t :: ts', u.Whole) (hchain : (t :: ts').IsChain Token.Apart)
    (hends : ∀ u ∈ (t :: ts').getLast?, u.EndsBefore (Lexeme.isWordChar · = false)) :
    Legible (ts ++ t :: ts') where
  nonempty := List.append_ne_nil_of_left_ne_nil h.nonempty _
  whole := List.forall_mem_append.mpr ⟨h.whole, hwhole⟩
  chain := by
    refine List.isChain_append.mpr ⟨h.chain, hchain, fun u hu v hv => ?_⟩
    cases hv
    exact (h.ends u hu).apart hstarts
  starts := by
    rw [List.head?_append_of_ne_nil _ h.nonempty]
    exact h.starts
  ends := by
    rw [List.getLast?_append_of_ne_nil _ (List.cons_ne_nil t ts')]
    exact hends

/-- **A sign between.** -/
theorem joined (h : Legible ts) (ht : t.Joins) (h' : Legible ts') : Legible (ts ++ t :: ts') := by
  refine h.append ht.starts (List.forall_mem_cons.mpr ⟨ht.whole, h'.whole⟩)
    (h'.chain.cons fun u hu => ht.ends.apart (h'.starts u hu)) ?_
  rw [List.getLast?_cons_of_ne_nil h'.nonempty]
  exact h'.ends

/-- **A bracket behind.** -/
theorem behind (h : Legible ts) (ht : t.Joins)
    (hends : t.EndsBefore (Lexeme.isWordChar · = false)) : Legible (ts ++ [t]) :=
  h.append ht.starts (List.forall_mem_singleton.mpr ht.whole) (.singleton t)
    (by rintro _ ⟨⟩; exact hends)

end Legible

/-! ## What trees are written with -/

section Written

variable {r : Grammar.Reading} {e : Expr} {ts : List Token}

theorem endsBefore_closing {c : Char} (h : c ∈ [')', ']']) :
    (Token.sign [c]).EndsBefore (Lexeme.isWordChar · = false) := by
  simp only [List.mem_cons, List.not_mem_nil, or_false] at h
  rcases h with rfl | rfl <;>
    exact .ofText fun d hd => Lexeme.lengthened_of_isWordChar hd fun _ _ => by
      simp [Lexeme.lengthened, Lexeme.isWordStart, Lexeme.isOperatorPair]

theorem Legible.enclosed (h : Legible ts) (n : Nat) (e : Expr) : Legible (enclosed n e ts) := by
  unfold StackCompiler.enclosed
  split
  · exact (h.behind (Token.joins_sign (by decide)) (endsBefore_closing (by decide))).front
      (Token.joins_sign (by decide)) (.ofText rfl)
  · exact h

/-- A number is a run of digits whose value is **the word itself**. -/
theorem legible_decimal (v : Int64) : Legible [.decimal v] := by
  obtain ⟨c, cs, htext⟩ := List.exists_cons_of_ne_nil
    (Nat.toDigits_ne_nil (n := v.toUInt64.toNat) (b := 10))
  have hdigits : ∀ d ∈ c :: cs, d.isDigit = true :=
    fun d hd => Nat.isDigit_of_mem_toDigits (by decide) (by decide) (htext ▸ hd)
  obtain ⟨hc, hcs⟩ := List.forall_mem_cons.mp hdigits
  have hvalue : Lexeme.decimalValue (c :: cs) = v := by
    rw [decimalValue_eq, ← htext, Nat.ofDigitChars_ten_toDigits, ← UInt64.toInt64_ofNat',
      UInt64.ofNat_toNat, Int64.toInt64_toUInt64]
  have hrun : cs.takeWhile Char.isDigit = cs := List.takeWhile_eq_self_iff.mpr hcs
  have hfirst : Lexeme.first c cs = .ok (.token .num (c :: cs) (some v)) := by
    rw [Lexeme.first_of_isDigit hc, Lexeme.number, hrun, hvalue]
  unfold Token.decimal
  rw [htext]
  refine .single ⟨_, _, _, _, _, rfl, hfirst⟩
    (.ofText (Lexeme.lengthens_of_isWordChar (Lexeme.isWordChar_of_isDigit hc)))
    (.ofText fun d hd => Lexeme.lengthened_of_isWordChar hd fun _ hdigit => ?_)
  rw [hc] at hdigit
  cases hdigit

theorem toNatClampNeg_character {c : Char} (hc : Lexeme.isLiteralChar c = true) :
    (Int64.ofNat c.toNat).toNatClampNeg = c.toNat := by
  have hle : c.toNat ≤ 0x7e := of_decide_eq_true (Bool.and_eq_true_iff.mp hc).2
  exact Int64.toNatClampNeg_ofNat_of_lt (by omega)

theorem legible_character {c : Char} (hc : Lexeme.isLiteralChar c = true) :
    Legible [.character (Int64.ofNat c.toNat)] := by
  unfold Token.character
  rw [toNatClampNeg_character hc, Char.ofNat_toNat]
  have hfirst : Lexeme.first '\'' [c, '\''] =
      .ok (.token .num ['\'', c, '\''] (some (Int64.ofNat c.toNat))) := if_pos hc
  exact .single ⟨_, _, _, _, _, rfl, hfirst⟩ (.ofText rfl)
    (.ofText fun d hd => Lexeme.lengthened_of_isWordChar hd fun _ _ => rfl)

theorem legible_quoted {s : String} (hs : '"' ∉ s.toList) : Legible [.quoted s] := by
  have hrun : (s.toList ++ ['"']).takeWhile (· != '"') = s.toList :=
    Lexeme.takeWhile_run (fun c hc => bne_iff_ne.mpr fun h => hs (h ▸ hc)) (by rintro _ ⟨⟩; rfl)
  have hfirst : Lexeme.first '"' (s.toList ++ ['"']) =
      .ok (.token .str ('"' :: (s.toList ++ ['"'])) none) := by
    change Lexeme.string _ = _
    rw [Lexeme.string, if_pos (by simp), hrun]
    rfl
  refine .single ⟨_, _, _, _, _, rfl, hfirst⟩ (.ofText rfl)
    (.ofText fun d hd => Lexeme.lengthened_of_isWordChar hd fun _ _ => ?_)
  simp [Lexeme.lengthened, Lexeme.isWordStart]

theorem legible_name {name : String} (h : IsName name) : Legible [.name name] := by
  obtain ⟨⟨c, cs, rfl, hc, hcs⟩, hkind⟩ := h
  unfold Token.name
  rw [String.toList_ofList]
  have hfirst : Lexeme.first c cs = .ok (.token .ident (c :: cs) none) := by
    rw [← hkind]
    have hword : Lexeme.first c (cs ++ []) = _ := Lexeme.first_of_word hc hcs nofun
    rwa [List.append_nil] at hword
  refine .single ⟨_, _, _, _, _, rfl, hfirst⟩
    (.ofText (Lexeme.lengthens_of_isWordChar (Lexeme.isWordChar_of_isWordStart hc)))
    (.ofText fun d hd => Lexeme.lengthened_of_isWordChar hd fun hstart _ => ?_)
  rw [hc] at hstart
  cases hstart

theorem legible_writtenAll {args : List Expr} (h : ∀ arg ∈ args, Legible (arg.written r)) :
    Legible (Expr.writtenAll r args ++ [.sign [')']]) := by
  have hclosing : (Token.sign [')']).Joins := Token.joins_sign (by decide)
  induction args with
  | nil => exact .single hclosing.whole (.ofText rfl) (endsBefore_closing (by decide))
  | cons arg args ih =>
    obtain ⟨harg, hargs⟩ := List.forall_mem_cons.mp h
    cases args with
    | nil =>
      rw [Expr.writtenAll, List.append_nil]
      exact harg.behind hclosing (endsBefore_closing (by decide))
    | cons arg' args =>
      rw [Expr.writtenAll, List.append_assoc, List.cons_append]
      exact harg.joined (Token.joins_sign (by decide)) (ih hargs)

/-- **What is written of a tree can be cut.** -/
theorem Expr.Writable.legible (h : e.Writable r) : Legible (e.written r) := by
  induction h with
  | @num v ty loc h =>
    unfold written
    split
    · rcases h with rfl | ⟨-, c, hc, rfl⟩
      · contradiction
      · exact legible_character hc
    · exact legible_decimal v
  | str h =>
    obtain ⟨-, s, hs, hquote⟩ := h
    unfold written
    rw [hs]
    exact legible_quoted hquote
  | var h =>
    obtain ⟨-, v, hv, hname, -⟩ := h
    unfold written
    rw [hv]
    exact legible_name hname
  | addr _ _ ih | deref _ _ ih =>
    unfold written
    exact (ih.enclosed 4 _).front (Token.joins_sign (by decide)) (.ofText rfl)
  | binary _ _ _ ihl ihr =>
    unfold written
    exact (ihl.enclosed _ _).joined (Token.joins_symbol _) (ihr.enclosed _ _)
  | index _ _ _ ihb ihp =>
    unfold written
    exact (ihb.enclosed 5 _).joined (Token.joins_sign (by decide))
      (ihp.behind (Token.joins_sign (by decide)) (endsBefore_closing (by decide)))
  | call h _ ih =>
    unfold written
    exact (legible_name h.2).joined (Token.joins_sign (by decide)) (legible_writtenAll ih)

end Written

end StackCompiler
