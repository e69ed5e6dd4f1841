import StackCompiler.Proofs.Token.Lexemes
import StackCompiler.Proofs.Ty.Exact

/-!
# Proofs/Token/Types — the text of a type is cut into its parts

A type is written with its stars and brackets one by one, its lengths in decimal, and one name at the
end.  **None of these goes on with another**, so the text is cut into them wherever no word goes on
behind it (`Ty.Spellable.lexemes_text`), and the tokens spell the type (`TypePhrase`).
-/

namespace StackCompiler

/-! ## Types that have a text -/

/-- The type is built from names, pointers and arrays, whose lengths and **exact sizes** are numbers of a
word. -/
inductive Ty.Spellable : Ty → Prop
  | bool : Spellable .bool
  | int8 : Spellable .int8
  | int32 : Spellable .int32
  | int : Spellable .int
  | string : Spellable .string
  | ptr {base : Ty} (h : Spellable base) : Spellable (.ptr base)
  | array {base : Ty} {len : Int} (h : Spellable base) (hlen : 1 ≤ len ∧ len ≤ Word.greatest)
      (hsize : (Ty.array base len).exactSize ≤ Word.greatest) : Spellable (.array base len)

namespace Ty

/-- The lexemes that a type is written with. -/
def lexemes : Ty → List Lexeme
  | ptr base => .token .punctuator ['*'] none :: base.lexemes
  | array base len =>
    .token .punctuator ['['] none ::
      .token .num (Nat.toDigits 10 len.toNat) (some (Int64.ofInt len)) ::
        .token .punctuator [']'] none :: base.lexemes
  | t => [.token .typeName t.text.toList none]

/-- What is built so is **proper**: no size on the way is larger than that of the whole. -/
theorem Spellable.proper {t : Ty} (h : t.Spellable) : t.Proper ∧ t.isResolved = true := by
  induction h with
  | bool | int8 | int32 | int | string => exact ⟨trivial, rfl⟩
  | ptr _ ih => exact ⟨ih.1, rfl⟩
  | @array base len _ hlen hsize ih =>
    obtain ⟨hproper, hresolved⟩ := ih
    obtain ⟨hchecked, -, hpos, -⟩ := hproper.hasExactSize hresolved
    rw [exactSize_array] at hsize
    have hfits : Word.fit? (base.exactSize * len) = some (base.exactSize * len) := by
      refine Word.fit?_eq_some_iff.mpr ⟨⟨?_, hsize⟩, rfl⟩
      exact (by decide : Word.least ≤ 0).trans (mul_nonneg (by omega) (by omega))
    refine ⟨⟨hproper, hresolved, hlen.1, ?_⟩, rfl⟩
    rw [checkedSize, hchecked, Option.bind_some, hfits]
    rfl

end Ty

/-! ## Cutting -/

namespace Lexeme

variable {rest : List Char}

/-- A star or a square bracket is a lexeme **whatever comes next**. -/
theorem spelled_mark {c : Char} (hc : c ∈ ['*', '[', ']']) (rest : List Char) :
    Spelled rest [c] (.token .punctuator [c] none) := by
  simp only [List.mem_cons, List.not_mem_nil, or_false] at hc
  refine .sign ?_ fun d _ => ?_
  · rcases hc with rfl | rfl | rfl <;> rfl
  · rcases hc with rfl | rfl | rfl <;> simp [isOperatorPair]

/-- A word is a lexeme **of its kind** where no word goes on behind it. -/
theorem spelled_word (c : Char) (cs : List Char) {kind : Token.Kind}
    (h : (isWordStart c && cs.all isWordChar) = true)
    (hkind : wordKind (String.ofList (c :: cs)) = kind)
    (hrest : ∀ d ∈ rest.head?, isWordChar d = false) :
    Spelled rest (c :: cs) (.token kind (c :: cs) none) := by
  obtain ⟨hc, hcs⟩ := Bool.and_eq_true_iff.mp h
  rw [← hkind]
  exact .word hc (List.all_eq_true.mp hcs) hrest

/-- The decimal of a number is **a run of digits with its value**. -/
theorem spelled_decimal {n : Int} (hn : 0 ≤ n) (hrest : ∀ d ∈ rest.head?, d.isDigit = false) :
    Spelled rest (Nat.toDigits 10 n.toNat)
      (.token .num (Nat.toDigits 10 n.toNat) (some (Int64.ofInt n))) := by
  have hvalue : decimalValue (Nat.toDigits 10 n.toNat) = Int64.ofInt n := by
    rw [decimalValue_eq, Nat.ofDigitChars_ten_toDigits, ← Int64.ofInt_eq_ofNat,
      Int.toNat_of_nonneg hn]
  have hdigits : ∀ d ∈ Nat.toDigits 10 n.toNat, d.isDigit = true := fun d hd =>
    Nat.isDigit_of_mem_toDigits (by decide) (by decide) hd
  obtain ⟨c, cs, hrun⟩ := List.exists_cons_of_ne_nil (Nat.toDigits_ne_nil (n := n.toNat) (b := 10))
  rw [← hvalue]
  rw [hrun] at hdigits ⊢
  obtain ⟨hc, hcs⟩ := List.forall_mem_cons.mp hdigits
  exact .number hc hcs hrest

end Lexeme

namespace Ty

variable {t base : Ty} {len : Int} {rest : List Char}

theorem toList_text_ptr : (ptr base).text.toList = ['*'] ++ base.text.toList :=
  String.toList_append

theorem toList_text_array (h : 0 ≤ len) : (array base len).text.toList =
    ['['] ++ (Nat.toDigits 10 len.toNat ++ ([']'] ++ base.text.toList)) := by
  obtain ⟨n, rfl⟩ := Int.eq_ofNat_of_zero_le h
  have hdecimal : (toString (n : Int)).toList = Nat.toDigits 10 n := Nat.toList_repr
  rw [text, String.toList_append, String.toList_append, String.toList_append, hdecimal,
    Int.toNat_natCast]
  simp only [List.append_assoc]
  rfl

/-- **The text of a type is its lexemes** where no word goes on behind it. -/
theorem Spellable.lexemes_text (h : t.Spellable)
    (hrest : ∀ c ∈ rest.head?, Lexeme.isWordChar c = false) :
    Lexemes rest t.text.toList t.lexemes := by
  have hname (c : Char) (cs : List Char)
      (h : (Lexeme.isWordStart c && cs.all Lexeme.isWordChar) = true)
      (hkind : Lexeme.wordKind (String.ofList (c :: cs)) = .typeName) :
      Lexemes rest (c :: cs ++ []) [.token .typeName (c :: cs) none] :=
    .cons (Lexeme.spelled_word c cs h hkind hrest) .nil
  induction h with
  | bool => exact hname 'b' ['o', 'o', 'l'] rfl (by decide)
  | int8 => exact hname 'i' ['n', 't', '8'] rfl (by decide)
  | int32 => exact hname 'i' ['n', 't', '3', '2'] rfl (by decide)
  | int => exact hname 'i' ['n', 't'] rfl (by decide)
  | string => exact hname 's' ['t', 'r', 'i', 'n', 'g'] rfl (by decide)
  | ptr _ ih =>
    rw [toList_text_ptr]
    exact .cons (Lexeme.spelled_mark (by simp) _) ih
  | @array base len _ hlen _ ih =>
    have hlen : 0 ≤ len := by omega
    rw [toList_text_array hlen]
    refine .cons (Lexeme.spelled_mark (by simp) _) (.cons (Lexeme.spelled_decimal hlen ?_)
      (.cons (Lexeme.spelled_mark (by simp) _) ih))
    rintro _ ⟨⟩
    rfl

end Ty

/-! ## Tokens -/

/-- The tokens spell the type. -/
inductive TypePhrase : List Token → Ty → Prop
  | name {token : Token} {t : Ty} (hkind : token.kind = .typeName)
      (hname : Ty.ofName? token.text = some t) : TypePhrase [token] t
  | ptr {star : Token} {ts : List Token} {base : Ty} (hstar : star.is "*" = true)
      (h : TypePhrase ts base) : TypePhrase (star :: ts) (.ptr base)
  | array {opening number closing : Token} {ts : List Token} {base : Ty} {len : Int}
      (hopening : opening.is "[" = true) (hkind : number.kind = .num)
      (hvalue : number.value = some (Int64.ofInt len)) (hclosing : closing.is "]" = true)
      (h : TypePhrase ts base) : TypePhrase (opening :: number :: closing :: ts) (.array base len)

/-- The lexemes of a type **give tokens that spell it**, wherever they stand. -/
theorem Ty.Spellable.phrase {t : Ty} (h : t.Spellable) (pending : Bool) (loc : Nat) :
    TypePhrase (tokensFrom pending loc t.lexemes) t := by
  have hname {t : Ty} (ht : Ty.ofName? t.text = some t) (loc : Nat) :
      TypePhrase [.ofText .typeName t.text.toList none loc] t :=
    .name rfl (by rw [Token.ofText, String.ofList_toList]; exact ht)
  induction h generalizing pending loc with
  | bool | int8 | int32 | int | string => exact hname (by decide) loc
  | ptr _ ih => exact .ptr (Token.is_ofText _ _) (ih _ _)
  | array _ _ _ ih => exact .array (Token.is_ofText _ _) rfl rfl (Token.is_ofText _ _) (ih _ _)

end StackCompiler
