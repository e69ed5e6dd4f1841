import StackCompiler.Proofs.Grammar.Derivations
import StackCompiler.Proofs.Grammar.Rounds
import StackCompiler.Proofs.Grammar.Taking
import StackCompiler.Proofs.Token.Pieces
import StackCompiler.Proofs.Token.Types

/-!
# Proofs/Grammar/Types — a type is read from its own text

The tokens that spell a type are all taken when a type is read, **and no others** (`succeeds_typeTo`),
so what is written of a type is read as that type, and no two types are written alike
(`Ty.Spellable.read_text`).
-/

namespace StackCompiler

open Text

namespace Grammar

variable {ts rest : List Token} {t : Ty} {r : Reading}

theorem typeName_not_is {token : Token} (hkind : token.kind = .typeName) (text : String) :
    token.is text = false :=
  Token.is_eq_false_of_kind (hkind ▸ nofun) text

theorem succeeds_namedType {token : Token} (hr : r.rest = token :: rest)
    (hkind : token.kind = .typeName) (hname : Ty.ofName? token.text = some t) :
    Succeeds namedType r fun t' r' => t' = t ∧ r.Leaves rest r' := by
  unfold namedType peek
  simp only [succeeds_bind, succeeds_get, succeeds_pure, hr, List.head?_cons, hkind, hname]
  exact succeeds_advance hr fun r' hr' => ⟨trivial, hr'⟩

/-- The number of a length is **the length**, and positive. -/
theorem toInt_length {len : Int} (h : 1 ≤ len ∧ len ≤ Word.greatest) :
    (Int64.ofInt len).toInt = len ∧ ¬Int64.ofInt len ≤ 0 := by
  have htoInt : (Int64.ofInt len).toInt = len := by
    unfold Word.greatest at h
    exact Int64.toInt_ofInt_of_le (by omega) (by omega)
  refine ⟨htoInt, fun hle => ?_⟩
  have := Int64.le_iff_toInt_le.mp hle
  rw [htoInt] at this
  exact absurd this (by simp; omega)

/-- **The tokens that spell a type are taken, and no others**, whatever stands behind them. -/
theorem succeeds_typeTo (h : TypePhrase ts t) (ht : t.Spellable) {depth : Nat}
    (hdepth : ts.length ≤ depth) (hr : r.rest = ts ++ rest) :
    Succeeds (typeTo depth) r fun t' r' => t' = t ∧ r.Leaves rest r' := by
  induction h generalizing depth r with
  | name hkind hname =>
    obtain ⟨depth, rfl⟩ := Nat.exists_eq_succ_of_ne_zero (Nat.one_le_iff_ne_zero.mp hdepth)
    refine succeeds_unless hr (typeName_not_is hkind _) (succeeds_unless hr (typeName_not_is hkind _) ?_)
    exact succeeds_namedType hr hkind hname
  | @ptr star ts base hstar _ ih =>
    cases ht with | ptr hbase =>
    obtain ⟨depth, rfl⟩ := Nat.exists_eq_succ_of_ne_zero (Nat.ne_of_gt (Nat.zero_lt_of_lt hdepth))
    refine succeeds_then hr hstar fun r₁ hr₁ => (succeeds_bind _ _).mpr ?_
    refine (ih hbase (Nat.le_of_succ_le_succ hdepth) hr₁.rest).mono ?_
    rintro _ r₂ ⟨rfl, hr₂⟩
    exact (succeeds_pure _).mpr ⟨rfl, hr₁.trans hr₂⟩
  | @array opening number closing ts base len hopening hkind hvalue hclosing _ ih =>
    cases ht with | array hbase hlen hsize =>
    have hproper := (Ty.Spellable.array hbase hlen hsize).proper.1
    obtain ⟨htoInt, hpositive⟩ := toInt_length hlen
    obtain ⟨depth, rfl⟩ := Nat.exists_eq_succ_of_ne_zero (Nat.ne_of_gt (Nat.zero_lt_of_lt hdepth))
    refine succeeds_unless hr (Token.is_eq_false_of_is hopening (by decide))
      (succeeds_then hr hopening fun r₁ hr₁ => (succeeds_bind _ _).mpr ?_)
    refine succeeds_number hr₁.rest hkind hvalue fun loc r₂ hr₂ => ?_
    dsimp only
    rw [if_neg hpositive]
    refine (succeeds_bind _ _).mpr (succeeds_expect hr₂.rest hclosing fun _ r₃ hr₃ => ?_)
    refine (succeeds_bind _ _).mpr ((ih hbase (by simp at hdepth; omega) hr₃.rest).mono ?_)
    rintro _ r₄ ⟨rfl, hr₄⟩
    unfold arrayType
    dsimp only
    rw [htoInt, if_pos hproper.2.2.2]
    exact (succeeds_pure _).mpr ⟨rfl, ((hr₁.trans hr₂).trans hr₃).trans hr₄⟩

theorem succeeds_type (h : TypePhrase ts t) (ht : t.Spellable) (hr : r.rest = ts ++ rest) :
    Succeeds type r fun t' r' => t' = t ∧ r.Leaves rest r' := by
  unfold type bounded bound
  simp only [succeeds_bind, succeeds_get, succeeds_pure]
  refine succeeds_typeTo h ht ?_ hr
  rw [hr, List.length_append]
  omega

/-! ## Declarations -/

theorem run_typeAhead (h : TypePhrase ts t) (hr : r.rest = ts ++ rest) :
    typeAhead.run r = .ok (true, r) := by
  have hfound : (r.rest.head?.any (·.is "*") || r.rest.head?.any (·.is "[") ||
      r.rest.head?.any (·.kind == .typeName)) = true := by
    rw [hr]
    cases h with
    | name hkind => simp [hkind]
    | ptr hstar => simp [hstar]
    | array hopening => simp [hopening]
  rw [← hfound]
  rfl

/-- At the end of a source there is **no punctuator**. -/
theorem not_is_of_ended (hend : r.rest.head?.all (·.kind == .eof) = true) (text : String) :
    ∀ token ∈ r.rest.head?, token.is text = false := by
  intro token htoken
  rw [Option.mem_def.mp htoken, Option.all_some, beq_iff_eq] at hend
  exact Token.is_eq_false_of_kind (by rw [hend]; decide) text

theorem succeeds_endStatement (hend : r.rest.head?.all (·.kind == .eof) = true)
    {Q : Unit → Reading → Prop} (h : Q () r) : Succeeds endStatement r Q := by
  refine succeeds_else (not_is_of_ended hend _) (succeeds_bind_of_run (run_ahead _ r) ?_)
  refine succeeds_bind_of_run (run_atEnd r) ?_
  rw [hend, Bool.or_true, if_pos rfl]
  exact (succeeds_pure _).mpr h

/-- A new name **may be declared**. -/
theorem succeeds_declare {name : String} (hnew : r.lookup? name = none) (ty : Ty) (loc : Nat) :
    Succeeds (declare name ty loc) r fun id r' => id = r.vars.length ∧
      r' = (r.addVariable name ty loc false).listed r.vars.length := by
  refine succeeds_bind_of_run (StateT.run_get r) ?_
  rw [hnew, if_neg (by decide), succeeds_bind, succeeds_set]
  exact (succeeds_pure _).mpr ⟨rfl, rfl⟩

/-- **A variable is declared with the type that is spelled** behind its name. -/
theorem succeeds_declaration {keyword name : Token} (hr : r.rest = keyword :: name :: (ts ++ rest))
    (hvar : keyword.is "var" = true) (hname : name.kind = .ident) (h : TypePhrase ts t)
    (ht : t.Spellable) (hend : rest.head?.all (·.kind == .eof) = true) (hscope : r.scope = none)
    (hnew : r.lookup? name.text = none) :
    Succeeds declaration r fun s r' => s = .empty ∧ r'.rest = rest ∧
      ∃ v, r'.vars = r.vars ++ [v] ∧ v.name = name.text ∧ v.ty = t := by
  refine (succeeds_bind _ _).mpr (succeeds_expect hr hvar fun _ r₁ hr₁ => ?_)
  refine (succeeds_bind _ _).mpr (succeeds_identifier hr₁.rest hname fun loc r₂ hr₂ => ?_)
  refine succeeds_bind_of_run (run_typeAhead h hr₂.rest) ?_
  rw [if_pos rfl]
  refine (succeeds_bind _ _).mpr ((succeeds_type h ht hr₂.rest).mono ?_)
  rintro t r₃ ⟨rfl, hr₃⟩
  have hsame := (hr₁.trans hr₂).trans hr₃
  have hended : r₃.rest.head?.all (·.kind == .eof) = true := by rw [hr₃.rest]; exact hend
  have hinitial : Succeeds initial r₃ fun init r' => init = .zero ∧ r₃ = r' :=
    succeeds_else (not_is_of_ended hended _) ((succeeds_pure _).mpr ⟨rfl, rfl⟩)
  refine (succeeds_bind _ _).mpr (hinitial.mono ?_)
  rintro _ _ ⟨rfl, rfl⟩
  refine (succeeds_bind _ _).mpr (succeeds_endStatement hended ?_)
  dsimp only
  split
  next heq =>
    obtain ⟨rfl, -⟩ := Prod.mk.inj heq
    cases ht
  refine succeeds_bind_of_run (StateT.run_get _) ?_
  refine (succeeds_bind _ _).mpr ((succeeds_declare ?_ _ _).mono ?_)
  · rw [hsame.reaches.names.lookup?_eq]
    exact hnew
  rintro _ _ ⟨rfl, rfl⟩
  rw [hsame.tables.scope, hscope]
  refine (succeeds_pure _).mpr ⟨rfl, ?_, ⟨name.text, 0, false, t, loc, false⟩, ?_, rfl, rfl⟩
  · rw [Reading.listed_rest]
    exact hr₃.rest
  · rw [Reading.listed_vars, Reading.addVariable, hsame.tables.scope, hscope, hsame.tables.vars]
    rfl

/-- A package that declares one variable **and nothing else** is read. -/
theorem run_package_of_var {heading p newline keyword x last : Token}
    (hr : r.rest = heading :: p :: newline :: keyword :: x :: (ts ++ [last]))
    (hheading : heading.is "package" = true) (hp : p.kind = .ident) (hnewline : newline.is ";" = true)
    (hvar : keyword.is "var" = true) (hx : x.kind = .ident) (h : TypePhrase ts t) (ht : t.Spellable)
    (hlast : last.kind = .eof) (hvars : r.vars = []) (hglobals : r.globals = [])
    (hscope : r.scope = none) :
    ∃ program r', package.run r = .ok (program, r') ∧
      ∃ v, program.vars = [v] ∧ v.name = x.text ∧ v.ty = t := by
  have hend : [last].head?.all (·.kind == .eof) = true := by simp [hlast]
  obtain ⟨s, r₁, hrun, rfl, hrest, v, hv, hname, hty⟩ := succeeds_declaration
    (r := { r with previous := some newline, rest := keyword :: x :: (ts ++ [last]) })
    rfl hvar hx h ht hend hscope (by simp [Reading.lookup?, hscope, hglobals])
  have hrounds : (iterate packageRound ⟨[], []⟩).run
      { r with previous := some p, rest := newline :: keyword :: x :: (ts ++ [last]) } =
        .ok (⟨[], []⟩, r₁) := by
    refine Rounds.run (.again (run_packageRound_terminator rfl hnewline _) (Nat.lt_succ_self _)
      (.again ((run_packageRound_var rfl hvar _).trans (run_bind_of_ok hrun)) ?_ (.done ?_)))
    · rw [hrest]
      simp
    · exact run_packageRound_done_iff.mpr ⟨by rw [hrest]; exact hend, rfl, rfl⟩
  refine ⟨_, r₁, run_package_eq_ok_iff.mpr ⟨_, _, _, _, hr, hheading, hp, hrounds, rfl⟩, v, ?_,
    hname, hty⟩
  rw [programOf, hv, hvars]
  rfl

end Grammar

/-! ## What is written of a type -/

/-- The lexemes of a source that declares a variable, **up to its type**. -/
def varLexemes : List Lexeme :=
  [.token .punctuator ['p', 'a', 'c', 'k', 'a', 'g', 'e'] none, .blank, .token .ident ['p'] none,
    .newline, .token .punctuator ['v', 'a', 'r'] none, .blank, .token .ident ['x'] none, .blank]

theorem lexemes_varLexemes (rest : List Char) :
    Lexemes rest "package p\nvar x ".toList varLexemes := by
  have hbefore {c : Char} {cs : List Char} (hc : Lexeme.isWordChar c = false) :
      ∀ d ∈ (c :: cs).head?, Lexeme.isWordChar d = false := by
    rintro _ ⟨⟩
    exact hc
  exact .cons (Lexeme.spelled_word 'p' ['a', 'c', 'k', 'a', 'g', 'e'] rfl (by decide)
      (hbefore rfl)) <| .cons (.blank rfl) <|
    .cons (Lexeme.spelled_word 'p' [] rfl (by decide) (hbefore rfl)) <|
    .cons .newline <|
    .cons (Lexeme.spelled_word 'v' ['a', 'r'] rfl (by decide) (hbefore rfl)) <|
    .cons (.blank rfl) <|
    .cons (Lexeme.spelled_word 'x' [] rfl (by decide) (hbefore rfl)) <|
    .cons (.blank rfl) .nil

namespace Ty.Spellable

variable {t t' : Ty}

theorem tokenize_text (h : t.Spellable) : tokenize t.text.toList =
    .ok (tokensFrom false 0 t.lexemes ++ [.sourceEnd (byteLength t.text.toList)]) := by
  have hlexemes : Lexemes [] t.text.toList t.lexemes := h.lexemes_text nofun
  exact hlexemes.tokenize_eq

theorem run_type (h : t.Spellable) {r : Grammar.Reading} {rest : List Token}
    (hr : r.rest = tokensFrom false 0 t.lexemes ++ rest) :
    ∃ r', Grammar.type.run r = .ok (t, r') ∧ r'.rest = rest := by
  obtain ⟨_, r', hrun, rfl, hr'⟩ := Grammar.succeeds_type (h.phrase false 0) h hr
  exact ⟨r', hrun, hr'.rest⟩

/-- Types **with one text** have the same tokens, and so they are one type. -/
theorem eq_of_text_eq (h : t.Spellable) (h' : t'.Spellable) (htext : t'.text = t.text) : t' = t := by
  have htokens := h'.tokenize_text
  rw [htext, h.tokenize_text] at htokens
  have hsame := List.append_cancel_right (Except.ok.inj htokens)
  have hrest : (Grammar.Reading.start [] (tokensFrom false 0 t.lexemes)).rest =
      tokensFrom false 0 t.lexemes ++ [] :=
    (List.append_nil _).symm
  obtain ⟨r, hr, -⟩ := h.run_type hrest
  obtain ⟨r', hr', -⟩ := h'.run_type (hrest.trans (congrArg (· ++ []) hsame))
  exact (Prod.mk.inj (Except.ok.inj (hr'.symm.trans hr))).1

/-- **A variable that is declared with the text has the type.** -/
theorem exists_ofTokens (h : t.Spellable) :
    ∃ tokens p v, tokenize ("package p\nvar x " ++ t.text).toList = .ok tokens ∧
      Program.ofTokens ("package p\nvar x " ++ t.text).toList tokens = .ok p ∧
      p.vars = [v] ∧ v.name = "x" ∧ v.ty = t := by
  have hlexemes : Lexemes [] ("package p\nvar x " ++ t.text).toList (varLexemes ++ t.lexemes) := by
    rw [String.toList_append]
    exact (lexemes_varLexemes _).append (h.lexemes_text nofun)
  have htokens := hlexemes.tokenize_eq
  rw [tokensFrom_append, List.append_assoc] at htokens
  have hphrase := h.phrase (pendsAfter false varLexemes) (0 + sizes varLexemes)
  generalize tokensFrom (pendsAfter _ _) _ t.lexemes = ts at htokens hphrase
  obtain ⟨p, r', hrun, v, hv, hname, hty⟩ := Grammar.run_package_of_var
    (r := .start _ (tokensFrom false 0 varLexemes ++ (ts ++ [.sourceEnd _]))) rfl rfl rfl rfl rfl rfl
    hphrase h rfl rfl rfl rfl
  refine ⟨_, p, v, htokens, ?_, hv, hname, hty⟩
  rw [Program.ofTokens, hrun]
  rfl

/-- A type is read **from its own text**: its tokens are taken as that type, and none behind them; a
variable that is declared with the text has the type; and no other type has the text. -/
theorem read_text (h : t.Spellable) :
    (∃ ts, tokenize t.text.toList = .ok (ts ++ [.sourceEnd (byteLength t.text.toList)]) ∧
      ∀ (r : Grammar.Reading) (rest : List Token), r.rest = ts ++ rest →
        ∃ r', Grammar.type.run r = .ok (t, r') ∧ r'.rest = rest) ∧
    (∃ tokens p v, tokenize ("package p\nvar x " ++ t.text).toList = .ok tokens ∧
      Program.ofTokens ("package p\nvar x " ++ t.text).toList tokens = .ok p ∧
      p.vars = [v] ∧ v.name = "x" ∧ v.ty = t) ∧
    ∀ t' : Ty, t'.Spellable → t'.text = t.text → t' = t :=
  ⟨⟨_, h.tokenize_text, fun _ _ hr => h.run_type hr⟩, h.exists_ofTokens,
    fun _ h' htext => h.eq_of_text_eq h' htext⟩

/-- Three pointers to arrays that are as long as a word can count. -/
theorem read_text_of_pointers :
    ∃ t : Ty, t = .array (.ptr (.array .int8 Word.greatest)) 3 ∧ t.Spellable ∧
      t.text = "[3]*[9223372036854775807]int8" ∧
      (∃ ts, tokenize t.text.toList = .ok (ts ++ [.sourceEnd (byteLength t.text.toList)]) ∧
        ∀ (r : Grammar.Reading) (rest : List Token), r.rest = ts ++ rest →
          ∃ r', Grammar.type.run r = .ok (t, r') ∧ r'.rest = rest) ∧
      (∃ tokens p v, tokenize ("package p\nvar x " ++ t.text).toList = .ok tokens ∧
        Program.ofTokens ("package p\nvar x " ++ t.text).toList tokens = .ok p ∧
        p.vars = [v] ∧ v.name = "x" ∧ v.ty = t) ∧
      ∀ t' : Ty, t'.Spellable → t'.text = t.text → t' = t := by
  have h : (Ty.array (.ptr (.array .int8 Word.greatest)) 3).Spellable :=
    .array (.ptr (.array .int8 (by decide) (by decide))) (by decide) (by decide)
  exact ⟨_, rfl, h, by decide, read_text h⟩

end Ty.Spellable

end StackCompiler
