import StackCompiler.Proofs.Grammar.Tables
import StackCompiler.Proofs.Syntax.Everywhere
import StackCompiler.Proofs.Token.Alike

/-!
# Proofs/Rendering/Writing — trees written as texts

A tree is written with **no parentheses but those that its operators need**: an operand is enclosed
where it is looser than its place (`enclosed`).  What is written is a list of tokens, and a text of
them may have any blanks between them, or none (`Spaced`).
-/

namespace StackCompiler

/-! ## Tiers -/

/-- How tight the operator holds its operands. -/
def BinaryOp.tier : BinaryOp → Nat
  | eq | ne => 0
  | lt | le => 1
  | add | sub => 2
  | mul | div => 3

/-- How tight the tree holds together: 0 to 3 are the tiers of the operators with two operands, 4 is
that of the operators in front, and 5 is for **what needs no parentheses** anywhere. -/
def Expr.tier : Expr → Nat
  | .binary op _ _ _ _ => op.tier
  | .addr .. | .deref .. => 4
  | _ => 5

theorem BinaryOp.tier_lt (op : BinaryOp) : op.tier < 4 := by
  cases op <;> decide

theorem Expr.tier_le (e : Expr) : e.tier ≤ 5 := by
  cases e with
  | binary op => exact op.tier_lt.le.trans (Nat.le_succ 4)
  | _ => simp [tier]

/-! ## Tokens that are written -/

namespace Token

/-- A punctuator. -/
def sign (text : List Char) : Token :=
  .ofText .punctuator text none 0

/-- An identifier. -/
def name (name : String) : Token :=
  .ofText .ident name.toList none 0

/-- A word as the decimal number of its bits. -/
def decimal (v : Int64) : Token :=
  .ofText .num (Nat.toDigits 10 v.toUInt64.toNat) (some v) 0

/-- A word as the character of that number. -/
def character (v : Int64) : Token :=
  .ofText .num ['\'', Char.ofNat v.toNatClampNeg, '\''] (some v) 0

/-- A string in quotation marks. -/
def quoted (s : String) : Token :=
  .ofText .str ('"' :: s.toList ++ ['"']) none 0

theorem body_quoted (s : String) : (quoted s).body = s := by
  have htext : (quoted s).text.toList = '"' :: (s.toList ++ ['"']) := String.toList_ofList
  unfold body
  rw [htext]
  change (if _ then _ else _) = s
  rw [if_pos List.getLast?_concat, List.dropLast_concat, String.ofList_toList]

theorem isCharLiteral_character (v : Int64) : (character v).isCharLiteral = true := by
  have htext : (character v).text.toList = ['\'', Char.ofNat v.toNatClampNeg, '\''] :=
    String.toList_ofList
  rw [isCharLiteral, htext]
  rfl

theorem isCharLiteral_decimal (v : Int64) : (decimal v).isCharLiteral = false := by
  have htext : (decimal v).text.toList = Nat.toDigits 10 v.toUInt64.toNat := String.toList_ofList
  rw [isCharLiteral, htext, Bool.and_eq_false_imp]
  refine fun _ => beq_eq_false_iff_ne.mpr fun hhead => ?_
  have hdigit := Nat.isDigit_of_mem_toDigits (by decide) (by decide) (List.mem_of_head? hhead)
  cases hdigit

end Token

/-- The operand as it stands in a place of that tier. -/
def enclosed (n : Nat) (e : Expr) (ts : List Token) : List Token :=
  if e.tier < n then .sign ['('] :: (ts ++ [.sign [')']]) else ts

mutual

/-- The tokens of a tree, with the names and strings of the tables. -/
def Expr.written (r : Grammar.Reading) : Expr → List Token
  | .num v ty _ => if ty = .int8 then [.character v] else [.decimal v]
  | .str string _ _ => [.quoted (r.strings[string]?.getD "")]
  | .var id _ _ => [.name (r.vars[id]?.elim "" (·.name))]
  | .addr operand _ _ => .sign ['&'] :: enclosed 4 operand (operand.written r)
  | .deref operand _ _ => .sign ['*'] :: enclosed 4 operand (operand.written r)
  | .binary op lhs rhs _ _ =>
    enclosed op.tier lhs (lhs.written r) ++
      .sign op.symbol.toList :: enclosed (op.tier + 1) rhs (rhs.written r)
  | .index base position _ _ =>
    enclosed 5 base (base.written r) ++ .sign ['['] :: (position.written r ++ [.sign [']']])
  | .call name args _ _ =>
    .name name :: .sign ['('] :: (Expr.writtenAll r args ++ [.sign [')']])

/-- The tokens of arguments, with commas between them. -/
def Expr.writtenAll (r : Grammar.Reading) : List Expr → List Token
  | [] => []
  | e :: es =>
    e.written r ++
      match es with
      | [] => []
      | _ :: _ => .sign [','] :: Expr.writtenAll r es

end

/-- The text has these tokens **one behind the other**, with any blanks between them. -/
inductive Spaced : List Token → List Char → Prop
  | nil {blanks : List Char} (h : ∀ c ∈ blanks, Lexeme.isBlank c = true) : Spaced [] blanks
  | cons {blanks s : List Char} {t : Token} {ts : List Token}
    (h : ∀ c ∈ blanks, Lexeme.isBlank c = true) (hs : Spaced ts s) :
    Spaced (t :: ts) (blanks ++ (t.text.toList ++ s))

/-- Tokens **may touch** each other. -/
theorem spaced_flatMap (ts : List Token) : Spaced ts (ts.flatMap (·.text.toList)) := by
  induction ts with
  | nil => exact .nil nofun
  | cons t ts ih => exact @Spaced.cons [] _ _ _ nofun ih

/-! ## Trees that can be written -/

/-- The name is a word and **no keyword**, nor any other word with a meaning of its own. -/
def IsName (name : String) : Prop :=
  IsWord name ∧ Lexeme.wordKind name = .ident

/-- The position is no number outside of a declared array, and none of a variable that **stands for a
name that was not declared**. -/
def Expr.PositionRule (r : Grammar.Reading) (base position : Expr) : Prop :=
  ∀ id ty loc, base = .var id ty loc → ∃ v, r.vars[id]? = some v ∧ v.isPlaceholder = false ∧
    ∀ element len, v.ty = .array element len → ∀ value ty' loc', position = .num value ty' loc' →
      0 ≤ value.toInt ∧ value.toInt < len

/-- The node is of a form that is read, **with no type but that of a character**. -/
def Expr.WriteRule (r : Grammar.Reading) : Expr → Prop
  | .num v ty _ => ty = .unknown ∨
      ty = .int8 ∧ ∃ c : Char, Lexeme.isLiteralChar c = true ∧ v = Int64.ofNat c.toNat
  | .str string ty _ => ty = .unknown ∧ ∃ s, r.strings[string]? = some s ∧ '"' ∉ s.toList
  | .var id ty _ => ty = .unknown ∧ ∃ v, r.vars[id]? = some v ∧ IsName v.name ∧
      r.lookup? v.name = some id
  | .addr operand ty _ => ty = .unknown ∧ operand.isLvalue = true
  | .deref _ ty _ => ty = .unknown
  | .binary _ _ _ ty _ => ty = .unknown
  | .index base position ty _ => ty = .unknown ∧ Expr.PositionRule r base position
  | .call name _ ty _ => ty = .unknown ∧ IsName name

/-- The tree is over literals, declared variables, calls, elements, addresses and what they point at,
and operations on them. -/
abbrev Expr.Writable (r : Grammar.Reading) (e : Expr) : Prop :=
  e.Everywhere (Expr.WriteRule r)

/-! ## Trees that are the same -/

/-- The trees differ **at most in places and in the numbers of strings**, which stand for one content
in either table. -/
inductive Expr.Alike (strings strings' : List String) : Expr → Expr → Prop
  | num {v : Int64} {ty : Ty} {loc loc' : Nat} :
    Alike strings strings' (.num v ty loc) (.num v ty loc')
  | str {i i' : Nat} {s : String} {ty : Ty} {loc loc' : Nat} (h : strings[i]? = some s)
    (h' : strings'[i']? = some s) : Alike strings strings' (.str i ty loc) (.str i' ty loc')
  | var {id : VarId} {ty : Ty} {loc loc' : Nat} :
    Alike strings strings' (.var id ty loc) (.var id ty loc')
  | addr {e e' : Expr} {ty : Ty} {loc loc' : Nat} (h : Alike strings strings' e e') :
    Alike strings strings' (.addr e ty loc) (.addr e' ty loc')
  | deref {e e' : Expr} {ty : Ty} {loc loc' : Nat} (h : Alike strings strings' e e') :
    Alike strings strings' (.deref e ty loc) (.deref e' ty loc')
  | binary {op : BinaryOp} {lhs lhs' rhs rhs' : Expr} {ty : Ty} {loc loc' : Nat}
    (hl : Alike strings strings' lhs lhs') (hr : Alike strings strings' rhs rhs') :
    Alike strings strings' (.binary op lhs rhs ty loc) (.binary op lhs' rhs' ty loc')
  | index {base base' position position' : Expr} {ty : Ty} {loc loc' : Nat}
    (hb : Alike strings strings' base base') (hp : Alike strings strings' position position') :
    Alike strings strings' (.index base position ty loc) (.index base' position' ty loc')
  | call {name : String} {args args' : List Expr} {ty : Ty} {loc loc' : Nat}
    (hlength : args.length = args'.length)
    (h : ∀ pair ∈ args.zip args', Alike strings strings' pair.1 pair.2) :
    Alike strings strings' (.call name args ty loc) (.call name args' ty loc')

section Alike

variable {strings strings' strings'' : List String} {e e' : Expr}

/-- Strings that are **added** leave trees the same. -/
theorem Expr.Alike.mono (h : e.Alike strings strings' e') (hle : strings' <+: strings'') :
    e.Alike strings strings'' e' := by
  induction h with
  | num => exact .num
  | str h h' => exact .str h (Grammar.Reading.getElem?_mono hle h')
  | var => exact .var
  | addr _ ih => exact .addr ih
  | deref _ ih => exact .deref ih
  | binary _ _ ihl ihr => exact .binary ihl ihr
  | index _ _ ihb ihp => exact .index ihb ihp
  | call hlength _ ih => exact .call hlength ih

end Alike

end StackCompiler
