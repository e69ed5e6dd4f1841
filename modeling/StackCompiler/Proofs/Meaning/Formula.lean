import StackCompiler.Proofs.Meaning.Running
import StackCompiler.Token.Lexeme

/-!
# Proofs/Meaning/Formula — what a text of numbers and signs comes to

A formula is written with decimal numbers, signs of arithmetic and comparison, and parentheses.  It
is read **as one reads arithmetic**: a sign with one operand binds tightest, then come `*` and `/`,
then `+` and `-`, then the orders, then the equalities, and signs of one tier go from left to right.
`Spells` says so of characters, without any tokens or trees.
-/

namespace StackCompiler

/-! ## Signs with two operands -/

inductive Sign where
  | equal | unequal | less | atMost | greater | atLeast | plus | minus | times | dividedBy
deriving DecidableEq, Repr

namespace Sign

def text : Sign → List Char
  | equal => ['=', '=']
  | unequal => ['!', '=']
  | less => ['<']
  | atMost => ['<', '=']
  | greater => ['>']
  | atLeast => ['>', '=']
  | plus => ['+']
  | minus => ['-']
  | times => ['*']
  | dividedBy => ['/']

/-- How tight the sign holds its operands. -/
def tier : Sign → Nat
  | equal | unequal => 0
  | less | atMost | greater | atLeast => 1
  | plus | minus => 2
  | times | dividedBy => 3

/-- What the sign makes of two words.  Arithmetic goes around; a division **drops the fraction**, and
there is none by zero, nor of the least number by -1. -/
def apply : Sign → Int64 → Int64 → Option Int64
  | equal, a, b => some (truth (a == b))
  | unequal, a, b => some (truth (a != b))
  | less, a, b => some (truth (decide (a < b)))
  | atMost, a, b => some (truth (decide (a ≤ b)))
  | greater, a, b => some (truth (decide (a > b)))
  | atLeast, a, b => some (truth (decide (a ≥ b)))
  | plus, a, b => some (a + b)
  | minus, a, b => some (a - b)
  | times, a, b => some (a * b)
  | dividedBy, a, b => if b = 0 ∨ (a = Int64.minValue ∧ b = -1) then none else some (a / b)

end Sign

/-! ## Formulas -/

inductive Formula where
  | literal (digits : List Char)
  | positive (operand : Formula)
  | negative (operand : Formula)
  | joined (sign : Sign) (lhs rhs : Formula)
deriving DecidableEq, Repr

/-- The word that the formula comes to, if no division in it fails. -/
def Formula.value : Formula → Option Int64
  | literal digits => some (Int64.ofNat (Nat.ofDigitChars 10 digits 0))
  | positive operand => operand.value
  | negative operand => operand.value.map fun v => -v
  | joined sign lhs rhs => lhs.value.bind fun a => rhs.value.bind (sign.apply a)

/-- The text spells the formula, as an operand of **that tier**: 0 to 3 are the tiers of the signs
with two operands, 4 is for a sign with one, and 5 for what is closed in itself.  Blanks may stand
before and behind every piece. -/
inductive Spells : Nat → List Char → Formula → Prop
  | literal {digits : List Char} (hne : digits ≠ []) (hdigits : ∀ c ∈ digits, c.isDigit = true) :
    Spells 5 digits (.literal digits)
  | group {s : List Char} {t : Formula} (h : Spells 0 s t) : Spells 5 ('(' :: (s ++ [')'])) t
  | positive {s : List Char} {t : Formula} (h : Spells 4 s t) : Spells 4 ('+' :: s) (.positive t)
  | negative {s : List Char} {t : Formula} (h : Spells 4 s t) : Spells 4 ('-' :: s) (.negative t)
  | joined {s s' : List Char} {t t' : Formula} (sign : Sign) (h : Spells sign.tier s t)
    (h' : Spells (sign.tier + 1) s' t') :
    Spells sign.tier (s ++ (sign.text ++ s')) (.joined sign t t')
  | looser {n : Nat} {s : List Char} {t : Formula} (h : Spells (n + 1) s t) : Spells n s t
  | before {n : Nat} {s : List Char} {t : Formula} {c : Char} (hc : Lexeme.isBlank c = true)
    (h : Spells n s t) : Spells n (c :: s) t
  | after {n : Nat} {s : List Char} {t : Formula} {c : Char} (hc : Lexeme.isBlank c = true)
    (h : Spells n s t) : Spells n (s ++ [c]) t

example : (Formula.joined .minus (.joined .minus (.literal ['7']) (.literal ['2']))
    (.literal ['1'])).value = some 4 := by decide +kernel

end StackCompiler
