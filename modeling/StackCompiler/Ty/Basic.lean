import StackCompiler.Word

/-!
# Ty/Basic — types and their sizes

A type is a scalar, a pointer to a type or an array of a type; `unknown` is the type of what has
**not been typed yet** and may stand under a pointer.  `text` writes a type as the source does,
`checkedSize` measures it in bytes and `words` counts what a value takes on the evaluation stack.
-/

namespace StackCompiler

/-- The form of a type, without what it is built from. -/
inductive Ty.Kind where
  | unknown | bool | int8 | int32 | int | string | ptr | array
deriving DecidableEq, Repr, Inhabited

/-- The types of the language. -/
inductive Ty where
  | unknown
  | bool
  | int8
  | int32
  | int
  | string
  | ptr (base : Ty)
  | array (base : Ty) (len : Int)
deriving DecidableEq, Repr, Inhabited

namespace Ty

def kind : Ty → Kind
  | unknown => .unknown
  | bool => .bool
  | int8 => .int8
  | int32 => .int32
  | int => .int
  | string => .string
  | ptr _ => .ptr
  | array _ _ => .array

/-- The type that a pointer points at or an array holds. -/
def base? : Ty → Option Ty
  | ptr base | array base _ => some base
  | _ => none

def isResolved (t : Ty) : Bool := t.kind != .unknown

def isPtr (t : Ty) : Bool := t.kind == .ptr

def isArray (t : Ty) : Bool := t.kind == .array

def isString (t : Ty) : Bool := t.kind == .string

/-! ## Spelling -/

/-- The type of a type name; `int64` and `byte` are **second names**. -/
def ofName? (name : String) : Option Ty :=
  if name = "int" ∨ name = "int64" then some int
  else if name = "int32" then some int32
  else if name = "int8" ∨ name = "byte" then some int8
  else if name = "bool" then some bool
  else if name = "string" then some string
  else none

/-- The type as the source spells it. -/
def text : Ty → String
  | unknown => "none"
  | bool => "bool"
  | int8 => "int8"
  | int32 => "int32"
  | int => "int"
  | string => "string"
  | ptr base => "*" ++ base.text
  | array base len => "[" ++ toString len ++ "]" ++ base.text

/-! ## Size -/

/-- The bytes of a value in memory; `none` if an array's size **leaves the word**.  An `int32`
takes a whole word. -/
def checkedSize : Ty → Option Int
  | unknown => some 0
  | bool | int8 => some 1
  | int32 | int | ptr _ => some 8
  | string => some 16
  | array base len => base.checkedSize.bind fun size => Word.fit? (size * len)

/-- The bytes of a value in memory, or the greatest number of a word if they do not fit one. -/
def size (t : Ty) : Int :=
  t.checkedSize.getD Word.greatest

/-- The words of a value on the evaluation stack: a string is an address and a length, an array
stands there as **its address**. -/
def words : Ty → Nat
  | unknown => 0
  | string => 2
  | _ => 1

/-- The words of values of these types together. -/
def totalWords : List Ty → Nat
  | [] => 0
  | t :: ts => t.words + totalWords ts

@[simp] theorem totalWords_append (ts us : List Ty) :
    totalWords (ts ++ us) = totalWords ts + totalWords us := by
  induction ts with
  | nil => exact (Nat.zero_add _).symm
  | cons t ts ih => rw [List.cons_append, totalWords, totalWords, ih, Nat.add_assoc]

@[simp] theorem words_ptr (base : Ty) : (ptr base).words = 1 := rfl

@[simp] theorem words_array (base : Ty) (len : Int) : (array base len).words = 1 := rfl

theorem isResolved_iff {t : Ty} : t.isResolved = true ↔ t ≠ unknown := by
  cases t <;> simp [isResolved, kind]

theorem words_eq_zero_iff {t : Ty} : t.words = 0 ↔ t = unknown := by
  cases t <;> simp [words]

end Ty

end StackCompiler
