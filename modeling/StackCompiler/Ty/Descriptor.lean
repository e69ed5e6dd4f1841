import StackCompiler.Ty.Basic

/-!
# Ty/Descriptor — types as flat records

A descriptor gives a type by its kind, an optional base and a length, whether or not the kind has
use for them.  It **describes** the type that is left when what the kind has no use for is dropped
(`Descriptor.ty`); two descriptors are equal only if all their parts are.
-/

namespace StackCompiler

/-- A type by its kind, a length and, in the second form, a base. -/
inductive Descriptor where
  | bare (kind : Ty.Kind) (len : Int)
  | based (kind : Ty.Kind) (base : Descriptor) (len : Int)
deriving DecidableEq, Repr, Inhabited

namespace Descriptor

def kind : Descriptor → Ty.Kind
  | bare kind _ | based kind _ _ => kind

def len : Descriptor → Int
  | bare _ len | based _ _ len => len

def base? : Descriptor → Option Descriptor
  | bare _ _ => none
  | based _ base _ => some base

end Descriptor

/-- The type of a kind over a base and a length. -/
def Ty.Kind.applied (base : Ty) (len : Int) : Ty.Kind → Ty
  | .unknown => .unknown
  | .bool => .bool
  | .int8 => .int8
  | .int32 => .int32
  | .int => .int
  | .string => .string
  | .ptr => .ptr base
  | .array => .array base len

namespace Descriptor

/-- The type that the descriptor describes; a **missing base** is the unknown type. -/
def ty : Descriptor → Ty
  | bare kind len => kind.applied .unknown len
  | based kind base len => kind.applied base.ty len

/-- The descriptor of a type, which has a base exactly where the type has one. -/
def ofTy : Ty → Descriptor
  | .ptr base => based .ptr (ofTy base) 1
  | .array base len => based .array (ofTy base) len
  | t => bare t.kind 1

@[simp] theorem kind_ty (d : Descriptor) : d.ty.kind = d.kind := by
  cases d with
  | bare k _ => cases k <;> rfl
  | based k _ _ => cases k <;> rfl

/-- A type is described **by its descriptor**. -/
@[simp] theorem ty_ofTy (t : Ty) : (ofTy t).ty = t := by
  induction t with
  | ptr base ih => simp [ofTy, ty, Ty.Kind.applied, ih]
  | array base len ih => simp [ofTy, ty, Ty.Kind.applied, ih]
  | _ => rfl

end Descriptor

end StackCompiler
