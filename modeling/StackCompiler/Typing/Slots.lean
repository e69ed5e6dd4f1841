import StackCompiler.Typing.Expressions

/-!
# Typing/Slots — places in the frame

A local gets its slot at the **first assignment to it**, right below the slots that were given
before; a slot is never given twice.  Slots and the types of variables grow side by side, so both
are the state of one walk over a body.
-/

namespace StackCompiler.Typing

/-- The variables, and the bytes of the frame that have been given away. -/
structure Slots where
  vars : List Variable
  taken : Int
deriving Repr

/-- A step of the walk over a body. -/
abbrev Layout := StateT Slots (Except Failure)

/-- The expression with its types, as the variables stand. -/
def typedHere (s : Surroundings) (e : Expr) : Layout Expr := do
  typed s (← get).vars e

/-- Gives the variable of that number a type, if it has none. -/
def giveType (id : VarId) (ty : Ty) : Layout Unit :=
  modify fun slots =>
    { slots with
      vars := slots.vars.modify id fun v => if v.ty.isResolved then v else { v with ty := ty } }

/-- Gives a local its slot, if it has none. -/
def place (id : VarId) : Layout Unit := do
  let slots ← get
  let v ← variableOf slots.vars id
  if !v.isLocal || v.offset ≠ 0 then return
  if !v.ty.isResolved then refuse (.uninferable v.name) v.loc
  match Word.fit? (slots.taken + v.ty.size) with
  | none => refuse (.slotTooLarge v.name) v.loc
  | some stop =>
    set ({ vars := slots.vars.modify id fun v => { v with offset := stop }, taken := stop } : Slots)

end StackCompiler.Typing
