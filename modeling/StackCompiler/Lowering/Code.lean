import StackCompiler.Diagnostic.Failure
import StackCompiler.Machine.Listing

/-!
# Lowering/Code — listings that know how high the stack is

What a piece of code looks like depends on the height of the stack where it starts: a call is made
at an **even** height only.  `Code` is a listing as a function of that height, and code placed after
other code starts where the other leaves the stack.
-/

namespace StackCompiler

/-- A listing for each height of the stack, in words above the frame. -/
def Code : Type := Int → Except Fault Listing

namespace Code

/-- Code that is the same at every height. -/
def ofInstrs (instrs : List Instr) : Code :=
  fun _ => .ok (Listing.ofInstrs instrs)

def label (l : Label) : Code :=
  fun _ => .ok [.label l]

def nothing : Code :=
  fun _ => .ok []

/-- No code at all. -/
def broken (fault : Fault) : Code :=
  fun _ => .error fault

/-- The second piece starts at the height at which the first one **leaves the stack**. -/
def followedBy (first second : Code) : Code := fun height => do
  let a ← first height
  let b ← second (height + a.growth)
  return a ++ b

instance : Append Code := ⟨followedBy⟩

theorem append_def (first second : Code) (height : Int) :
    (first ++ second) height = (do
      let a ← first height
      let b ← second (height + a.growth)
      return a ++ b) := rfl

/-- Code succeeds **piece by piece**. -/
theorem append_eq_ok_iff {first second : Code} {height : Int} {l : Listing} :
    (first ++ second) height = .ok l ↔
      ∃ a b, first height = .ok a ∧ second (height + a.growth) = .ok b ∧ l = a ++ b := by
  rw [append_def]
  cases hfirst : first height with
  | error fault => simp [bind, Except.bind]
  | ok a =>
    cases hsecond : second (height + a.growth) with
    | error fault => simp [bind, Except.bind, hsecond]
    | ok b => simp [bind, Except.bind, hsecond, pure, Except.pure, eq_comm]

/-- Takes words off the stack. -/
def discard : Nat → Code
  | 0 => nothing
  | words => ofInstrs [.addConst .rsp (8 * words)]

/-- A call, at an even height. -/
def call (target : Label) : Code := fun height =>
  .ok (Listing.ofInstrs (.set .rax 0 ::
    (if height.tmod 2 = 1 then [.subConst .rsp 8, .call target, .addConst .rsp 8]
      else [.call target])))

end Code

end StackCompiler
