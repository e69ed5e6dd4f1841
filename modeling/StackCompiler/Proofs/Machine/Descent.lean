import Mathlib.Logic.Relation
import StackCompiler.Machine.Listing

/-!
# Proofs/Machine/Descent — how far a path through a listing moves the stack down

A path goes from line to line: a jump leads to wherever its label stands, a conditional jump **both
ways**, and a call comes back with `rsp` and `rbp` as they were.  On the way `Depth` records how many
bytes below their value at entry the two registers point, as long as that can be told.

If at every jump the depth is the one that the lines in front of its target add up to, **taken in
the order in which they are written**, then no path has another depth (`Walk.depth_eq`).
-/

namespace StackCompiler

/-! ## Registers that are written -/

/-- The registers that an instruction gives a new value, the changes of `rsp` by `push`, `pop` and
`call` aside. -/
@[simp]
def Instr.changed : Instr → List Reg
  | pop r | move r _ | set r _ | load r _ | loadSigned r _ | loadByte r _ | address r _ | add r _
  | sub r _ | mul r _ | scale r _ | addConst r _ | subConst r _ | addLow r _ | negate r
  | increment r | decrement r | xor r _ | setIf _ r | widen r => [r]
  | spreadSign => [.rdx]
  | divSigned _ | divUnsigned _ => [.rax, .rdx]
  | syscall => [.rax, .rcx]
  | push _ | pushAt _ | store _ _ | storeByte _ _ | setByte _ _ | compare _ _ | compareConst _ _
  | test _ _ | jump _ | jumpIf _ _ | call _ | ret => []

/-! ## Depths -/

/-- How many bytes below the value of `rsp` at entry `rsp` and `rbp` point, where that is known. -/
structure Depth where
  down : Option Int
  base : Option Int
deriving DecidableEq, Repr

namespace Depth

/-- At entry `rbp` is the caller's. -/
def atEntry : Depth := ⟨some 0, none⟩

/-- The depth after an instruction. -/
def after (d : Depth) : Instr → Depth
  | .push _ | .pushAt _ => { d with down := d.down.map (· + 8) }
  | .pop .rsp => { d with down := none }
  | .pop .rbp => ⟨d.down.map (· - 8), none⟩
  | .pop _ => { d with down := d.down.map (· - 8) }
  | .move .rsp .rbp => { d with down := d.base }
  | .move .rbp .rsp => { d with base := d.down }
  | .addConst .rsp bytes => { d with down := d.down.map (· - bytes) }
  | .subConst .rsp bytes => { d with down := d.down.map (· + bytes) }
  | i =>
    ⟨if .rsp ∈ i.changed then none else d.down, if .rbp ∈ i.changed then none else d.base⟩

/-- The depth after a line. -/
def afterLine (d : Depth) : Line → Depth
  | .label _ => d
  | .instr i => d.after i

/-- The depth after lines **in the order in which they are written**. -/
def along (d : Depth) (l : Listing) : Depth :=
  l.foldl afterLine d

@[simp] theorem along_nil (d : Depth) : d.along [] = d := rfl

@[simp] theorem along_cons (d : Depth) (line : Line) (l : Listing) :
    d.along (line :: l) = (d.afterLine line).along l := rfl

@[simp] theorem along_append (d : Depth) (l m : Listing) :
    d.along (l ++ m) = (d.along l).along m :=
  List.foldl_append

end Depth

/-! ## Lines with their depths -/

namespace Listing

/-- Every line of the listing is as `P` says at the depth that the lines in front of it lead to. -/
def Each (P : Depth → Line → Prop) : Depth → Listing → Prop
  | _, [] => True
  | d, line :: l => P d line ∧ Each P (d.afterLine line) l

variable {P P' : Depth → Line → Prop} {d : Depth} {l m : Listing}

theorem each_append : Each P d (l ++ m) ↔ Each P d l ∧ Each P (d.along l) m := by
  induction l generalizing d with
  | nil => exact iff_of_eq (true_and _).symm
  | cons line l ih => rw [List.cons_append, Each, Each, ih, and_assoc, Depth.along_cons]

theorem Each.mono (h : Each P d l) (hP : ∀ d line, P d line → P' d line) : Each P' d l := by
  induction l generalizing d with
  | nil => trivial
  | cons line l ih => exact ⟨hP d line h.1, ih h.2⟩

/-- What holds of each line holds **at its place**. -/
theorem Each.at_place (h : Each P d l) {pos : Nat} {line : Line} (hline : l[pos]? = some line) :
    P (d.along (l.take pos)) line := by
  induction l generalizing d pos with
  | nil => cases hline
  | cons first l ih =>
    cases pos with
    | zero => cases hline; exact h.1
    | succ pos => exact ih h.2 hline

end Listing

/-! ## Paths -/

/-- A place in a listing, and the depth there. -/
structure Walker where
  pos : Nat
  depth : Depth

/-- The walker goes on by one line. -/
inductive WalkStep (l : Listing) : Walker → Walker → Prop
  | label {pos d name} : l[pos]? = some (.label name) → WalkStep l ⟨pos, d⟩ ⟨pos + 1, d⟩
  | next {pos d i} : l[pos]? = some (.instr i) → (∀ target, i ≠ .jump target) → i ≠ .ret →
      WalkStep l ⟨pos, d⟩ ⟨pos + 1, d.after i⟩
  | jump {pos pos' d target} : l[pos]? = some (.instr (.jump target)) →
      l[pos']? = some (.label target) → WalkStep l ⟨pos, d⟩ ⟨pos', d⟩
  | jumpIf {pos pos' d condition target} : l[pos]? = some (.instr (.jumpIf condition target)) →
      l[pos']? = some (.label target) → WalkStep l ⟨pos, d⟩ ⟨pos', d⟩

/-- A path from the start of the listing, which is where it is called, leads to the walker. -/
abbrev Walk (l : Listing) : Walker → Prop :=
  Relation.ReflTransGen (WalkStep l) ⟨0, .atEntry⟩

/-- The label that a line jumps to. -/
def Line.target? : Line → Option Label
  | .instr (.jump target) | .instr (.jumpIf _ target) => some target
  | _ => none

/-- Every jump is made at the depth that its target has **in the order of the lines**. -/
def Listing.JumpsLevel (l : Listing) : Prop :=
  ∀ pos pos' line target, l[pos]? = some line → line.target? = some target →
    l[pos']? = some (.label target) →
      Depth.atEntry.along (l.take pos') = Depth.atEntry.along (l.take pos)

theorem Depth.along_take_succ {d : Depth} {l : Listing} {pos : Nat} {line : Line}
    (h : l[pos]? = some line) : d.along (l.take (pos + 1)) = (d.along (l.take pos)).afterLine line := by
  rw [List.take_add_one, h, Option.toList_some, Depth.along_append]
  rfl

/-- **Every path comes to a place at one depth**, if the jumps of the listing are level. -/
theorem Walk.depth_eq {l : Listing} (hl : l.JumpsLevel) {w : Walker} (h : Walk l w) :
    w.depth = Depth.atEntry.along (l.take w.pos) := by
  induction h with
  | refl => rfl
  | tail _ hstep ih =>
    cases hstep with
    | label h => exact ih.trans (Depth.along_take_succ h).symm
    | next h _ _ => rw [Depth.along_take_succ h, ← ih]; rfl
    | jump h h' => exact ih.trans (hl _ _ _ _ h rfl h').symm
    | jumpIf h h' => exact ih.trans (hl _ _ _ _ h rfl h').symm

end StackCompiler
