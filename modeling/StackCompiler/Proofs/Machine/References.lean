import StackCompiler.Proofs.Machine.Run

/-!
# Proofs/Machine/References — what the lines of a listing refer to

A line refers to **at most one thing**: the label that it jumps to, the one that it calls, or a place
in memory.  `Listing.Refers` says that a listing jumps to certain labels only, and what holds of its
other references.
-/

namespace StackCompiler

/-- What a line refers to. -/
inductive Reference where
  | jump (target : Label)
  | call (target : Label)
  | place (a : Address)
deriving DecidableEq, Repr

def Instr.reference? : Instr → Option Reference
  | jump target | jumpIf _ target => some (.jump target)
  | call target => some (.call target)
  | pushAt a | load _ a | store a _ | loadSigned _ a | loadByte _ a | storeByte a _ | setByte a _
  | address _ a => some (.place a)
  | _ => none

def Line.reference? : Line → Option Reference
  | label _ => none
  | instr i => i.reference?

/-- A jump goes to one of the targets, and of other references `P` holds. -/
def Reference.Meets (P : Reference → Prop) (targets : List Label) : Reference → Prop
  | jump target => target ∈ targets
  | r => P r

namespace Listing

/-- The listing refers to the targets, and else to what `P` holds of. -/
def Refers (P : Reference → Prop) (targets : List Label) (l : Listing) : Prop :=
  ∀ line ∈ l, ∀ r, line.reference? = some r → r.Meets P targets

variable {P : Reference → Prop} {targets targets' : List Label} {l m : Listing}

theorem Refers.nil : Refers P targets [] :=
  fun _ h => absurd h List.not_mem_nil

theorem refers_append : (l ++ m).Refers P targets ↔ l.Refers P targets ∧ m.Refers P targets :=
  List.forall_mem_append

theorem Refers.append (hl : l.Refers P targets) (hm : m.Refers P targets) :
    (l ++ m).Refers P targets :=
  refers_append.mpr ⟨hl, hm⟩

/-- More targets **do no harm**. -/
theorem Refers.mono (h : l.Refers P targets) (hsub : targets ⊆ targets') : l.Refers P targets' := by
  intro line hline r hr
  have h := h line hline r hr
  cases r with
  | jump target => exact hsub h
  | call | place => exact h

theorem refers_label (name : Label) : Refers P targets [.label name] := by
  intro line hline r hr
  cases List.mem_singleton.mp hline
  cases hr

theorem refers_ofInstrs {instrs : List Instr} :
    (ofInstrs instrs).Refers P targets ↔
      ∀ i ∈ instrs, ∀ r, i.reference? = some r → r.Meets P targets :=
  List.forall_mem_map

/-- Instructions that refer to nothing. -/
theorem refers_of_none {instrs : List Instr} (h : ∀ i ∈ instrs, i.reference? = none) :
    (ofInstrs instrs).Refers P targets :=
  refers_ofInstrs.mpr fun i hi r hr => by
    rw [h i hi] at hr
    cases hr

end Listing

end StackCompiler
