import StackCompiler.Lowering.Code

/-!
# Proofs/Machine/Relabelled — listings under other numbers

The labels of branches, loops and strings are numbers.  To say that two listings are the same **but for
these numbers**, they are mapped: `relabelled` gives the labels the numbers of a `Relabelling` and
leaves all else as it is, so that the stack grows as it did.
-/

namespace StackCompiler

/-- Other numbers for the labels of branches and loops, and for those of strings. -/
structure Relabelling where
  flow : Nat → Nat
  string : Nat → Nat

namespace Relabelling

/-- The numbers that labels have already. -/
def same : Relabelling := ⟨id, id⟩

/-- The numbers above `base` become those above `base'`, **as many as are taken**. -/
def Shifts (m : Relabelling) (base base' count : Nat) : Prop :=
  ∀ i < count, m.flow (base + i + 1) = base' + i + 1

variable {m : Relabelling} {base base' count count' : Nat}

theorem shifts_same (base count : Nat) : same.Shifts base base count :=
  fun _ _ => rfl

theorem Shifts.left (h : m.Shifts base base' (count + count')) : m.Shifts base base' count :=
  fun i hi => h i (by omega)

theorem Shifts.right (h : m.Shifts base base' (count + count')) :
    m.Shifts (base + count) (base' + count) count' := by
  intro i hi
  have h := h (count + i) (by omega)
  rwa [← Nat.add_assoc, ← Nat.add_assoc] at h

/-- The first of the numbers. -/
theorem Shifts.head (h : m.Shifts base base' (1 + count)) : m.flow (base + 1) = base' + 1 :=
  h 0 (by omega)

end Relabelling

section Relabelled

variable (m : Relabelling)

def Label.relabelled : Label → Label
  | elseOf n => elseOf (m.flow n)
  | beginOf n => beginOf (m.flow n)
  | endOf n => endOf (m.flow n)
  | string i => string (m.string i)
  | descriptor i => descriptor (m.string i)
  | l => l

def Address.relabelled : Address → Address
  | data l => data (l.relabelled m)
  | a => a

def Instr.relabelled : Instr → Instr
  | pushAt a => pushAt (a.relabelled m)
  | load dst a => load dst (a.relabelled m)
  | store a src => store (a.relabelled m) src
  | loadSigned dst a => loadSigned dst (a.relabelled m)
  | loadByte dst a => loadByte dst (a.relabelled m)
  | storeByte a src => storeByte (a.relabelled m) src
  | setByte a value => setByte (a.relabelled m) value
  | address dst a => address dst (a.relabelled m)
  | jump target => jump (target.relabelled m)
  | jumpIf condition target => jumpIf condition (target.relabelled m)
  | call target => call (target.relabelled m)
  | i => i

def Line.relabelled : Line → Line
  | label l => label (l.relabelled m)
  | instr i => instr (i.relabelled m)

/-- The listing under other numbers. -/
def Listing.relabelled (l : Listing) : Listing :=
  l.map (Line.relabelled m)

/-! ## What stays -/

theorem Instr.growth_relabelled (i : Instr) : (i.relabelled m).growth = i.growth := by
  cases i <;> rfl

@[simp] theorem Listing.growth_relabelled (l : Listing) : (l.relabelled m).growth = l.growth := by
  induction l with
  | nil => rfl
  | cons line l ih =>
    have hline : (line.relabelled m).growth = line.growth := by
      cases line with
      | label => rfl
      | instr i => exact i.growth_relabelled m
    change (line.relabelled m).growth + Listing.growth (Listing.relabelled m l) = _
    rw [hline, ih, growth_cons]

@[simp] theorem Listing.relabelled_append (l l' : Listing) :
    (l ++ l').relabelled m = l.relabelled m ++ l'.relabelled m :=
  List.map_append

theorem Listing.relabelled_ofInstrs (instrs : List Instr) :
    (ofInstrs instrs).relabelled m = ofInstrs (instrs.map (Instr.relabelled m)) := by
  rw [ofInstrs, ofInstrs, relabelled, List.map_map, List.map_map]
  rfl

end Relabelled

/-- Under the numbers that it has already, a listing is **what it is**. -/
theorem Listing.relabelled_same (l : Listing) : l.relabelled .same = l := by
  have hlabel (name : Label) : name.relabelled .same = name := by cases name <;> rfl
  have haddress (a : Address) : a.relabelled .same = a := by
    cases a with
    | data name => exact congrArg Address.data (hlabel name)
    | _ => rfl
  have hinstr (i : Instr) : i.relabelled .same = i := by
    cases i <;> simp only [Instr.relabelled, hlabel, haddress]
  refine (List.map_congr_left fun line _ => ?_).trans (List.map_id l)
  cases line with
  | label name => exact congrArg Line.label (hlabel name)
  | instr i => exact congrArg Line.instr (hinstr i)

/-! ## Code -/

namespace Code

variable (m : Relabelling)

/-- The code under other numbers, at each height. -/
def relabelled (c : Code) : Code :=
  fun height => (c height).map (Listing.relabelled m)

@[simp] theorem relabelled_append (c d : Code) :
    (c ++ d).relabelled m = c.relabelled m ++ d.relabelled m := by
  funext height
  rw [relabelled, append_def, append_def, relabelled]
  cases c height with
  | error fault => rfl
  | ok a =>
    change Except.map _ (d (height + a.growth) >>= _) =
      (d.relabelled m (height + (a.relabelled m).growth) >>= _)
    rw [Listing.growth_relabelled, relabelled]
    cases d (height + a.growth) with
    | error fault => rfl
    | ok b => exact congrArg Except.ok (Listing.relabelled_append m a b)

@[simp] theorem relabelled_ofInstrs (instrs : List Instr) :
    (ofInstrs instrs).relabelled m = ofInstrs (instrs.map (Instr.relabelled m)) :=
  funext fun _ => congrArg Except.ok (Listing.relabelled_ofInstrs m instrs)

@[simp] theorem relabelled_label (l : Label) : (label l).relabelled m = label (l.relabelled m) :=
  rfl

@[simp] theorem relabelled_nothing : nothing.relabelled m = nothing :=
  rfl

@[simp] theorem relabelled_broken (fault : Fault) : (broken fault).relabelled m = broken fault :=
  rfl

@[simp] theorem relabelled_discard (words : Nat) : (discard words).relabelled m = discard words := by
  cases words <;> rfl

@[simp] theorem relabelled_call (target : Label) :
    (call target).relabelled m = call (target.relabelled m) := by
  funext height
  refine congrArg Except.ok ((Listing.relabelled_ofInstrs m _).trans (congrArg _ ?_))
  rw [List.map_cons]
  split <;> rfl

end Code

end StackCompiler
