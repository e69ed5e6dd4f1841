import Mathlib.Logic.Relation
import StackCompiler.Proofs.Machine.Machine

/-!
# Proofs/Machine/Run — running through a listing

A machine goes through a listing from line to line; a jump leads to the line of its label.  A run
ends where a `ret` or a `call` leads out of the listing.  Instructions in a row are run **all at
once** (`Runs.ofInstrs`), and where labels stand only once a jump leads to the one place that carries
its label (`Listing.place?_of_nodup`).
-/

namespace StackCompiler

/-- A machine at a line of a listing. -/
structure Moment where
  pos : Nat
  machine : Machine

/-- The place of a label in a listing. -/
def Listing.place? (l : Listing) (target : Label) : Option Nat :=
  l.idxOf? (.label target)

namespace Moment

/-- Goes on by one line, if the line does not lead out of the listing. -/
def next? (env : Environment) (l : Listing) (s : Moment) : Option Moment :=
  match l[s.pos]? with
  | none => none
  | some (.label _) => some ⟨s.pos + 1, s.machine⟩
  | some (.instr (.jump target)) => (l.place? target).map fun pos => ⟨pos, s.machine⟩
  | some (.instr (.jumpIf condition target)) =>
    s.machine.flags.bind fun flags =>
      if flags.allows condition then (l.place? target).map fun pos => ⟨pos, s.machine⟩
      else some ⟨s.pos + 1, s.machine⟩
  | some (.instr i) => (i.exec env s.machine).map fun m => ⟨s.pos + 1, m⟩

end Moment

/-- The one moment leads to the other. -/
abbrev Runs (env : Environment) (l : Listing) : Moment → Moment → Prop :=
  Relation.ReflTransGen fun s s' => s.next? env l = some s'

/-! ## Instructions in a row -/

/-- What instructions make of a machine, one after the other. -/
def execAll (env : Environment) : List Instr → Machine → Option Machine
  | [], m => some m
  | i :: instrs, m => (i.exec env m).bind (execAll env instrs)

theorem execAll_append (env : Environment) (is js : List Instr) (m : Machine) :
    execAll env (is ++ js) m = (execAll env is m).bind (execAll env js) := by
  induction is generalizing m with
  | nil => rfl
  | cons i is ih =>
    rw [List.cons_append, execAll, execAll, Option.bind_assoc]
    exact congrArg _ (funext ih)

/-! ## Pieces of a listing

What a piece does is said where it stands: in a listing that **starts with** what is in front of it
and with the piece itself. -/

section Pieces

variable {env : Environment} {l pre : Listing} {m m' m'' : Machine} {line : Line}

theorem getElem?_next (h : pre ++ [line] <+: l) : l[pre.length]? = some line := by
  obtain ⟨post, rfl⟩ := h
  simp

/-- **Instructions in a row are run one after the other.** -/
theorem Runs.ofInstrs (instrs : List Instr) : ∀ {pre : Listing} {m : Machine},
    pre ++ Listing.ofInstrs instrs <+: l → execAll env instrs m = some m' →
      Runs env l ⟨pre.length, m⟩ ⟨pre.length + instrs.length, m'⟩ := by
  induction instrs with
  | nil =>
    intro pre m _ h
    cases h
    exact .refl
  | cons i instrs ih =>
    intro pre m hl h
    obtain ⟨m₁, hm₁, hrest⟩ := Option.bind_eq_some_iff.mp h
    have hline : l[pre.length]? = some (.instr i) :=
      getElem?_next (.trans (by simp [Listing.ofInstrs]) hl)
    have hl' : pre ++ [.instr i] ++ Listing.ofInstrs instrs <+: l := by
      simpa [Listing.ofInstrs] using hl
    have hrun := ih hl' hrest
    rw [List.length_append, List.length_singleton, add_assoc, add_comm 1] at hrun
    refine .head ?_ hrun
    unfold Moment.next?
    rw [hline]
    cases i with
    | jump | jumpIf => cases hm₁
    | _ => simp only [hm₁, Option.map_some]

/-- The listing is instructions in a row, **which lead the one machine to the other**. -/
def Listing.Leads (env : Environment) (l : Listing) (m m' : Machine) : Prop :=
  ∃ instrs, l = ofInstrs instrs ∧ execAll env instrs m = some m'

theorem Listing.Leads.nil (m : Machine) : Listing.Leads env [] m m :=
  ⟨[], rfl, rfl⟩

theorem Listing.Leads.append {a b : Listing} (ha : a.Leads env m m') (hb : b.Leads env m' m'') :
    (a ++ b).Leads env m m'' := by
  obtain ⟨is, rfl, his⟩ := ha
  obtain ⟨js, rfl, hjs⟩ := hb
  refine ⟨is ++ js, List.map_append.symm, ?_⟩
  rw [execAll_append, his]
  exact hjs

theorem Listing.Leads.runs {seg : Listing} (h : seg.Leads env m m') (hl : pre ++ seg <+: l) :
    Runs env l ⟨pre.length, m⟩ ⟨(pre ++ seg).length, m'⟩ := by
  obtain ⟨instrs, rfl, h⟩ := h
  rw [List.length_append, Listing.ofInstrs, List.length_map]
  exact Runs.ofInstrs instrs hl h

/-- A label is passed. -/
theorem Runs.label {name : Label} (hl : pre ++ [.label name] <+: l) (m : Machine) :
    Runs env l ⟨pre.length, m⟩ ⟨(pre ++ [Line.label name]).length, m⟩ := by
  refine .single ?_
  unfold Moment.next?
  rw [getElem?_next hl, List.length_append, List.length_singleton]

/-- A listing that starts with a label and instructions in a row **runs through these**. -/
theorem Runs.entry {name : Label} {instrs : List Instr}
    (hl : .label name :: Listing.ofInstrs instrs <+: l) (h : execAll env instrs m = some m') :
    Runs env l ⟨0, m⟩ ⟨instrs.length + 1, m'⟩ := by
  have hlabel : [] ++ [.label name] <+: l := .trans (by simp) hl
  have hruns := (Runs.label hlabel m).trans (Runs.ofInstrs instrs hl h)
  rwa [add_comm]

/-- A jump leads to the place of its label. -/
theorem Runs.jump {target : Label} {pos : Nat} (hl : pre ++ [.instr (.jump target)] <+: l)
    (hpos : l.place? target = some pos) (m : Machine) :
    Runs env l ⟨pre.length, m⟩ ⟨pos, m⟩ := by
  refine .single ?_
  unfold Moment.next?
  rw [getElem?_next hl]
  simp only [hpos, Option.map_some]

/-- A conditional jump leads there **if the comparison came out so**, and else on. -/
theorem Runs.jumpIf {condition : Condition} {target : Label} {pos : Nat} {flags : Flags}
    (hl : pre ++ [.instr (.jumpIf condition target)] <+: l) (hpos : l.place? target = some pos)
    (hflags : m.flags = some flags) :
    Runs env l ⟨pre.length, m⟩ ⟨if flags.allows condition then pos
      else (pre ++ [Line.instr (.jumpIf condition target)]).length, m⟩ := by
  refine .single ?_
  unfold Moment.next?
  rw [getElem?_next hl, List.length_append, List.length_singleton]
  simp only [hflags, hpos, Option.bind_some, Option.map_some]
  split <;> rfl

end Pieces

/-! ## Places of labels -/

/-- The labels of a listing, in their order. -/
def Listing.labels : Listing → List Label
  | [] => []
  | .label name :: l => name :: labels l
  | .instr _ :: l => labels l

@[simp] theorem Listing.labels_append (l m : Listing) : (l ++ m).labels = l.labels ++ m.labels := by
  induction l with
  | nil => rfl
  | cons line l ih =>
    cases line with
    | label name => rw [List.cons_append, labels, labels, ih, List.cons_append]
    | instr i => rw [List.cons_append, labels, labels, ih]

@[simp] theorem Listing.labels_ofInstrs (instrs : List Instr) :
    (Listing.ofInstrs instrs).labels = [] := by
  induction instrs with
  | nil => rfl
  | cons i instrs ih => exact ih

theorem Listing.mem_labels {l : Listing} {name : Label} : name ∈ l.labels ↔ .label name ∈ l := by
  induction l with
  | nil => simp [labels]
  | cons line l ih => cases line <;> simp [labels, ih]

/-- A label that stands **only once** has the place where it stands. -/
theorem Listing.place?_of_nodup {l pre : Listing} {name : Label} (h : l.labels.Nodup)
    (hl : pre ++ [.label name] <+: l) : l.place? name = some pre.length := by
  obtain ⟨post, rfl⟩ := hl
  have hpre : Line.label name ∉ pre := by
    rw [labels_append, labels_append] at h
    intro hmem
    exact (List.nodup_append.mp (List.nodup_append.mp h).1).2.2 name (mem_labels.mpr hmem) name
      List.mem_cons_self rfl
  unfold place?
  rw [List.idxOf?_eq_some_iff]
  refine ⟨by simp, by simp, fun j hj heq => hpre ?_⟩
  simp only [List.append_assoc, List.getElem_append_left hj] at heq
  exact heq ▸ List.getElem_mem hj

end StackCompiler
