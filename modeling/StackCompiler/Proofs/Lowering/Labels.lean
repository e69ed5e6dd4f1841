import StackCompiler.Lowering.Statements
import StackCompiler.Proofs.Machine.Run
import StackCompiler.Proofs.Syntax.Everywhere

/-!
# Proofs/Lowering/Labels — every label is its own

Statements share out the numbers above a base among their labels, so **no label stands twice** in a
body: those of a statement lie between the base where it starts and the one where the next starts
(`Code.Numbers`).  A branch and a loop take one number for two labels.
-/

namespace StackCompiler

/-! ## Code at some height -/

/-- At some height, the code is that listing. -/
def Code.Gives (code : Code) (l : Listing) : Prop :=
  ∃ height, code height = .ok l

namespace Code.Gives

variable {first second : Code} {l : Listing} {instrs : List Instr}

theorem append (h : (first ++ second).Gives l) : ∃ a b, first.Gives a ∧ second.Gives b ∧ l = a ++ b := by
  obtain ⟨height, h⟩ := h
  obtain ⟨a, b, ha, hb, rfl⟩ := Code.append_eq_ok_iff.mp h
  exact ⟨a, b, ⟨_, ha⟩, ⟨_, hb⟩, rfl⟩

theorem ofInstrs (h : (Code.ofInstrs instrs).Gives l) : l = Listing.ofInstrs instrs := by
  obtain ⟨height, h⟩ := h
  cases h
  rfl

theorem label {name : Label} (h : (Code.label name).Gives l) : l = [.label name] := by
  obtain ⟨height, h⟩ := h
  cases h
  rfl

theorem nothing (h : Code.nothing.Gives l) : l = [] := by
  obtain ⟨height, h⟩ := h
  cases h
  rfl

theorem not_broken {fault : Fault} (h : (Code.broken fault).Gives l) : False := by
  obtain ⟨height, h⟩ := h
  cases h

end Code.Gives

/-! ## Numbers of labels -/

/-- The number of a label that control flow in a body goes to. -/
def Label.number? : Label → Option Nat
  | elseOf n | beginOf n | endOf n => some n
  | _ => none

/-- The labels differ from each other, and their numbers are above the one bound and **up to the
other**. -/
structure Numbered (low high : Nat) (names : List Label) : Prop where
  le : low ≤ high
  nodup : names.Nodup
  bounds : ∀ name ∈ names, ∃ n, name.number? = some n ∧ low < n ∧ n ≤ high

namespace Numbered

variable {low mid high : Nat} {names names' : List Label}

theorem nil (h : low ≤ high) : Numbered low high [] :=
  ⟨h, .nil, fun _ h => absurd h List.not_mem_nil⟩

theorem append (h : Numbered low mid names) (h' : Numbered mid high names') :
    Numbered low high (names ++ names') := by
  refine ⟨h.le.trans h'.le, List.nodup_append.mpr ⟨h.nodup, h'.nodup, fun a ha b hb hab => ?_⟩,
    fun name hname => ?_⟩
  · obtain ⟨n, hn, -, hle⟩ := h.bounds a ha
    obtain ⟨n', hn', hlt, -⟩ := h'.bounds b hb
    cases (hab ▸ hn).symm.trans hn'
    omega
  · rcases List.mem_append.mp hname with hname | hname
    · obtain ⟨n, hn, hlt, hle⟩ := h.bounds name hname
      exact ⟨n, hn, hlt, hle.trans h'.le⟩
    · obtain ⟨n, hn, hlt, hle⟩ := h'.bounds name hname
      exact ⟨n, hn, h.le.trans_lt hlt, hle⟩

theorem perm (h : Numbered low high names) (hp : names.Perm names') : Numbered low high names' :=
  ⟨h.le, hp.nodup_iff.mp h.nodup, fun name hname => h.bounds name (hp.mem_iff.mpr hname)⟩

theorem eq_nil {n : Nat} (h : Numbered n n names) : names = [] := by
  refine List.eq_nil_iff_forall_not_mem.mpr fun name hname => ?_
  obtain ⟨m, -, hlt, hle⟩ := h.bounds name hname
  omega

/-- The two labels of **one number**. -/
theorem pair {n : Nat} {name name' : Label} (hname : name.number? = some (n + 1))
    (hname' : name'.number? = some (n + 1)) (hne : name ≠ name') :
    Numbered n (n + 1) [name, name'] := by
  refine ⟨Nat.le_succ n, by simpa using hne, fun a ha => ⟨n + 1, ?_, Nat.lt_succ_self n, le_rfl⟩⟩
  rcases List.mem_pair.mp ha with rfl | rfl
  · exact hname
  · exact hname'

end Numbered

/-! ## Numbers of code -/

/-- The labels of the code have numbers above the one bound and up to the other. -/
def Code.Numbers (low high : Nat) (code : Code) : Prop :=
  ∀ l, code.Gives l → Numbered low high l.labels

namespace Code.Numbers

variable {first second : Code} {low mid high : Nat}

theorem append (h : first.Numbers low mid) (h' : second.Numbers mid high) :
    (first ++ second).Numbers low high := by
  intro l hl
  obtain ⟨a, b, ha, hb, rfl⟩ := hl.append
  rw [Listing.labels_append]
  exact (h a ha).append (h' b hb)

theorem ofInstrs (instrs : List Instr) : (Code.ofInstrs instrs).Numbers low low := by
  intro l hl
  rw [hl.ofInstrs, Listing.labels_ofInstrs]
  exact .nil le_rfl

theorem nothing : Code.nothing.Numbers low low := by
  intro l hl
  rw [hl.nothing]
  exact .nil le_rfl

theorem broken (fault : Fault) : (Code.broken fault).Numbers low high :=
  fun _ hl => hl.not_broken.elim

theorem call (target : Label) : (Code.call target).Numbers low low := by
  rintro l ⟨height, hl⟩
  cases hl
  rw [Listing.labels_ofInstrs]
  exact .nil le_rfl

theorem discard (words : Nat) : (Code.discard words).Numbers low low := by
  cases words with
  | zero => exact nothing
  | succ words => exact ofInstrs _

end Code.Numbers

namespace Lowering

variable {p : Program} {n : Nat}

/-! ## Expressions -/

theorem numbers_fromAddress (ty : Ty) (wanted : Wanted) : (fromAddress ty wanted).Numbers n n := by
  cases wanted with
  | address => exact .nothing
  | value =>
    cases ty with
    | array base len => exact .nothing
    | _ => exact .ofInstrs _

theorem numbers_store (ty : Ty) : (store ty).Numbers n n := by
  unfold store
  split
  · exact .ofInstrs _
  · split <;> exact .ofInstrs _

theorem numbers_valueOnly {code : Code} (wanted : Wanted) (h : code.Numbers n n) :
    (valueOnly wanted code).Numbers n n := by
  cases wanted with
  | value => exact h
  | address => exact .broken _

theorem numbers_variableAddress (id : VarId) : (variableAddress p id).Numbers n n := by
  unfold variableAddress
  split
  · exact .broken _
  · split <;> exact .ofInstrs _

theorem numbers_descriptorAddress (string : Nat) : (descriptorAddress p string).Numbers n n := by
  unfold descriptorAddress
  split
  · exact .ofInstrs _
  · exact .broken _

theorem numbers_popArguments (words : Nat) : (popArguments words).Numbers n n := by
  unfold popArguments
  split
  · exact .ofInstrs _
  · exact .broken _

theorem numbers_exprsCode : ∀ es : List Expr, (∀ e ∈ es, (exprCode p .value e).Numbers n n) →
    (exprsCode p es).Numbers n n
  | [], _ => .nothing
  | e :: es, h => by
    obtain ⟨he, hes⟩ := List.forall_mem_cons.mp h
    rw [exprsCode]
    exact he.append (numbers_exprsCode es hes)

/-- **The code of an expression has no labels.** -/
theorem numbers_exprCode (e : Expr) : ∀ wanted, (exprCode p wanted e).Numbers n n := by
  induction e with
  | num value ty loc =>
    intro wanted
    rw [exprCode]
    exact numbers_valueOnly wanted (.ofInstrs _)
  | str string ty loc =>
    intro wanted
    rw [exprCode]
    exact (numbers_descriptorAddress string).append (numbers_fromAddress ty wanted)
  | var id ty loc =>
    intro wanted
    rw [exprCode]
    exact (numbers_variableAddress id).append (numbers_fromAddress ty wanted)
  | addr operand ty loc ih =>
    intro wanted
    rw [exprCode]
    exact numbers_valueOnly wanted (ih .address)
  | deref operand ty loc ih =>
    intro wanted
    rw [exprCode]
    exact (ih .value).append (numbers_fromAddress ty wanted)
  | binary op lhs rhs ty loc ihl ihr =>
    intro wanted
    rw [exprCode]
    exact numbers_valueOnly wanted (((ihl .value).append (ihr .value)).append (.ofInstrs _))
  | index base position ty loc ihb ihp =>
    intro wanted
    rw [exprCode]
    refine ((Code.Numbers.append ?_ (ihp .value)).append (.ofInstrs _)).append
      (numbers_fromAddress ty wanted)
    split
    · exact ihb .address
    · exact (ihb .address).append (.ofInstrs _)
    · exact ihb .value
  | call name args ty loc ih =>
    intro wanted
    rw [exprCode]
    exact numbers_valueOnly wanted ((((numbers_exprsCode args fun e he => ih e he .value).append
      (numbers_popArguments _)).append (.call _)).append (.ofInstrs _))

/-! ## Statements -/

theorem numbers_unlessCode (cond : Expr) (target : Label) : (unlessCode p cond target).Numbers n n :=
  (numbers_exprCode cond .value).append (.ofInstrs _)

theorem numbers_returnCode (exit : Label) (value : Option Expr) :
    (returnCode p exit value).Numbers n n := by
  cases value with
  | none => exact .ofInstrs _
  | some value => exact (numbers_exprCode value .value).append (.ofInstrs _)

theorem numbers_storesCode : ∀ targets : List Expr, (storesCode p targets).Numbers n n
  | [] => .nothing
  | target :: targets =>
    (numbers_storesCode targets).append
      (((numbers_exprCode target .address).append (numbers_store _)).append (.discard _))

theorem numbers_printCode (arg : Expr) : (printCode p arg).Numbers n n := by
  refine (numbers_exprCode arg .value).append ?_
  split <;> exact (Code.Numbers.ofInstrs _).append (.call _)

theorem numbers_printsCode (printer : Printer) :
    ∀ args : List Expr, (printsCode p printer args).Numbers n n
  | [] => .nothing
  | arg :: args => by
    refine (Code.Numbers.append ?_ (numbers_printCode arg)).append (numbers_printsCode printer args)
    split
    · exact .call _
    · exact .nothing

theorem numbers_printingCode (printer : Printer) (args : List Expr) :
    (printingCode p printer args).Numbers n n := by
  refine @Code.Numbers.append _ _ n n n ?_ ?_
  · split
    · exact .nothing
    · exact (numbers_printCode _).append (numbers_printsCode printer _)
  · split
    · exact .call _
    · exact .nothing

theorem numbers_stmtsCode {exit : Label} : ∀ (ss : List Stmt),
    (∀ s ∈ ss, ∀ base, (stmtCode p exit base s).Numbers base (base + s.labelCount)) →
    ∀ base, (stmtsCode p exit base ss).Numbers base (base + Stmt.labelCounts ss)
  | [], _, base => by
    rw [stmtsCode]
    exact Code.Numbers.nothing
  | s :: ss, h, base => by
    obtain ⟨hs, hss⟩ := List.forall_mem_cons.mp h
    rw [stmtsCode, Stmt.labelCounts, ← Nat.add_assoc]
    exact (hs base).append (numbers_stmtsCode ss hss _)

/-- What the code of a branch is put together from. -/
theorem branchCode_gives {exit : Label} {base : Nat} {init otherwise : Stmt} {cond : Expr}
    {body : List Stmt} {l : Listing}
    (h : (stmtCode p exit base (.branch init cond body otherwise)).Gives l) :
    ∃ a b c d, (stmtCode p exit base init).Gives a ∧
      (unlessCode p cond (.elseOf (base + init.labelCount + 1))).Gives b ∧
      (stmtsCode p exit (base + init.labelCount + 1) body).Gives c ∧
      (stmtCode p exit (base + init.labelCount + 1 + Stmt.labelCounts body) otherwise).Gives d ∧
      l = a ++ b ++ c ++ [.instr (.jump (.endOf (base + init.labelCount + 1)))] ++
        [.label (.elseOf (base + init.labelCount + 1))] ++ d ++
        [.label (.endOf (base + init.labelCount + 1))] := by
  rw [stmtCode] at h
  obtain ⟨_, _, h₆, hend, rfl⟩ := h.append
  obtain ⟨_, d, h₅, hd, rfl⟩ := h₆.append
  obtain ⟨_, _, h₄, helse, rfl⟩ := h₅.append
  obtain ⟨_, _, h₃, hjump, rfl⟩ := h₄.append
  obtain ⟨_, c, h₂, hc, rfl⟩ := h₃.append
  obtain ⟨a, b, ha, hb, rfl⟩ := h₂.append
  rw [hend.label, helse.label, hjump.ofInstrs]
  exact ⟨a, b, c, d, ha, hb, hc, hd, rfl⟩

/-- What the code of a loop is put together from. -/
theorem loopCode_gives {exit : Label} {base : Nat} {init post : Stmt} {cond : Option Expr}
    {body : List Stmt} {loc : Nat} {l : Listing}
    (h : (stmtCode p exit base (.loop init cond post body loc)).Gives l) :
    ∃ a b c d, (stmtCode p exit base init).Gives a ∧
      (cond.elim .nothing fun cond =>
        unlessCode p cond (.endOf (base + init.labelCount + 1))).Gives b ∧
      (stmtsCode p exit (base + init.labelCount + 1) body).Gives c ∧
      (stmtCode p exit (base + init.labelCount + 1 + Stmt.labelCounts body) post).Gives d ∧
      l = a ++ [.label (.beginOf (base + init.labelCount + 1))] ++ b ++ c ++ d ++
        [.instr (.jump (.beginOf (base + init.labelCount + 1)))] ++
        [.label (.endOf (base + init.labelCount + 1))] := by
  rw [stmtCode] at h
  obtain ⟨_, _, h₆, hend, rfl⟩ := h.append
  obtain ⟨_, _, h₅, hjump, rfl⟩ := h₆.append
  obtain ⟨_, d, h₄, hd, rfl⟩ := h₅.append
  obtain ⟨_, c, h₃, hc, rfl⟩ := h₄.append
  obtain ⟨_, b, h₂, hb, rfl⟩ := h₃.append
  obtain ⟨a, _, ha, hbegin, rfl⟩ := h₂.append
  rw [hend.label, hbegin.label, hjump.ofInstrs]
  exact ⟨a, b, c, d, ha, hb, hc, hd, rfl⟩

/-- **The labels of a statement are its own**: their numbers lie between its base and the base of
what follows it. -/
theorem numbers_stmtCode {exit : Label} (s : Stmt) :
    ∀ base, (stmtCode p exit base s).Numbers base (base + s.labelCount) := by
  induction s with
  | expr value => exact fun base => (numbers_exprCode value .value).append (.discard _)
  | ret value loc => exact fun base => numbers_returnCode exit value
  | block body ih => exact fun base => numbers_stmtsCode body ih base
  | branch init cond body otherwise ihi ihb iho =>
    intro base l hl
    obtain ⟨a, b, c, d, ha, hb, hc, hd, rfl⟩ := branchCode_gives hl
    have hown : Numbered (base + init.labelCount) (base + init.labelCount + 1) [.elseOf _, .endOf _] :=
      .pair rfl rfl (by rintro ⟨⟩)
    have hall := ((ihi base a ha).append hown).append
      ((numbers_stmtsCode body ihb _ c hc).append (iho _ d hd))
    have hb : b.labels = [] := ((numbers_unlessCode (n := base) cond _) b hb).eq_nil
    rw [Stmt.labelCount, ← Nat.add_assoc, ← Nat.add_assoc, ← Nat.add_assoc]
    refine hall.perm (List.perm_iff_count.mpr fun name => ?_)
    simp only [Listing.labels_append, Listing.labels, hb, List.count_append, List.count_cons,
      List.count_nil]
    omega
  | loop init cond post body loc ihi ihp ihb =>
    intro base l hl
    obtain ⟨a, b, c, d, ha, hb, hc, hd, rfl⟩ := loopCode_gives hl
    have hown : Numbered (base + init.labelCount) (base + init.labelCount + 1) [.beginOf _, .endOf _] :=
      .pair rfl rfl (by rintro ⟨⟩)
    have hall := ((ihi base a ha).append hown).append
      ((numbers_stmtsCode body ihb _ c hc).append (ihp _ d hd))
    have hb : b.labels = [] := by
      cases cond with
      | none => rw [hb.nothing]; rfl
      | some cond => exact ((numbers_unlessCode (n := base) cond _) b hb).eq_nil
    rw [Stmt.labelCount, ← Nat.add_assoc, ← Nat.add_assoc, ← Nat.add_assoc]
    refine hall.perm (List.perm_iff_count.mpr fun name => ?_)
    simp only [Listing.labels_append, Listing.labels, hb, List.count_append, List.count_cons,
      List.count_nil]
    omega
  | assign targets values loc =>
    exact fun base => (numbers_exprsCode values fun e _ => numbers_exprCode e .value).append
      (numbers_storesCode targets)
  | print printer args loc => exact fun base => numbers_printingCode printer args
  | empty => exact fun base => .nothing

end Lowering

end StackCompiler
