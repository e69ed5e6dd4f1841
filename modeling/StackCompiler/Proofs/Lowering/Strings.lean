import StackCompiler.Proofs.Lowering.Growth
import StackCompiler.Proofs.Lowering.Parts
import StackCompiler.Proofs.Syntax.Parts
import StackCompiler.Proofs.Typing.Frames

/-!
# Proofs/Lowering/Strings — every string is read through its descriptor

A string takes the address of its descriptor, and **both words are loaded from there**; where a byte of the
string is asked for, only the address is.  So the code of a statement has these lines for each string
that stands in it, at whatever depth (`reads_stmtCode`).
-/

namespace StackCompiler

open Typing

/-- Loads a string: the address of its bytes and their number, which stand **in its descriptor**. -/
def Lowering.loadsString (i : Nat) : List Instr :=
  [.address .rax (.data (.descriptor i)), .push .rax,
    .pop .rax, .pushAt (.above .rax 0), .pushAt (.above .rax 8)]

/-- Loads the address of the bytes of a string from its descriptor. -/
def Lowering.loadsBytes (i : Nat) : List Instr :=
  [.address .rax (.data (.descriptor i)), .push .rax, .pop .rax, .load .rax (.above .rax 0), .push .rax]

/-- Among the lines the string is loaded **from its descriptor**, as a whole or for a byte of it. -/
def Listing.ReadsString (l : Listing) (i : Nat) : Prop :=
  ofInstrs (Lowering.loadsString i) <:+: l ∨ ofInstrs (Lowering.loadsBytes i) <:+: l

theorem Listing.ReadsString.mono {l l' : Listing} {i : Nat} (h : l.ReadsString i) (hl : l <:+: l') :
    l'.ReadsString i :=
  h.imp (·.trans hl) (·.trans hl)

/-- Whatever lines the code gives, they read the string. -/
def Code.Reads (code : Code) (i : Nat) : Prop :=
  ∀ ⦃l⦄, code.Gives l → l.ReadsString i

theorem Code.Has.reads {code part : Code} {i : Nat} (h : code.Has part) (hpart : part.Reads i) :
    code.Reads i := fun l hl => by
  obtain ⟨l', hl', hin⟩ := h hl
  exact (hpart hl').mono hin

namespace Lowering

variable {p : Program} {i loc : Nat} {ty : Ty}

/-! ## Expressions -/

theorem eq_of_descriptorAddress {l : Listing} (h : (descriptorAddress p i).Gives l) :
    l = Listing.ofInstrs [.address .rax (.data (.descriptor i)), .push .rax] := by
  unfold descriptorAddress pushAddress at h
  split at h
  · exact h.ofInstrs
  · exact h.not_broken.elim

/-- The value of a string is **both its words**. -/
theorem reads_str : (exprCode p .value (.str i .string loc)).Reads i := by
  intro l hl
  rw [exprCode] at hl
  obtain ⟨a, b, ha, hb, rfl⟩ := hl.append
  rw [eq_of_descriptorAddress ha, Code.Gives.ofInstrs hb]
  exact .inl List.infix_rfl

/-- What a byte of a string is found by is **the address of its bytes**. -/
theorem reads_baseCode_str : (baseCode p (.str i .string loc)).Reads i := by
  intro l hl
  obtain ⟨a, b, ha, hb, rfl⟩ := Code.Gives.append hl
  rw [exprCode] at ha
  obtain ⟨a', c, ha', hc, rfl⟩ := ha.append
  rw [eq_of_descriptorAddress ha', hc.nothing, hb.ofInstrs]
  exact .inr List.infix_rfl

theorem has_baseCode (base : Expr) : ∃ wanted, (baseCode p base).Has (exprCode p wanted base) := by
  unfold baseCode
  split
  · exact ⟨.address, .refl _⟩
  · exact ⟨.address, (Code.Has.refl _).left⟩
  · exact ⟨.value, .refl _⟩

variable {vars : List Variable} {strings : Nat} {signatures : List Signature} {own : VarId → Prop}

/-- **Every string of an expression is read** by its code, unless it is asked for the address of
a string. -/
theorem reads_exprCode {e : Expr} : ∀ {wanted : Wanted}, Typed own vars strings signatures e →
    wanted = .value ∨ e.isStr = false → ∀ x ∈ e.literals, (exprCode p wanted e).Reads x.2 := by
  induction e with
  | num | var => exact fun _ _ => nofun
  | str string ty loc =>
    intro wanted he hwanted x hx
    obtain rfl := List.mem_singleton.mp hx
    obtain rfl : ty = .string := he.here.1
    obtain rfl : wanted = .value := hwanted.resolve_right nofun
    exact reads_str
  | addr operand ty loc ih =>
    intro wanted he _ x hx
    cases he with
    | addr hnode he =>
    have hoperand : operand.isStr = false := by
      cases operand with
      | str => exact absurd hnode.2 Bool.false_ne_true
      | _ => rfl
    rw [exprCode]
    exact (has_valueOnly wanted _).reads (ih he (.inr hoperand) x hx)
  | deref operand ty loc ih =>
    intro wanted he _ x hx
    cases he with
    | deref _ he =>
    rw [exprCode]
    exact (Code.Has.refl _).left.reads (ih he (.inl rfl) x hx)
  | binary op lhs rhs ty loc ihl ihr =>
    intro wanted he _ x hx
    cases he with
    | binary _ hl hr =>
    rw [exprCode]
    rcases List.mem_append.mp hx with hx | hx
    · exact ((has_valueOnly wanted _).trans (Code.Has.refl _).left.left).reads (ihl hl (.inl rfl) x hx)
    · exact ((has_valueOnly wanted _).trans (Code.Has.refl _).right.left).reads (ihr hr (.inl rfl) x hx)
  | index base position ty loc ihb ihp =>
    intro wanted he _ x hx
    cases he with
    | index _ hb hp =>
    rw [exprCode_index]
    rcases List.mem_append.mp hx with hx | hx
    · refine (Code.Has.refl (baseCode p base)).left.left.left.reads ?_
      cases hstr : base.isStr with
      | false =>
        obtain ⟨wanted', hbase⟩ := has_baseCode (p := p) base
        exact hbase.reads (ihb hb (.inr hstr) x hx)
      | true =>
        cases base with
        | str string ty loc =>
          obtain rfl := List.mem_singleton.mp hx
          obtain rfl : ty = .string := hb.here.1
          exact reads_baseCode_str
        | _ => cases hstr
    · exact (Code.Has.refl _).right.left.left.reads (ihp hp (.inl rfl) x hx)
  | call name args ty loc ih =>
    intro wanted he _ x hx
    cases he with
    | call _ hargs =>
    rw [Expr.literals, Expr.literalsOf_eq] at hx
    obtain ⟨arg, harg, hx⟩ := List.mem_flatMap.mp hx
    rw [exprCode]
    exact ((has_valueOnly wanted _).trans (has_exprsCode arg harg).left.left.left).reads
      (ih arg harg (hargs arg harg) (.inl rfl) x hx)

/-! ## Statements -/

/-- The code of a statement has that of **its expressions**, the address of a target and the value of
any other one. -/
theorem has_exprs (exit : Label) (base : Nat) {st : Stmt} (hst : st.TypedRule) : ∀ e ∈ st.exprs,
    ∃ wanted, (stmtCode p exit base st).Has (exprCode p wanted e) ∧ (wanted = .value ∨ e.isStr = false) := by
  have hvalue {e : Expr} (h : (stmtCode p exit base st).Has (exprCode p .value e)) :
      ∃ wanted, (stmtCode p exit base st).Has (exprCode p wanted e) ∧
        (wanted = .value ∨ e.isStr = false) :=
    ⟨.value, h, .inl rfl⟩
  intro e he
  cases st with
  | expr value =>
    obtain rfl := List.mem_singleton.mp he
    exact hvalue (by rw [stmtCode]; exact (Code.Has.refl _).left)
  | ret value loc =>
    cases Option.mem_toList.mp he
    exact hvalue (by rw [stmtCode]; exact (Code.Has.refl _).left)
  | branch init cond body otherwise =>
    obtain rfl := List.mem_singleton.mp he
    exact hvalue (by rw [stmtCode]; exact (Code.Has.refl _).left.right.left.left.left.left.left)
  | loop init cond post body loc =>
    cases Option.mem_toList.mp he
    exact hvalue (by rw [stmtCode]; exact (Code.Has.refl _).left.right.left.left.left.left)
  | assign targets values loc =>
    rcases List.mem_append.mp he with he | he
    · refine ⟨.address, by rw [stmtCode]; exact (has_storesCode e he).right, .inr ?_⟩
      obtain ⟨value, -, hfit⟩ := exists_of_forall₂ hst he
      cases e with
      | str => exact absurd hfit.isLvalue Bool.false_ne_true
      | _ => rfl
    · exact hvalue (by rw [stmtCode]; exact (has_exprsCode e he).left)
  | print printer args loc => exact hvalue (by rw [stmtCode]; exact has_printingCode he)
  | block | empty => cases he

/-- The code of a statement has that of **the statements in it**. -/
theorem has_parts (exit : Label) (base : Nat) {st : Stmt} : ∀ part ∈ st.parts,
    ∃ base', (stmtCode p exit base st).Has (stmtCode p exit base' part) := by
  intro part hpart
  cases st with
  | block body =>
    rw [stmtCode]
    exact has_stmtsCode exit base part hpart
  | branch init cond body otherwise =>
    rw [stmtCode]
    rcases List.mem_cons.mp hpart with rfl | hpart
    · exact ⟨_, (Code.Has.refl _).left.left.left.left.left.left⟩
    rcases List.mem_append.mp hpart with hpart | hpart
    · obtain ⟨base', h⟩ := has_stmtsCode (p := p) exit (base + init.labelCount + 1) part hpart
      exact ⟨base', h.right.left.left.left.left⟩
    · obtain rfl := List.mem_singleton.mp hpart
      exact ⟨_, (Code.Has.refl _).right.left⟩
  | loop init cond post body loc =>
    rw [stmtCode]
    rcases List.mem_cons.mp hpart with rfl | hpart
    · exact ⟨_, (Code.Has.refl _).left.left.left.left.left.left⟩
    rcases List.mem_cons.mp hpart with rfl | hpart
    · exact ⟨_, (Code.Has.refl _).right.left.left⟩
    · obtain ⟨base', h⟩ := has_stmtsCode (p := p) exit (base + init.labelCount + 1) part hpart
      exact ⟨base', h.right.left.left.left⟩
  | expr | ret | assign | print | empty => cases hpart

/-- **Every string of a statement is read** by its code. -/
theorem reads_stmtCode (exit : Label) {st : Stmt} : ∀ {base : Nat},
    TypedStmt own vars strings signatures st →
    ∀ x ∈ st.literals, (stmtCode p exit base st).Reads x.2 := by
  induction st using Stmt.induction_parts with
  | step st ih =>
  intro base hst x hx
  obtain ⟨hrule, hexprs, hparts⟩ := Stmt.everywhere_iff_parts.mp hst
  rw [Stmt.literals_eq] at hx
  rcases List.mem_append.mp hx with hx | hx
  · obtain ⟨e, he, hx⟩ := List.mem_flatMap.mp hx
    obtain ⟨wanted, hhas, hwanted⟩ := has_exprs (p := p) exit base hrule e he
    exact hhas.reads (reads_exprCode (hexprs e he) hwanted x hx)
  · obtain ⟨part, hpart, hx⟩ := List.mem_flatMap.mp hx
    obtain ⟨base', hhas⟩ := has_parts (p := p) exit base part hpart
    exact hhas.reads (ih part hpart (hparts part hpart) x hx)

end Lowering

end StackCompiler
