import StackCompiler.Lowering.Package
import StackCompiler.Proofs.Ty.Exact
import StackCompiler.Proofs.Typing.Package

/-!
# Proofs/Typing/Sizes — nothing in a program is larger than a word can tell

The sizes of arrays are looked at while their types are read, from the inside out, and typing makes no
types but of those.  So **every type that a program holds has its exact size**, before it is typed and
after it (`Program.Measured`), and every variable of the typed program takes as many bytes as that
(`Program.PlacesFilled`).
-/

namespace StackCompiler

open Typing

/-- The variables of the program and **all nodes of its bodies** have types with their exact sizes. -/
structure Program.Measured (p : Program) : Prop where
  vars : ∀ v ∈ p.vars, v.ty.Measured
  nodes : ∀ f ∈ p.funcs, ∀ st ∈ f.body, st.Everywhere (fun e => e.ty.Measured) fun _ => True

/-- Every variable takes **at least a byte**: a local in the frame of its function, a package-level one
as data. -/
structure Program.PlacesFilled (p : Program) : Prop where
  slots : ∀ f ∈ p.funcs, ∀ id ∈ f.locals, ∃ v, p.vars[id]? = some v ∧ 1 ≤ v.ty.exactSize ∧
    0 ≤ v.offset - v.ty.exactSize ∧ v.offset ≤ f.frame
  blocks : ∀ id ∈ p.globals, ∃ v, p.vars[id]? = some v ∧ 1 ≤ v.ty.exactSize ∧
    Lowering.globalData p id =
      .ok [.align, .label (.symbol (p.symbol v.name)), .zeros v.ty.exactSize]

section Programs

variable {source : List Char} {tokens : List Token} {p : Program}

/-- A node that has just been read has **no type but that of a number**. -/
theorem Expr.ReadRule.proper {vars : List Variable} {strings : Nat} {own : VarId → Prop} (e : Expr)
    (h : e.ReadRule vars strings own) : e.ty.Proper := by
  cases e with
  | num => exact h.2.2
  | str | var | addr => exact h.1 ▸ Ty.proper_unknown
  | deref | binary | index | call => exact h ▸ Ty.proper_unknown

theorem Program.Read.measured (hread : p.Read) : p.Measured where
  vars v hv := (hread.proper v hv).measured
  nodes f hf st hst := by
    obtain ⟨first, last, hfread⟩ := hread.funcs.exists_read hf
    exact (hfread.body st hst).mono (fun e he => (Expr.ReadRule.proper e he).measured) fun _ _ => trivial

theorem Program.Typed.measured (hp : p.Typed) : p.Measured where
  vars v hv := by
    obtain ⟨id, hid⟩ := List.mem_iff_getElem?.mp hv
    exact (hp.proper id v hid).measured
  nodes f hf st hst := ((hp.funcs f hf).body st hst).throughout.mono
    (fun _ he => (Expr.Everywhere.proper hp.proper he).measured) fun _ _ => trivial

theorem Program.Typed.placesFilled (hp : p.Typed) : p.PlacesFilled where
  slots f hf id hid := by
    obtain ⟨v, hv, -, hr, hproper, hoffset, hframe⟩ := (hp.funcs f hf).locals id hid
    have hsize := hproper.hasExactSize hr
    rw [hsize.size_eq] at hoffset
    exact ⟨v, hv, hsize.pos, Int.sub_nonneg.mpr hoffset, hframe⟩
  blocks id hid := by
    obtain ⟨v, hv, -, hr, -⟩ := hp.globals id hid
    have hsize := (hp.proper id v hv).hasExactSize hr
    refine ⟨v, hv, hsize.pos, ?_⟩
    rw [Lowering.globalData, hv, ← max_eq_left hsize.pos, ← hsize.size_eq]
    rfl

/-- **No type of a program leaves the word.**  Whatever is read as a type has its exact size, with all
that it is built from, even if it is not kept; so have all types of a program that has been read, and
those that it has once it is typed; and then no variable is empty. -/
theorem measured_of_ofTokens (h : Program.ofTokens source tokens = .ok p) :
    (∀ r t r', Grammar.type.run r = .ok (t, r') → t ≠ .unknown ∧ t.Measured) ∧ p.Measured ∧
      ∀ p', p.resolve = .ok p' → p'.Measured ∧ p'.PlacesFilled := by
  have hread := Program.read_of_ofTokens h
  refine ⟨fun r t r' ht => ?_, hread.measured, fun p' hp' => ?_⟩
  · obtain ⟨-, hproper, hresolved⟩ := Grammar.quiet_type r t r' ht
    exact ⟨Ty.isResolved_iff.mp hresolved, hproper.measured⟩
  · have hp := (hread.resolve_outcome.1 p' hp').typed
    exact ⟨hp.measured, hp.placesFilled⟩

/-- The largest array of bytes under a pointer in arrays, as a result that is dropped, and as what a
variable gets its type from. -/
def textOfLargeArrays : String :=
  "package p var t [3][2]*[9223372036854775807]int8
  func main() [4][9]string \x7b var a [2]bool; q := t[0][1]; s, b := \"\", &q \x7d"

/-- The variables take **as many bytes** as their types have. -/
theorem measured_of_large_arrays :
    ∃ tokens p p', tokensOf textOfLargeArrays.toList = .ok tokens ∧
      Program.ofTokens textOfLargeArrays.toList tokens = .ok p ∧ p.resolve = .ok p' ∧
      p'.vars.map (·.ty.exactSize) = [48, 2, 8, 16, 8] ∧
      (∀ r t r', Grammar.type.run r = .ok (t, r') → t ≠ .unknown ∧ t.Measured) ∧ p.Measured ∧
        p'.Measured ∧ p'.PlacesFilled := by
  obtain ⟨p', hp', hsizes⟩ := exists_ok_of_any (P := fun p' : Program =>
    p'.vars.map (·.ty.exactSize) == [48, 2, 8, 16, 8])
    (x := Program.ofSource textOfLargeArrays.toList) (by decide +kernel)
  obtain ⟨tokens, p, htokens, hread, hresolve⟩ := Program.ofSource_ok hp'
  obtain ⟨htypes, hmeasured, hresolved⟩ := measured_of_ofTokens hread
  exact ⟨tokens, p, p', htokens, hread, hresolve, beq_iff_eq.mp hsizes, htypes, hmeasured,
    hresolved p' hresolve⟩

end Programs

end StackCompiler
