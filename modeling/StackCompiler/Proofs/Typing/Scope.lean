import StackCompiler.Proofs.Syntax.Numbered
import StackCompiler.Proofs.Typing.Binding
import StackCompiler.Proofs.Typing.Frames

/-!
# Proofs/Typing/Scope — which variables a body names

Binding leaves no placeholder in a body: every variable there is a local **of that function**, or a
package-level variable (`Function.Scoped`).
-/

namespace StackCompiler

open Typing

variable {R : VarId → VarId → Prop} {P : VarId → Prop}

/-! ## Trees -/

/-- A tree whose variables were bound names **what they were bound to**. -/
theorem Expr.Rebound.names (hR : ∀ id id', R id id' → P id') {e e' : Expr} (h : e.Rebound R e') :
    e'.Everywhere (Expr.Names P) := by
  induction e generalizing e' with
  | num => cases h; exact .num trivial
  | str => cases h; exact .str trivial
  | var id => cases h with | var hid => exact .var (hR id _ hid)
  | addr _ _ _ ih => cases h with | addr he => exact .addr trivial (ih he)
  | deref _ _ _ ih => cases h with | deref he => exact .deref trivial (ih he)
  | binary _ _ _ _ _ ihl ihr =>
    cases h with | binary hl hr => exact .binary trivial (ihl hl) (ihr hr)
  | index _ _ _ _ ihb ihp => cases h with | index hb hp => exact .index trivial (ihb hb) (ihp hp)
  | call _ args _ _ ih =>
    cases h with
    | call hargs =>
    refine .call trivial fun arg' harg' => ?_
    obtain ⟨arg, harg, h⟩ := exists_of_forall₂ hargs.flip harg'
    exact ih arg harg h

theorem Stmt.Rebound.names (hR : ∀ id id', R id id' → P id') {st st' : Stmt}
    (h : st.Rebound R st') : st'.Everywhere (Expr.Names P) fun _ => True := by
  have heach {es es' : List Expr} (h : List.Forall₂ (Expr.Rebound R) es es') :
      ∀ e' ∈ es', e'.Everywhere (Expr.Names P) := fun e' he' => by
    obtain ⟨e, -, h⟩ := exists_of_forall₂ h.flip he'
    exact h.names hR
  have hoptional {value value' : Option Expr} (h : Option.Rel (Expr.Rebound R) value value') :
      ∀ e' ∈ value', e'.Everywhere (Expr.Names P) := fun e' he' => by
    cases h with
    | none => cases he'
    | some h => cases he'; exact h.names hR
  have hbody {body body' : List Stmt} (h : List.Forall₂ (Stmt.Rebound R) body body')
      (ih : ∀ st ∈ body, ∀ {st'}, Stmt.Rebound R st st' →
        st'.Everywhere (Expr.Names P) fun _ => True) :
      ∀ st' ∈ body', st'.Everywhere (Expr.Names P) fun _ => True := fun st' hst' => by
    obtain ⟨st, hst, h⟩ := exists_of_forall₂ h.flip hst'
    exact ih st hst h
  induction st generalizing st' with
  | expr => cases h with | expr he => exact .expr trivial (he.names hR)
  | ret => cases h with | ret he => exact .ret trivial (hoptional he)
  | block _ ih => cases h with | block hb => exact .block trivial (hbody hb ih)
  | branch _ _ _ _ ihi ihb iho =>
    cases h with
    | branch hi hc hb ho =>
    exact .branch trivial (ihi hi) (hc.names hR) (hbody hb ihb) (iho ho)
  | loop _ _ _ _ _ ihi ihp ihb =>
    cases h with
    | loop hi hc hp hb =>
    exact .loop trivial (ihi hi) (hoptional hc) (ihp hp) (hbody hb ihb)
  | assign => cases h with | assign ht hv => exact .assign trivial (heach ht) (heach hv)
  | print => cases h with | print ha => exact .print trivial (heach ha)
  | empty => cases h; exact .empty trivial

/-- The variable that holds a place is **named in it**. -/
theorem Expr.Everywhere.root_names {e : Expr} (h : e.Everywhere (Expr.Names P)) {id : VarId}
    (hroot : e.root? = some id) : P id := by
  induction h with
  | var h => cases hroot; exact h
  | index _ _ _ ihb _ => exact ihb hroot
  | _ => cases hroot

/-! ## Functions -/

/-- The body names locals of the function and package-level variables, **and no others**. -/
def Function.Scoped (globals : List VarId) (f : Function) : Prop :=
  ∀ st ∈ f.body, st.Everywhere (Expr.Names fun id => id ∈ f.locals ∨ id ∈ globals) fun _ => True

/-- In a program that has been resolved every body names **what its function sees**. -/
theorem Program.Read.scoped {p : Program} (hread : p.Read) :
    Yields p.resolve fun p' => ∀ f ∈ p'.funcs, f.Scoped p'.globals := by
  intro p' hp' f' hf' st' hst'
  have hp := hread.resolve_outcome.1 p' hp'
  have hbodies := yields_rebound_resolve (R := p.Refers p') (fun f hf => hread.declares hf)
    (fun f hf st hst => hread.bindable hp hf hst) p' hp'
  obtain ⟨f, -, hhead, hbody⟩ := exists_of_forall₂
    (List.Forall₂.mp (fun _ _ hhead hbody => And.intro hhead hbody) hp.heads hbodies).flip hf'
  obtain ⟨st, -, hst⟩ := exists_of_forall₂ hbody.flip hst'
  refine hst.names fun id id' hid => ?_
  obtain ⟨_, _, -, -, -, -, hlocal | ⟨hglobal, -⟩⟩ := hid
  · exact .inl (hhead.locals ▸ hlocal)
  · exact .inr hglobal

end StackCompiler
