import StackCompiler.Proofs.Syntax.Parts
import StackCompiler.Proofs.Typing.Fixed

/-!
# Proofs/Typing/Rebound — a tree with its types is built like the one that was read

What typing changes are types and variables, so the **parts** of a tree stay its parts, its strings stay
its strings, and what stands inside of a statement stands in what the statement has become.
-/

namespace StackCompiler

open Typing

/-- Lists that go together **pair by pair** are laid out alike if their members are. -/
theorem flatMap_eq_of_forall₂ {α β γ : Type} {R : α → β → Prop} {f : α → List γ} {g : β → List γ}
    {as : List α} {bs : List β} (h : List.Forall₂ R as bs)
    (hfg : ∀ a ∈ as, ∀ b, R a b → g b = f a) : bs.flatMap g = as.flatMap f := by
  induction h with
  | nil => rfl
  | @cons a b as bs hab _ ih =>
    rw [List.flatMap_cons, List.flatMap_cons, hfg a List.mem_cons_self b hab,
      ih fun a ha => hfg a (List.mem_cons_of_mem _ ha)]

section Rebound

variable {R : VarId → VarId → Prop}

/-! ## Parts -/

theorem Expr.Rebound.parts {e e' : Expr} (h : e.Rebound R e') :
    List.Forall₂ (Expr.Rebound R) e.parts e'.parts := by
  cases h with
  | num | str | var => exact .nil
  | addr h | deref h => exact .cons h .nil
  | binary h h' | index h h' => exact .cons h (.cons h' .nil)
  | call h => exact h

theorem Expr.Rebound.isStr {e e' : Expr} (h : e.Rebound R e') : e'.isStr = e.isStr := by
  cases h <;> rfl

theorem forall₂_toList {e e' : Option Expr} (h : Option.Rel (Expr.Rebound R) e e') :
    List.Forall₂ (Expr.Rebound R) e.toList e'.toList := by
  cases h with
  | none => exact .nil
  | some h => exact .cons h .nil

theorem Stmt.Rebound.exprs {s s' : Stmt} (h : s.Rebound R s') :
    List.Forall₂ (Expr.Rebound R) s.exprs s'.exprs := by
  cases h with
  | expr h => exact .cons h .nil
  | ret h => exact forall₂_toList h
  | branch _ h => exact .cons h .nil
  | loop _ h => exact forall₂_toList h
  | assign h h' => exact List.rel_append h h'
  | print h => exact h
  | block | empty => exact .nil

theorem Stmt.Rebound.parts {s s' : Stmt} (h : s.Rebound R s') :
    List.Forall₂ (Stmt.Rebound R) s.parts s'.parts := by
  cases h with
  | block h => exact h
  | branch hinit _ hbody hotherwise => exact .cons hinit (List.rel_append hbody (.cons hotherwise .nil))
  | loop hinit _ hpost hbody => exact .cons hinit (.cons hpost hbody)
  | expr | ret | assign | print | empty => exact .nil

/-! ## Strings -/

/-- Typing leaves **the strings** as they are. -/
theorem Expr.Rebound.literals {e : Expr} : ∀ {e' : Expr}, e.Rebound R e' → e'.literals = e.literals := by
  induction e using Expr.induction_parts with
  | step e ih =>
  intro e' h
  cases hstr : e.isStr with
  | false =>
    rw [literals_eq hstr, literals_eq (h.isStr.trans hstr)]
    exact flatMap_eq_of_forall₂ h.parts fun part hpart _ => ih part hpart
  | true =>
    cases h with
    | str => rfl
    | _ => cases hstr

theorem Stmt.Rebound.literals {s : Stmt} : ∀ {s' : Stmt}, s.Rebound R s' → s'.literals = s.literals := by
  induction s using Stmt.induction_parts with
  | step s ih =>
  intro s' h
  rw [literals_eq, literals_eq, flatMap_eq_of_forall₂ h.exprs fun _ _ _ => Expr.Rebound.literals,
    flatMap_eq_of_forall₂ h.parts fun part hpart _ => ih part hpart]

/-! ## Rules -/

section Rules

variable {P P' : Expr → Prop} (hrule : ∀ e e' : Expr, e.Rebound R e' → P e → P' e')

include hrule

/-- A rule that is kept by **each node** is kept by the tree. -/
theorem Expr.Everywhere.rebound {e : Expr} : ∀ {e' : Expr}, e.Everywhere P → e.Rebound R e' →
    e'.Everywhere P' := by
  induction e using Expr.induction_parts with
  | step e ih =>
  intro e' he h
  obtain ⟨hnode, hparts⟩ := Expr.everywhere_iff_parts.mp he
  refine Expr.everywhere_iff_parts.mpr ⟨hrule e e' h hnode, fun part' hpart' => ?_⟩
  obtain ⟨part, hpart, hrebound⟩ := exists_of_forall₂ h.parts.flip hpart'
  exact ih part hpart (hparts part hpart) hrebound

theorem Stmt.Everywhere.rebound {s : Stmt} : ∀ {s' : Stmt}, s.Everywhere P (fun _ => True) →
    s.Rebound R s' → s'.Everywhere P' fun _ => True := by
  induction s using Stmt.induction_parts with
  | step s ih =>
  intro s' hs h
  obtain ⟨-, hexprs, hparts⟩ := Stmt.everywhere_iff_parts.mp hs
  refine Stmt.everywhere_iff_parts.mpr ⟨trivial, fun e' he' => ?_, fun part' hpart' => ?_⟩
  · obtain ⟨e, he, hrebound⟩ := exists_of_forall₂ h.exprs.flip he'
    exact (hexprs e he).rebound hrule hrebound
  · obtain ⟨part, hpart, hrebound⟩ := exists_of_forall₂ h.parts.flip hpart'
    exact ih part hpart (hparts part hpart) hrebound

end Rules

/-! ## Statements inside of statements -/

/-- What stands in a statement **stands in what the statement has become**. -/
theorem Stmt.Within.rebound {s whole : Stmt} (hs : s.Within whole) :
    ∀ {whole' : Stmt}, whole.Rebound R whole' → ∃ s', s'.Within whole' ∧ s.Rebound R s' := by
  induction hs with
  | self => exact fun {whole'} h => ⟨whole', .self, h⟩
  | part hpart _ ih =>
    intro whole' h
    obtain ⟨part', hpart', hrebound⟩ := exists_of_forall₂ h.parts hpart
    obtain ⟨s', hs', hrebound'⟩ := ih hrebound
    exact ⟨s', .part hpart' hs', hrebound'⟩

end Rebound

/-! ## Programs -/

/-- A program that is resolved **keeps its trees**, with types and variables. -/
theorem Program.Read.rebound {p p' : Program} (hread : p.Read) (h : p.resolve = .ok p') :
    List.Forall₂ (fun f f' => List.Forall₂ (Stmt.Rebound
      (Surroundings.Refers ⟨f.locals, p.globals, p.signatures⟩ p.vars)) f.body f'.body)
      p.funcs p'.funcs := by
  refine yields_rebound_resolve (fun f hf => hread.declares hf) (fun f hf st hst => ?_) p' h
  obtain ⟨_, _, hfread⟩ := hread.funcs.exists_read hf
  exact (hfread.body st hst).mono (fun _ => bindable_of_readRule) fun _ _ => trivial

theorem Program.Read.literals {p p' : Program} (hread : p.Read) (h : p.resolve = .ok p') :
    p'.literals = p.literals :=
  flatMap_eq_of_forall₂ (hread.rebound h) fun _ _ _ hbody =>
    flatMap_eq_of_forall₂ hbody fun _ _ _ => Stmt.Rebound.literals

end StackCompiler
