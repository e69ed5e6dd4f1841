import StackCompiler.Proofs.Grammar.Declared
import StackCompiler.Proofs.Grammar.Package
import StackCompiler.Proofs.Ty.Arrays

/-!
# Proofs/Grammar/Bounds — literal positions in declared arrays

Positions are looked at **as soon as they are read**, in the type that the array has been declared with;
the arena only grows from there on, so what was inside of an array stays inside of it.  The elements that
an array starts with are positions as well, so there are no more of them than it has.
-/

namespace StackCompiler

/-- An array has **no more elements than a word counts**. -/
theorem Ty.Proper.len_bounds {base : Ty} {len : Int} (h : (Ty.array base len).Proper) :
    0 < len ∧ len ≤ Word.greatest := by
  have hsize := Ty.size_bounds h rfl
  have hbase := Ty.size_bounds h.1 h.2.1
  rw [Ty.size_array h] at hsize
  have hlen := h.2.2.1
  exact ⟨hlen, by nlinarith⟩

theorem Expr.BoundsRule.mono {vars vars' : List Variable} (hvars : vars <+: vars') (e : Expr)
    (h : e.BoundsRule vars) : e.BoundsRule vars' := by
  cases e with
  | index base =>
    cases base with
    | var =>
      obtain ⟨v, hv, hrule⟩ := h
      exact ⟨v, Grammar.Reading.getElem?_mono hvars hv, hrule⟩
    | _ => trivial
  | _ => trivial

namespace Grammar

variable {r r' : Reading} {es : List Expr} {ss : List Stmt}

theorem Initial.Assigns.bounds {id : VarId} {ty : Ty} {loc : Nat} {init : Initial} {s : Stmt}
    (h : init.Assigns (.var id .unknown loc) ty loc r s r')
    (hinit : ∀ e ∈ init.exprs, e.Everywhere (Expr.BoundsRule r.vars)) :
    s.Everywhere (Expr.BoundsRule r.vars) fun _ => True := by
  have htarget : ∀ e ∈ [Expr.var id .unknown loc], e.Everywhere (Expr.BoundsRule r.vars) :=
    List.forall_mem_singleton.mpr (.var trivial)
  cases h with
  | value e => exact .assign trivial htarget hinit
  | elements _ _ hbounds =>
    refine .assign trivial (List.forall_mem_map.mpr fun value hvalue => ?_) hinit
    exact .index (hbounds value hvalue) (.var trivial) (.num trivial)
  | noElements | zeroed => exact .empty trivial
  | blank => exact .assign trivial htarget (List.forall_mem_singleton.mpr (.str trivial))
  | number => exact .assign trivial htarget (List.forall_mem_singleton.mpr (.num trivial))

/-- **Literal positions lie in declared arrays**, in all that is made of the tokens. -/
theorem Derives.bounds (h : Derives r es ss r') :
    (∀ e ∈ es, e.Everywhere (Expr.BoundsRule r'.vars)) ∧
      ∀ s ∈ ss, s.Everywhere (Expr.BoundsRule r'.vars) fun _ => True := by
  induction h with
  | nil | token | named => exact ⟨nofun, nofun⟩
  | append h h' ih ih' =>
    have hvars := h'.prefix_vars
    refine ⟨List.forall_mem_append.mpr ⟨fun e he => ?_, ih'.1⟩,
      List.forall_mem_append.mpr ⟨fun s hs => ?_, ih'.2⟩⟩
    · exact (ih.1 e he).mono (Expr.BoundsRule.mono hvars)
    · exact (ih.2 s hs).mono (Expr.BoundsRule.mono hvars) fun _ h => h
  | perm _ hes hss ih =>
    exact ⟨fun e he => ih.1 e (hes.mem_iff.mpr he), fun s hs => ih.2 s (hss.mem_iff.mpr hs)⟩
  | str => exact ⟨List.forall_mem_singleton.mpr (.str trivial), nofun⟩
  | node _ _ hbounds ih =>
    exact ⟨List.forall_mem_singleton.mpr (Expr.everywhere_iff_parts.mpr ⟨hbounds, ih.1⟩), nofun⟩
  | stmt _ ih =>
    exact ⟨nofun, List.forall_mem_singleton.mpr (Stmt.everywhere_iff_parts.mpr ⟨trivial, ih⟩)⟩
  | declared d h ih =>
    have hvars : d.ended.vars <+: d.tables.vars := d.tables_vars ▸ List.prefix_append _ _
    rw [d.assigns.vars_eq]
    refine ⟨nofun, List.forall_mem_singleton.mpr (d.assigns.bounds fun e he => ?_)⟩
    exact (ih.1 e he).mono (Expr.BoundsRule.mono hvars)
  | dropped _ ih => exact ⟨ih.1, fun s hs => ih.2 s (List.mem_cons_of_mem _ hs)⟩

/-! ## Elements that an array starts with -/

namespace Declaring

variable {s : Stmt} (d : Declaring r s r')

/-- The number of the variable that is declared. -/
def number : VarId :=
  d.ended.vars.length

theorem getElem?_number : r'.vars[d.number]? = some d.added := by
  rw [d.vars_after, number, List.getElem?_concat_length]

end Declaring

/-- Elements are given to **an array**, one by one, or not at all if there are none. -/
theorem Initial.Assigns.of_elements {id : VarId} {ty : Ty} {loc : Nat} {s : Stmt}
    (h : (Initial.elements es).Assigns (.var id .unknown loc) ty loc r s r') : ty.isArray = true ∧
      (∀ value ∈ es.zipIdx, (elementAt (.var id .unknown loc) value).BoundsRule r.vars) ∧
      (es = [] → s = .empty) ∧
      (es ≠ [] → s = .assign (es.zipIdx.map (elementAt (.var id .unknown loc))) es loc) := by
  cases h with
  | elements hty hne hbounds => exact ⟨hty, hbounds, fun h => absurd h hne, fun _ => rfl⟩
  | noElements hty => exact ⟨hty, nofun, fun _ => rfl, fun h => absurd rfl h⟩

/-- **An array starts with no more elements than it has.** -/
theorem Declaring.exists_elements {s : Stmt} (d : Declaring r s r') (hinit : d.init = .elements es)
    (hproper : d.ty.Proper) : ∃ base len, d.ty = .array base len ∧ es.length ≤ len ∧
      len ≤ Word.greatest ∧ (es = [] → s = .empty) ∧
      (es ≠ [] → s = .assign (es.zipIdx.map (elementAt d.target)) es d.name.loc) := by
  obtain ⟨harray, hbounds, hnone, hsome⟩ := (hinit ▸ d.assigns).of_elements
  cases hty : d.ty with
  | array base len =>
    rw [hty] at hproper
    have hlen := hproper.len_bounds
    refine ⟨base, len, rfl, ?_, hlen.2, hnone, hsome⟩
    by_contra hmore
    -- one of the elements is where the array ends
    have hlt : len.toNat < es.length := by omega
    obtain ⟨v, hv, -, hinside⟩ := hbounds (es[len.toNat], len.toNat)
      (List.mk_mem_zipIdx_iff_getElem?.mpr (List.getElem?_eq_getElem hlt))
    obtain rfl : d.added = v := by
      rw [← d.assigns.vars_eq] at hv
      exact Option.some.inj (d.getElem?_number.symm.trans hv)
    obtain ⟨-, hvalue⟩ := hinside base len _ _ _ hty rfl
    unfold Word.greatest at hlen
    rw [Int64.toInt_ofNat_of_lt (by omega)] at hvalue
    omega
  | _ =>
    rw [hty] at harray
    cases harray

end Grammar

end StackCompiler
