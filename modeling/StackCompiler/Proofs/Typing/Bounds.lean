import StackCompiler.Proofs.Grammar.Bounds
import StackCompiler.Proofs.Typing.Arrays
import StackCompiler.Proofs.Typing.Rebound

/-!
# Proofs/Typing/Bounds — arrays are what they were declared as

Literal positions are looked at while the source is read, when some variables have no types yet.  But an
array **is declared with its type**, and typing makes no other ones; so all positions in the arrays of the
typed program have been looked at, and the elements that a declaration lists are assigned one by one
(`arraysDeclared_of_resolve`).
-/

namespace StackCompiler

open Typing Grammar

/-! ## Rules -/

/-- An index into an array variable was read **when the variable had been declared as that array**, and a
literal position lies inside of it. -/
def Expr.InBounds (vars vars' : List Variable) : Expr → Prop
  | .index (.var id _ _) position _ _ => ∀ v', vars'[id]? = some v' → v'.ty.isArray = true →
      (∃ v, vars[id]? = some v ∧ v.isPlaceholder = false ∧ v.ty = v'.ty) ∧
        ∀ base len value ty loc, v'.ty = .array base len → position = .num value ty loc →
          0 ≤ value.toInt ∧ value.toInt < len
  | _ => True

/-- The target is the element of that number in the variable. -/
def Expr.IsElement (id : VarId) (i : Nat) : Expr → Prop
  | .index (.var id' _ _) (.num value _ _) _ _ => id' = id ∧ value.toInt = i
  | _ => False

/-- In a function, one assignment gives the elements of the variable the values that were read, **from
the first to the last**. -/
def Program.AssignsElements (p p' : Program) (id : VarId) (es : List Expr) : Prop :=
  ∃ f f', (f, f') ∈ p.funcs.zip p'.funcs ∧ ∃ whole ∈ f'.body, ∃ targets values loc,
    (Stmt.assign targets values loc).Within whole ∧
      List.Forall₂ (fun i target => target.IsElement id i) (List.range es.length) targets ∧
      List.Forall₂ (Expr.Rebound (Surroundings.Refers ⟨f.locals, p.globals, p.signatures⟩ p.vars))
        es values

/-- The arrays of the typed program `p'` are those that have been declared in the program `p`, which
was read from the tokens. -/
structure Program.ArraysDeclared (tokens : List Token) (p p' : Program) : Prop where
  /-- Literal positions lie inside of array variables. -/
  bounds : ∀ f ∈ p'.funcs, ∀ st ∈ f.body, st.Everywhere (Expr.InBounds p.vars p'.vars) fun _ => True
  /-- A list of elements is **no longer than the array** that it is for, and is assigned at once. -/
  lists : ∀ before keyword rest, tokens = before ++ keyword :: rest → keyword.is "var" = true →
    ∃ (begun : Reading) (s : Stmt) (ended : Reading) (d : Declaring begun s ended),
      begun.rest = keyword :: rest ∧ ∀ es, d.init = .elements es → ∃ base len, d.ty = .array base len ∧
        (∃ v, p'.vars[d.number]? = some v ∧ v.name = d.name.text ∧ v.ty = .array base len) ∧
        es.length ≤ len ∧ (es = [] → s = .empty) ∧ (es ≠ [] → p.AssignsElements p' d.number es)
  /-- A variable is an array only if it is **declared with the type of one**. -/
  declared : ∀ id v', p'.vars[id]? = some v' → v'.ty.isArray = true →
    ∃ before keyword rest, tokens = before ++ keyword :: rest ∧ keyword.is "var" = true ∧
      ∃ (begun : Reading) (s : Stmt) (ended : Reading) (d : Declaring begun s ended),
        begun.rest = keyword :: rest ∧ d.number = id ∧ type.run d.named = .ok (v'.ty, d.typed) ∧
          p.vars[id]? = some d.added ∧ d.added.ty = v'.ty

/-! ## Programs -/

section Programs

variable {source : List Char} {tokens : List Token} {p p' : Program}

/-- **What a declared variable is bound to** is itself. -/
theorem Surroundings.Refers.eq_of_declared {s : Surroundings} {names : List Variable} {id id' : VarId}
    (h : s.Refers names id id') {v : Variable} (hv : names[id]? = some v)
    (hdeclared : v.isPlaceholder = false) : id' = id := by
  obtain ⟨w, hw, ⟨hplaceholder, -⟩ | ⟨-, heq⟩⟩ := h
  · cases hv.symm.trans hw
    rw [hdeclared] at hplaceholder
    cases hplaceholder
  · exact heq

theorem Expr.BoundsRule.inBounds (hread : p.Read) (h' : p.resolve = .ok p') {s : Surroundings}
    (e e' : Expr) (h : e.Rebound (s.Refers p.vars) e') (he : e.BoundsRule p.vars) :
    e'.InBounds p.vars p'.vars := by
  cases h with
  | index hbase hposition =>
    cases hbase with
    | var hid =>
      obtain ⟨v, hv, hdeclared, hinside⟩ := he
      obtain rfl := Surroundings.Refers.eq_of_declared hid hv hdeclared
      intro v' hv' harray
      obtain ⟨w, hw, hty⟩ := hread.exists_of_array h' hv' harray
      obtain rfl := Option.some.inj (hv.symm.trans hw)
      refine ⟨⟨v, hv, hdeclared, hty⟩, ?_⟩
      rintro base len value ty loc harray rfl
      cases hposition with
      | num => exact hinside base len value _ loc (hty.trans harray) rfl
    | _ => trivial
  | _ => trivial

theorem exists_mem_zip_of_forall₂ {α β : Type} {R : α → β → Prop} {as : List α} {bs : List β}
    (h : List.Forall₂ R as bs) {a : α} (ha : a ∈ as) : ∃ b, (a, b) ∈ as.zip bs ∧ R a b := by
  induction h with
  | nil => cases ha
  | @cons a' b as bs hab _ ih =>
    rcases List.mem_cons.mp ha with rfl | ha
    · exact ⟨b, List.mem_cons_self, hab⟩
    · obtain ⟨b', hmem, hab'⟩ := ih ha
      exact ⟨b', List.mem_cons_of_mem _ hmem, hab'⟩

/-- The targets of elements **stay these elements**. -/
theorem forall₂_isElement {R : VarId → VarId → Prop} {id : VarId} {loc : Nat}
    (hid : ∀ id', R id id' → id' = id) {es targets : List Expr} (hfits : (es.length : Int) ≤ Word.greatest)
    (h : List.Forall₂ (Expr.Rebound R) (es.zipIdx.map (elementAt (.var id .unknown loc))) targets) :
    List.Forall₂ (fun i target => target.IsElement id i) (List.range es.length) targets := by
  have hrange : List.range es.length = es.zipIdx.map Prod.snd := by
    rw [List.zipIdx_map_snd, List.range_eq_range']
  rw [List.forall₂_map_left_iff] at h
  rw [hrange, List.forall₂_map_left_iff]
  refine ((List.forall₂_and_left _ _).mpr ⟨fun value hvalue => hvalue, h⟩).imp ?_
  rintro ⟨e, i⟩ target ⟨hmem, htarget⟩
  have hi : i < es.length := List.snd_lt_of_mem_zipIdx hmem
  cases htarget with
  | index hbase hposition =>
  cases hbase with
  | var hbound =>
  cases hposition with
  | num =>
  unfold Word.greatest at hfits
  exact ⟨hid _ hbound, Int64.toInt_ofNat_of_lt (by omega)⟩

/-- **What an array starts with is assigned to it**, in the program with its types as well. -/
theorem Program.Read.assignsElements (hread : p.Read) (h' : p.resolve = .ok p') {id : VarId}
    {v : Variable} (hv : p.vars[id]? = some v) (hdeclared : v.isPlaceholder = false) {es : List Expr}
    {loc loc' : Nat} (hfits : (es.length : Int) ≤ Word.greatest)
    (hs : Derives.Stands (.assign (es.zipIdx.map (elementAt (.var id .unknown loc))) es loc')
      (p.funcs.flatMap (·.body))) : p.AssignsElements p' id es := by
  obtain ⟨whole, hwhole, hin⟩ := hs.resolve_left nofun
  obtain ⟨f, hf, hst⟩ := List.mem_flatMap.mp hwhole
  obtain ⟨f', hff', hbody⟩ := exists_mem_zip_of_forall₂ (hread.rebound h') hf
  obtain ⟨whole', hwhole', hrebound⟩ := exists_of_forall₂ hbody hst
  obtain ⟨s', hin', hs'⟩ := hin.rebound hrebound
  cases hs' with
  | assign htargets hvalues =>
  refine ⟨f, f', hff', whole', hwhole', _, _, _, hin', ?_, hvalues⟩
  exact forall₂_isElement (fun id' hid => Surroundings.Refers.eq_of_declared hid hv hdeclared) hfits
    htargets

/-- **The arrays of a program are those that are declared.**  A literal position in an array variable lies
inside of it; the elements in braces that a declaration gives an array are no more than it has, and are
the values of one assignment to the elements `0`, `1` and so on, or of none if there are none; and a
variable has the type of an array only from its declaration. -/
theorem arraysDeclared_of_resolve (htokens : tokenize source = .ok tokens)
    (h : Program.ofTokens source tokens = .ok p) (h' : p.resolve = .ok p') :
    p.ArraysDeclared tokens p' := by
  have hread := Program.read_of_ofTokens h
  have hresolved := hread.resolve_outcome.1 p' h'
  obtain ⟨last, hderives, -, hlast, -⟩ := Program.exists_derives h
  refine ⟨fun f' hf' st' hst' => ?_, fun before keyword rest hsplit hvar => ?_,
    fun id v' hv' harray => ?_⟩
  · obtain ⟨f, hf, hbody⟩ := exists_of_forall₂ (hread.rebound h').flip hf'
    obtain ⟨st, hst, hrebound⟩ := exists_of_forall₂ hbody.flip hst'
    have hst := hderives.bounds.2 st (List.mem_flatMap.mpr ⟨f, hf, hst⟩)
    rw [← hlast] at hst
    exact hst.rebound (Expr.BoundsRule.inBounds hread h') hrebound
  · obtain ⟨begun, s, ended, ⟨d⟩, hbegun, hvars, hs⟩ :=
      Program.exists_declared htokens h hsplit hvar
    refine ⟨begun, s, ended, d, hbegun, fun es hinit => ?_⟩
    have hv : p.vars[d.number]? = some d.added := Reading.getElem?_mono hvars d.getElem?_number
    obtain ⟨base, len, hty, hlength, hlen, hnone, hsome⟩ :=
      d.exists_elements hinit (hread.proper _ (List.mem_of_getElem? hv))
    obtain ⟨v', hv', hfill⟩ := hresolved.fills.at_number hv
    have hty' : d.added.ty = .array base len := hty
    refine ⟨base, len, hty, ⟨v', hv', hfill.name, (hfill.ty (hty' ▸ rfl)).trans hty'⟩, hlength, hnone,
      fun hne => ?_⟩
    exact hread.assignsElements h' hv rfl (hlength.trans hlen) (hsome hne ▸ hs)
  · obtain ⟨u, hu, hty⟩ := hread.exists_of_array h' hv' harray
    obtain ⟨begun, s, ended, d, hsuffix, hnumber, rfl⟩ :=
      hderives.exists_array (Nat.zero_le id) (hlast ▸ hu) (hty ▸ harray)
    obtain ⟨before, hbefore⟩ := hsuffix
    rw [d.rest_eq] at hbefore
    refine ⟨before, d.keyword, _, hbefore.symm, d.is_var, begun, s, ended, d, d.rest_eq, hnumber, ?_,
      hu, hty⟩
    rcases d.written with htype | ⟨hunknown, -⟩
    · exact hty ▸ htype
    · rw [← hty, show d.added.ty = d.ty from rfl, hunknown] at harray
      cases harray

end Programs

/-- Arrays with as many elements as they have, with fewer and with none, at package level and in a
function, and **literal positions in them**. -/
def textOfArrays : String :=
  "package p var g [2]int = \x7b7, 8\x7d; func main() \x7b var a [3][4]int = \x7b\x7d
  var b [9]int8 = \x7b1, 'x'\x7d; a[2][0] = g[1]; x := b[8] \x7d"

theorem arraysDeclared_of_arrays :
    ∃ tokens p p', tokenize textOfArrays.toList = .ok tokens ∧
      Program.ofTokens textOfArrays.toList tokens = .ok p ∧ p.resolve = .ok p' ∧
      (p'.vars.filter fun v => v.ty.isArray).map (·.name) = ["g", "a", "b"] ∧
      p.ArraysDeclared tokens p' := by
  obtain ⟨p', hp', htest⟩ := exists_ok_of_text (s := textOfArrays) rfl (f := Program.ofSource)
    (P := fun _ p' => (p'.vars.filter fun v => v.ty.isArray).map (·.name) == ["g", "a", "b"])
    (by decide +kernel)
  obtain ⟨tokens, p, htokens, hread, hresolve⟩ := Program.ofSource_ok hp'
  have htokens := tokenize_of_tokensOf htokens
  exact ⟨tokens, p, p', htokens, hread, hresolve, beq_iff_eq.mp htest,
    arraysDeclared_of_resolve htokens hread hresolve⟩

end StackCompiler
