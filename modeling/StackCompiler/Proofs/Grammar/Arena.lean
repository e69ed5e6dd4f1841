import Mathlib.Data.List.Nodup
import StackCompiler.Compilation
import StackCompiler.Proofs.Grammar.Package

/-!
# Proofs/Grammar/Arena — how the arena of a program is shared out

All variables of a program stand in one arena, whatever function they belong to.  In a program that
has been read each number of the arena **has one owner**: it is listed once, as a package-level
variable or as a local of one function, or it is a placeholder and is not listed at all
(`Program.count_listed`).  Trees name only what their function may name.  `sharedOut_of_ofTokens`
says so of every token list that is read.
-/

namespace StackCompiler

variable {p : Program} {f : Function}

/-! ## Who owns a number -/

/-- The numbers that are listed somewhere: package-level variables and the locals of all functions. -/
def Program.listed (p : Program) : List VarId :=
  p.globals ++ p.funcs.flatMap (·.locals)

/-- The name that a number of the arena stands for. -/
def Program.nameOf? (p : Program) (id : VarId) : Option String :=
  p.vars[id]?.map (·.name)

/-- A tree of the function may name the number: a local of the function, a package-level variable or
a placeholder. -/
def Program.MayName (p : Program) (f : Function) (id : VarId) : Prop :=
  id ∈ f.locals ∨ id ∈ p.globals ∨ ∃ v, p.vars[id]? = some v ∧ v.isPlaceholder = true

/-- Of a node: it names what it may name, its string is in the table, and what it takes a position in
is no placeholder. -/
def Expr.OwnedRule (p : Program) (f : Function) : Expr → Prop
  | .str string _ _ => string < p.strings.length
  | .var id _ _ => id < p.vars.length ∧ p.MayName f id
  | .index base _ _ _ => base.IsKnown p.vars
  | _ => True

/-- The arena of the program is shared out among its functions and its package. -/
structure Program.SharedOut (p : Program) : Prop where
  /-- A placeholder is listed nowhere, and any other variable **once, in one list**. -/
  listed : ∀ (id : VarId) (v : Variable), p.vars[id]? = some v →
    p.listed.count id = if v.isPlaceholder then 0 else 1
  globals : ∀ id ∈ p.globals, ∃ v, p.vars[id]? = some v ∧ v.isLocal = false
  locals : ∀ f ∈ p.funcs, ∀ id ∈ f.locals, ∃ v, p.vars[id]? = some v ∧ v.isLocal = true
  params : ∀ f ∈ p.funcs, f.params <+: f.locals
  slotless : ∀ v ∈ p.vars, v.offset = 0
  blank : ∀ v ∈ p.vars, v.isPlaceholder = true → v.ty = .unknown
  globalNames : (p.globals.map p.nameOf?).Nodup
  localNames : ∀ f ∈ p.funcs, (f.locals.map p.nameOf?).Nodup
  functionNames : (p.declared.map (·.name)).Nodup
  /-- Locals have other names than the package-level variables **declared before** them. -/
  fresh : ∀ f ∈ p.funcs, f.Fresh p.vars p.globals
  bodies : ∀ f ∈ p.funcs, ∀ s ∈ f.body, s.Everywhere (Expr.OwnedRule p f) (Stmt.KnownRule p.vars)

/-! ## Lists of numbers -/

/-- Numbers that have different names have different numbers, so **no name comes twice**. -/
theorem Program.nodup_names {ids : List VarId} (hasc : ids.Pairwise (· < ·))
    (harena : ∀ id ∈ ids, ∃ v, p.vars[id]? = some v)
    (hdistinct : ∀ id ∈ ids, ∀ id' ∈ ids, ∀ v v' : Variable, p.vars[id]? = some v →
      p.vars[id']? = some v' → v.name = v'.name → id = id') : (ids.map p.nameOf?).Nodup := by
  refine List.Nodup.map_on (fun id hid id' hid' hname => ?_) (hasc.imp LT.lt.ne)
  obtain ⟨v, hv⟩ := harena id hid
  obtain ⟨v', hv'⟩ := harena id' hid'
  rw [nameOf?, nameOf?, hv, hv'] at hname
  exact hdistinct id hid id' hid' v v' hv hv' (Option.some.inj hname)

theorem ReadInTurn.nodup_locals {vars : List Variable} {strings first last : Nat}
    {fs : List Function} (h : ReadInTurn vars strings first fs last) :
    (fs.flatMap (·.locals)).Nodup := by
  refine List.nodup_flatMap.mpr ⟨fun f hf => ?_, h.disjoint⟩
  obtain ⟨first, last, hread⟩ := h.exists_read hf
  exact hread.ascending.imp LT.lt.ne

namespace Program.Read

theorem locals (hread : p.Read) (hf : f ∈ p.funcs) {id : VarId} (hid : id ∈ f.locals) :
    ∃ v, p.vars[id]? = some v ∧ v.isLocal = true ∧ v.isPlaceholder = false := by
  obtain ⟨first, last, hfread⟩ := hread.funcs.exists_read hf
  exact (hfread.locals id hid).2

/-- No number is listed twice: locals of different functions differ, and **none is package-level**. -/
theorem nodup_listed (hread : p.Read) : p.listed.Nodup := by
  refine List.nodup_append'.mpr
    ⟨hread.ordered.imp LT.lt.ne, hread.funcs.nodup_locals, fun id hglobal hlocal => ?_⟩
  obtain ⟨f, hf, hid⟩ := List.mem_flatMap.mp hlocal
  obtain ⟨v, hv, hisGlobal, -⟩ := hread.globals id hglobal
  obtain ⟨w, hw, hisLocal, -⟩ := hread.locals hf hid
  cases hv.symm.trans hw
  rw [hisLocal] at hisGlobal
  cases hisGlobal

/-- What is listed is **what was declared**. -/
theorem mem_listed_iff (hread : p.Read) {id : VarId} {v : Variable} (hv : p.vars[id]? = some v) :
    id ∈ p.listed ↔ v.isPlaceholder = false := by
  rw [Program.listed, List.mem_append, List.mem_flatMap]
  constructor
  · rintro (hid | ⟨f, hf, hid⟩)
    · obtain ⟨w, hw, -, hdeclared⟩ := hread.globals id hid
      cases hv.symm.trans hw
      exact hdeclared
    · obtain ⟨w, hw, -, hdeclared⟩ := hread.locals hf hid
      cases hv.symm.trans hw
      exact hdeclared
  · intro hdeclared
    cases hlocal : v.isLocal with
    | false => exact .inl (hread.listed id v hv hdeclared hlocal)
    | true => exact .inr (hread.owned id v hv hdeclared hlocal)

theorem count_listed (hread : p.Read) {id : VarId} {v : Variable} (hv : p.vars[id]? = some v) :
    p.listed.count id = if v.isPlaceholder then 0 else 1 := by
  have hmem := hread.mem_listed_iff hv
  cases hplaceholder : v.isPlaceholder with
  | true => exact List.count_eq_zero.mpr fun hid => by rw [hmem, hplaceholder] at hid; cases hid
  | false => exact List.count_eq_one_of_mem hread.nodup_listed (hmem.mpr hplaceholder)

/-! ## Trees -/

/-- What stands in the arena and, if it is a local, in the function's own stretch, **may be named**
in the function. -/
theorem mayName (hread : p.Read) {first last : Nat}
    (hf : f.Read p.vars p.strings.length first last) {id : VarId}
    (hid : InArena p.vars (fun id => first ≤ id ∧ id < last) id) : p.MayName f id := by
  obtain ⟨v, hv, hown⟩ := hid
  cases hplaceholder : v.isPlaceholder with
  | true => exact .inr (.inr ⟨v, hv, hplaceholder⟩)
  | false =>
    cases hlocal : v.isLocal with
    | false => exact .inr (.inl (hread.listed id v hv hplaceholder hlocal))
    | true =>
      obtain ⟨hfirst, hlast⟩ := hown hlocal
      exact .inl (hf.listed id v hfirst hlast hv hplaceholder hlocal)

theorem ownedRule (hread : p.Read) {first last : Nat}
    (hf : f.Read p.vars p.strings.length first last) (e : Expr)
    (h : e.ReadRule p.vars p.strings.length (fun id => first ≤ id ∧ id < last) ∧
      e.KnownRule p.vars) : e.OwnedRule p f := by
  cases e with
  | str string ty loc => exact h.1.2
  | var id ty loc =>
    obtain ⟨v, hv, -⟩ := h.1.2
    exact ⟨(List.getElem?_eq_some_iff.mp hv).1, hread.mayName hf h.1.2⟩
  | index base position ty loc => exact h.2
  | _ => trivial

end Program.Read

/-- **Reading shares the arena out.**  In every program that is read from tokens each number of the
arena is listed once, as a package-level variable or as a local of one function, unless it is a
placeholder, which is listed nowhere; the lists hold variables of their kind, without slots and with
names of their own; and trees name what their function may name. -/
theorem sharedOut_of_ofTokens {source : List Char} {tokens : List Token}
    (h : Program.ofTokens source tokens = .ok p) : p.SharedOut := by
  have hread := Program.read_of_ofTokens h
  refine {
    listed := fun id v hv => hread.count_listed hv
    globals := fun id hid => ?_
    locals := fun f hf id hid => ?_
    params := fun f hf => ?_
    slotless := hread.slotless
    blank := hread.blank
    globalNames := Program.nodup_names hread.ordered (fun id hid => ?_) hread.distinct
    localNames := fun f hf => ?_
    functionNames := hread.names
    fresh := hread.fresh
    bodies := fun f hf s hs => ?_ }
  · obtain ⟨v, hv, hglobal, -⟩ := hread.globals id hid
    exact ⟨v, hv, hglobal⟩
  · obtain ⟨v, hv, hlocal, -⟩ := hread.locals hf hid
    exact ⟨v, hv, hlocal⟩
  · obtain ⟨first, last, hfread⟩ := hread.funcs.exists_read hf
    exact hfread.params
  · obtain ⟨v, hv, -⟩ := hread.globals id hid
    exact ⟨v, hv⟩
  · obtain ⟨first, last, hfread⟩ := hread.funcs.exists_read hf
    refine Program.nodup_names hfread.ascending (fun id hid => ?_) hfread.distinct
    obtain ⟨v, hv, -⟩ := hread.locals hf hid
    exact ⟨v, hv⟩
  · obtain ⟨first, last, hfread⟩ := hread.funcs.exists_read hf
    exact ((hfread.body s hs).and (hread.known f hf s hs)).mono (hread.ownedRule hfread)
      fun _ hs => hs.2

/-- Variables of all kinds: package-level ones on both sides of a function, parameters, locals, and
a name that is read before it is declared. -/
def textOfAllKinds : String :=
  "package p var g = 3; func f(a int) \x7b var t [2]int = \x7b1, h\x7d; t[0], a = a, g \x7d
  var h int; func main() \x7b \x7d"

/-- There **one number of five** is a placeholder's. -/
theorem sharedOut_of_all_kinds :
    ∃ tokens p, tokensOf textOfAllKinds.toList = .ok tokens ∧
      Program.ofTokens textOfAllKinds.toList tokens = .ok p ∧
      (p.vars.length = 5 ∧ p.listed.length = 4) ∧ p.SharedOut := by
  obtain ⟨p, hp, hlengths⟩ := exists_ok_of_text (s := textOfAllKinds) rfl
    (f := fun source => tokensOf source >>= Program.ofTokens source)
    (P := fun _ p => p.vars.length == 5 && p.listed.length == 4) (by decide +kernel)
  obtain ⟨tokens, htokens, hread⟩ := bind_eq_ok_iff.mp hp
  obtain ⟨hvars, hlisted⟩ := Bool.and_eq_true_iff.mp hlengths
  exact ⟨tokens, p, htokens, hread, ⟨beq_iff_eq.mp hvars, beq_iff_eq.mp hlisted⟩,
    sharedOut_of_ofTokens hread⟩

end StackCompiler
