import StackCompiler.Proofs.Typing.Binding

/-!
# Proofs/Typing/Arrays — arrays are declared

No assignment makes an array of a variable, so the arrays of a program are **those that are declared**,
and each has its type from the first statement on.  A node that is an array variable has that type
wherever it stands (`Program.Read.arrays`); only other variables may be read without one.
-/

namespace StackCompiler

open Typing

/-! ## The rule -/

/-- The type of the variable of that number, if it is an array. -/
def Typing.arrayAt? (vars : List Variable) (id : VarId) : Option Ty :=
  (vars[id]?.map Variable.ty).filter Ty.isArray

/-- A node that is one of these arrays has **its type**. -/
def Expr.ArrayRule (vars : List Variable) : Expr → Prop
  | .var id ty _ => ∀ array ∈ arrayAt? vars id, ty = array
  | _ => True

namespace Typing

variable {names vars : List Variable} {s : Surroundings} {R : VarId → VarId → Prop} {slots : Slots}
  {α β : Type}

theorem arrayAt?_of_eq_some {id : VarId} {v : Variable} (hv : vars[id]? = some v) :
    arrayAt? vars id = (some v.ty).filter Ty.isArray := by
  rw [arrayAt?, hv, Option.map_some]

/-- What is given a type that is no array **is no array before or after**. -/
theorem arrayAt?_eq_none {id : VarId} {v : Variable} (hv : vars[id]? = some v)
    (h : v.ty.isArray = false) : arrayAt? vars id = none := by
  rw [arrayAt?_of_eq_some hv, Option.filter_some_neg (by simp [h])]

theorem arrayAt?_modify {id : VarId} {f : Variable → Variable} (id' : VarId)
    (hf : ∀ v, vars[id]? = some v →
      (some (f v).ty).filter Ty.isArray = (some v.ty).filter Ty.isArray) :
    arrayAt? (vars.modify id f) id' = arrayAt? vars id' := by
  rw [arrayAt?, arrayAt?, List.getElem?_modify]
  by_cases h : id = id'
  · subst h
    cases hv : vars[id]? with
    | none => rfl
    | some v => simpa using hf v hv
  · simp [h]

/-! ## Steps that make no arrays -/

/-- How a body is walked in arenas with these names: **the arrays stay** what they are. -/
abbrev arrayCourse (names : List Variable) : Course Slots where
  Sound slots := SameNames names slots.vars ∧ ∀ id, arrayAt? slots.vars id = arrayAt? names id
  Leads _ _ := True
  refl _ := trivial
  trans _ _ := trivial

/-- The step keeps names and arrays, and `Q` holds of its result. -/
abbrev KeepsArrays (names : List Variable) (x : Layout α) (Q : α → Prop) : Prop :=
  ∀ slots, (arrayCourse names).Sound slots →
    Ensures x slots ((arrayCourse names).Kept slots fun a _ => Q a)

section Steps

variable {Q : α → Prop} {P : β → Prop}

theorem keepsArrays_pure {a : α} (ha : Q a) : KeepsArrays names (pure a) Q :=
  fun _ hs => Course.kept_pure (c := arrayCourse names) hs ha

theorem KeepsArrays.bind {x : Layout α} {f : α → Layout β} (hx : KeepsArrays names x Q)
    (hf : ∀ a, Q a → KeepsArrays names (f a) P) : KeepsArrays names (x >>= f) P :=
  fun slots hs => Course.andThen (c := arrayCourse names) (hx slots hs)
    fun a slots' hs' _ ha => hf a ha slots' hs'

theorem keepsArrays_lift {x : Except Failure α} (h : Yields x Q) :
    KeepsArrays names (liftM x : Layout α) Q :=
  fun _ hs => (ensures_lift _ _ _).mpr <| h.mono fun _ hq => ⟨hs, trivial, hq⟩

theorem keepsArrays_get {f : Slots → Layout α}
    (h : ∀ slots, (arrayCourse names).Sound slots → KeepsArrays names (f slots) Q) :
    KeepsArrays names (get >>= f) Q :=
  fun slots hs => (ensures_bind _ _ _ _).mpr <| (ensures_get _ _).mpr (h slots hs slots hs)

theorem keepsArrays_mapM {f : α → Layout β} (as : List α) (h : ∀ a ∈ as, KeepsArrays names (f a) P) :
    KeepsArrays names (as.mapM f) fun bs => ∀ b ∈ bs, P b :=
  fun _ hs => Course.mapM (c := arrayCourse names) (P := fun b _ => P b) (fun _ hb => hb) as hs
    fun a ha slots hs _ => h a ha slots hs

theorem keepsArrays_optional {f : α → Layout β} (a : Option α)
    (h : ∀ b ∈ a, KeepsArrays names (f b) P) :
    KeepsArrays names (a.mapM f) fun b? => ∀ b ∈ b?, P b := by
  cases a with
  | none => exact keepsArrays_pure nofun
  | some a => exact (h a rfl).bind fun b hb => keepsArrays_pure fun _ hc => Option.some.inj hc ▸ hb

theorem keepsArrays_place (id : VarId) : KeepsArrays names (place id) fun _ => True := by
  refine keepsArrays_get fun slots hs => (keepsArrays_lift fun _ _ => trivial).bind fun v _ => ?_
  dsimp only
  split
  · exact keepsArrays_pure trivial
  split
  · exact (keepsArrays_lift (Q := fun _ => False) (yields_error _ _)).bind fun _ => False.elim
  split
  · exact keepsArrays_lift (yields_error _ _)
  · refine fun _ _ => (ensures_set _ _ _).mpr ⟨⟨sameNames_modify (fun v => ⟨rfl, rfl⟩) hs.1,
      fun id' => Eq.trans ?_ (hs.2 id')⟩, trivial, trivial⟩
    exact arrayAt?_modify id' fun _ _ => rfl

theorem keepsArrays_places (ids : List VarId) : KeepsArrays names (ids.forM place) fun _ => True :=
  fun _ hs => (Course.forM (c := arrayCourse names) (P := fun _ _ => True) (fun _ h => h) ids hs
    fun id _ slots hs _ => keepsArrays_place id slots hs).mono
      fun _ _ => Course.Kept.mono fun _ _ _ => trivial

end Steps

/-! ## Expressions -/

/-- **Typing an expression gives array variables their types.** -/
theorem yields_arrays (hs : (arrayCourse names).Sound slots) {e : Expr}
    (he : e.Everywhere (Bindable names s R)) :
    Yields (typed s slots.vars e) (Expr.Everywhere (Expr.ArrayRule names)) := by
  have hopen {e : Expr} (hty : e.ty.isResolved = false) : ¬e.ty.isResolved = true := by
    rw [hty]
    exact Bool.false_ne_true
  induction he with
  | num _ =>
    rw [typed]
    split <;> exact (yields_pure _ _).mpr (.num trivial)
  | str hty =>
    rw [typed, if_neg (hopen hty)]
    exact (yields_pure _ _).mpr (.str trivial)
  | @var id ty loc hvar =>
    rw [typed, if_neg (hopen (e := .var id ty loc) hvar.1), yields_bind]
    refine fun id' _ => (yields_bind _ _ _).mpr ?_
    refine (yields_variableOf slots.vars id').mono fun v hv => (yields_pure _ _).mpr ?_
    refine .var fun array harray => ?_
    rw [← hs.2 id', arrayAt?_of_eq_some hv] at harray
    exact Option.some.inj (Option.filter_eq_some_iff.mp harray).1
  | addr hty _ ih =>
    rw [typed, if_neg (hopen hty), yields_bind]
    exact ih.mono fun _ hoperand => (yields_pure _ _).mpr (.addr trivial hoperand)
  | deref hty _ ih =>
    rw [typed, if_neg (hopen hty), yields_bind]
    exact ih.mono fun _ hoperand => (yields_pure _ _).mpr (.deref trivial hoperand)
  | binary hty _ _ ihl ihr =>
    rw [typed, if_neg (hopen hty), yields_bind]
    refine ihr.mono fun rhs' hrhs => ?_
    rw [yields_bind]
    refine ihl.mono fun lhs' hlhs => ?_
    rw [yields_bind]
    exact fun _ _ => (yields_pure _ _).mpr (.binary trivial hlhs hrhs)
  | index hty _ _ ihb ihp =>
    rw [typed, if_neg (hopen hty), yields_bind]
    refine ihb.mono fun base' hbase => ?_
    rw [yields_bind]
    exact ihp.mono fun position' hposition => (yields_pure _ _).mpr (.index trivial hbase hposition)
  | @call name args ty loc hty _ ih =>
    rw [typed, if_neg (hopen hty), yields_bind]
    refine (yields_typedAll args ih).mono fun args' hargs => ?_
    rw [yields_bind]
    exact fun _ _ => (yields_pure _ _).mpr (.call trivial hargs)

theorem keepsArrays_typedHere {e : Expr} (he : e.Everywhere (Bindable names s R)) :
    KeepsArrays names (typedHere s e) (Expr.Everywhere (Expr.ArrayRule names)) :=
  keepsArrays_get fun _ hs => keepsArrays_lift (yields_arrays hs he)

/-! ## Statements -/

/-- A target may be given the type of an array, but then **it is an array**, and will be refused. -/
theorem ensures_target (hs : s.Declares names) {target : Expr} {ty : Ty}
    (ht : target.Everywhere (Bindable names s R)) (hslots : (arrayCourse names).Sound slots) :
    Ensures (inferred s target ty >>= typedHere s) slots fun target' slots' =>
      target'.ty.isArray = false →
        (arrayCourse names).Sound slots' ∧ target'.Everywhere (Expr.ArrayRule names) := by
  have hother (hinferred : inferred s target ty = pure target) :
      Ensures (inferred s target ty >>= typedHere s) slots fun target' slots' =>
        target'.ty.isArray = false →
          (arrayCourse names).Sound slots' ∧ target'.Everywhere (Expr.ArrayRule names) := by
    rw [hinferred, pure_bind]
    exact (keepsArrays_typedHere ht slots hslots).mono fun _ _ h _ => ⟨h.1, h.2.2⟩
  cases target with
  | var id t loc =>
    obtain ⟨hty, -⟩ := ht.here
    unfold inferred typedHere giveType
    simp only [bind_assoc, pure_bind, ensures_bind, ensures_get, ensures_lift, ensures_modify]
    refine (yields_refers hslots.1 id loc).mono fun bound hbound => ?_
    have hnames : SameNames names (slots.vars.modify bound fun v =>
        if v.ty.isResolved then v else { v with ty := ty }) :=
      sameNames_modify (fun v => by split <;> exact ⟨rfl, rfl⟩) hslots.1
    rw [typed, if_neg (by rw [Expr.ty, hty]; exact Bool.false_ne_true), yields_bind]
    refine (yields_refers hnames bound loc).mono fun id' hid => ?_
    cases hbound.eq_of_bound hs hid
    refine (yields_bind _ _ _).mpr <| (yields_variableOf _ bound).mono fun w hw => ?_
    refine (yields_pure _ _).mpr fun harray => ?_
    replace harray : w.ty.isArray = false := harray
    have harrays (id' : VarId) : arrayAt? (slots.vars.modify bound fun v =>
        if v.ty.isResolved then v else { v with ty := ty }) id' = arrayAt? slots.vars id' := by
      refine arrayAt?_modify id' fun v hv => ?_
      rw [List.getElem?_modify_eq, hv] at hw
      cases Option.some.inj hw
      dsimp only at harray ⊢
      by_cases hr : v.ty.isResolved = true
      · rw [if_pos hr]
      · rw [if_neg hr] at harray ⊢
        have huntyped : v.ty = .unknown := not_not.mp fun hne => hr (Ty.isResolved_iff.mpr hne)
        rw [huntyped, Option.filter_some_neg (by simpa using harray), Option.filter_some_neg (by decide)]
    refine ⟨⟨hnames, fun id' => (harrays id').trans (hslots.2 id')⟩, .var fun array h => ?_⟩
    rw [← hslots.2, ← harrays, arrayAt?_eq_none hw harray] at h
    cases h
  | _ => exact hother rfl

theorem keepsArrays_typedPair (hs : s.Declares names) {target value : Expr}
    (ht : target.Everywhere (Bindable names s R)) (hv : value.Everywhere (Bindable names s R)) :
    KeepsArrays names (typedPair s (target, value)) fun pair =>
      pair.1.Everywhere (Expr.ArrayRule names) ∧ pair.2.Everywhere (Expr.ArrayRule names) := by
  unfold typedPair
  refine (keepsArrays_typedHere hv).bind fun value' hvalue => ?_
  dsimp only
  split
  · exact (keepsArrays_lift (Q := fun _ => False) (yields_error _ _)).bind fun _ => False.elim
  rw [← bind_assoc]
  refine fun slots hslots => (ensures_bind _ _ _ _).mpr <|
    (ensures_target hs ht hslots).mono fun target' slots' htarget => ?_
  refine (ensures_bind _ _ _ _).mpr <| (ensures_lift _ _ _).mpr <|
    (yields_checkStore target' value').mono fun _ ⟨harray, _⟩ => ?_
  obtain ⟨hslots', htarget⟩ := htarget harray
  have hend : KeepsArrays names (pure (target', value') : Layout (Expr × Expr)) fun pair =>
      pair.1.Everywhere (Expr.ArrayRule names) ∧ pair.2.Everywhere (Expr.ArrayRule names) :=
    keepsArrays_pure ⟨htarget, hvalue⟩
  split
  · exact ((keepsArrays_place _).bind fun _ _ => hend) slots' hslots'
  · exact hend slots' hslots'

theorem keepsArrays_typedAssignment (hs : s.Declares names) {targets values : List Expr} {loc : Nat}
    (ht : ∀ e ∈ targets, e.Everywhere (Bindable names s R))
    (hv : ∀ e ∈ values, e.Everywhere (Bindable names s R)) :
    KeepsArrays names (typedAssignment s targets values loc)
      fun st => st.Everywhere (Expr.ArrayRule names) fun _ => True := by
  unfold typedAssignment
  dsimp only
  split
  · exact (keepsArrays_lift (Q := fun _ => False) (yields_error _ _)).bind fun _ => False.elim
  refine (keepsArrays_mapM _ fun pair hpair => keepsArrays_typedPair hs
    (ht _ (List.of_mem_zip hpair).1) (hv _ (List.of_mem_zip hpair).2)).bind fun pairs hpairs => ?_
  refine keepsArrays_pure (.assign trivial (fun e he => ?_) fun e he => ?_)
  · obtain ⟨pair, hpair, rfl⟩ := List.mem_map.mp he
    exact (hpairs pair hpair).1
  · obtain ⟨pair, hpair, rfl⟩ := List.mem_map.mp he
    exact (hpairs pair hpair).2

theorem keepsArrays_typedStmts : ∀ stmts : List Stmt,
    (∀ st ∈ stmts, KeepsArrays names (typedStmt s st)
      fun st' => st'.Everywhere (Expr.ArrayRule names) fun _ => True) →
    KeepsArrays names (typedStmts s stmts)
      fun stmts' => ∀ st ∈ stmts', st.Everywhere (Expr.ArrayRule names) fun _ => True
  | [], _ => keepsArrays_pure nofun
  | st :: stmts, h => by
    rw [typedStmts]
    refine (h st List.mem_cons_self).bind fun st' hst => ?_
    refine (keepsArrays_typedStmts stmts fun st hst => h st (List.mem_cons_of_mem _ hst)).bind
      fun stmts' hstmts => keepsArrays_pure ?_
    exact List.forall_mem_cons.mpr ⟨hst, hstmts⟩

/-- **Typing a statement makes no arrays.** -/
theorem keepsArrays_typedStmt (hs : s.Declares names) {st : Stmt}
    (h : st.Everywhere (Bindable names s R) fun _ => True) :
    KeepsArrays names (typedStmt s st)
      fun st' => st'.Everywhere (Expr.ArrayRule names) fun _ => True := by
  have heach {es : List Expr} (hes : ∀ e ∈ es, e.Everywhere (Bindable names s R)) :
      KeepsArrays names (es.mapM (typedHere s))
        fun es' => ∀ e ∈ es', e.Everywhere (Expr.ArrayRule names) :=
    keepsArrays_mapM es fun e he => keepsArrays_typedHere (hes e he)
  have hoptional {value : Option Expr} (hvalue : ∀ e ∈ value, e.Everywhere (Bindable names s R)) :
      KeepsArrays names (value.mapM (typedHere s))
        fun value' => ∀ e ∈ value', e.Everywhere (Expr.ArrayRule names) :=
    keepsArrays_optional value fun e he => keepsArrays_typedHere (hvalue e he)
  induction h with
  | expr _ he =>
    rw [typedStmt]
    exact (keepsArrays_typedHere he).bind fun _ hvalue => keepsArrays_pure (.expr trivial hvalue)
  | ret _ he =>
    rw [typedStmt]
    exact (hoptional he).bind fun _ hvalue => keepsArrays_pure (.ret trivial hvalue)
  | block _ _ ih =>
    rw [typedStmt]
    exact (keepsArrays_typedStmts _ ih).bind fun _ hbody => keepsArrays_pure (.block trivial hbody)
  | branch _ _ hc _ _ ihi ihb iho =>
    rw [typedStmt]
    refine ihi.bind fun _ hinit => (keepsArrays_typedHere hc).bind fun _ hcond => ?_
    refine (keepsArrays_typedStmts _ ihb).bind fun _ hbody => iho.bind fun _ hotherwise => ?_
    exact keepsArrays_pure (.branch trivial hinit hcond hbody hotherwise)
  | loop _ _ hc _ _ ihi ihp ihb =>
    rw [typedStmt]
    refine ihi.bind fun _ hinit => (hoptional hc).bind fun _ hcond => ?_
    refine (keepsArrays_typedStmts _ ihb).bind fun _ hbody => ihp.bind fun _ hpost => ?_
    exact keepsArrays_pure (.loop trivial hinit hcond hpost hbody)
  | assign _ ht hv =>
    rw [typedStmt]
    exact keepsArrays_typedAssignment hs ht hv
  | print _ ha =>
    rw [typedStmt]
    exact (heach ha).bind fun _ hargs => keepsArrays_pure (.print trivial hargs)
  | empty => exact keepsArrays_pure (.empty trivial)

/-! ## Functions -/

theorem keepsArrays_typedFunction {globals : List VarId} {signatures : List Signature} {f : Function}
    (hs : Surroundings.Declares ⟨f.locals, globals, signatures⟩ names)
    (hf : ∀ st ∈ f.body,
      st.Everywhere (Bindable names ⟨f.locals, globals, signatures⟩ R) fun _ => True) :
    KeepsArrays names (typedFunction globals signatures f)
      fun f' => ∀ st ∈ f'.body, st.Everywhere (Expr.ArrayRule names) fun _ => True := by
  rw [typedFunction_eq]
  have hlaid : KeepsArrays names (laidOut ⟨f.locals, globals, signatures⟩ f)
      fun body => ∀ st ∈ body, st.Everywhere (Expr.ArrayRule names) fun _ => True := by
    refine (keepsArrays_places _).bind fun _ _ => ?_
    refine (keepsArrays_typedStmts _ fun st hst => keepsArrays_typedStmt hs (hf st hst)).bind
      fun body hbody => ?_
    exact (keepsArrays_places _).bind fun _ _ => keepsArrays_pure hbody
  refine KeepsArrays.bind (Q := fun _ => True)
    (fun _ hslots => (ensures_modify _ _ _).mpr ⟨hslots, trivial, trivial⟩) fun _ _ => ?_
  refine hlaid.bind fun body hbody => keepsArrays_get fun slots _ => ?_
  split
  · exact keepsArrays_lift (yields_error _ _)
  · exact keepsArrays_pure hbody

end Typing

/-! ## Programs -/

section Programs

variable {p p' : Program}

/-- Resolving a program **makes no arrays**. -/
theorem Program.Read.yields_arrays (hread : p.Read) : Yields p.resolve fun p' =>
    (∀ id, arrayAt? p'.vars id = arrayAt? p.vars id) ∧
      ∀ f ∈ p'.funcs, ∀ st ∈ f.body, st.Everywhere (Expr.ArrayRule p.vars) fun _ => True := by
  intro p' h
  have hp := hread.resolve_outcome.1 p' h
  have hfuncs : KeepsArrays p.vars (p.funcs.mapM (typedFunction p.globals p.signatures))
      fun funcs => ∀ f ∈ funcs, ∀ st ∈ f.body, st.Everywhere (Expr.ArrayRule p.vars) fun _ => True :=
    keepsArrays_mapM p.funcs fun f hf => keepsArrays_typedFunction (hread.declares hf)
      fun st hst => hread.bindable hp hf hst
  have hall : Yields p.resolve fun p' => (∀ id, arrayAt? p'.vars id = arrayAt? p.vars id) ∧
      ∀ f ∈ p'.funcs, ∀ st ∈ f.body, st.Everywhere (Expr.ArrayRule p.vars) fun _ => True := by
    unfold Program.resolve
    rw [yields_bind]
    refine fun _ _ => (yields_bind _ _ _).mpr ?_
    refine (hfuncs ⟨p.vars, 0⟩ ⟨fun _ => rfl, fun _ => rfl⟩).run.mono ?_
    rintro ⟨funcs, slots⟩ ⟨⟨-, harrays⟩, -, hbodies⟩
    rw [yields_bind]
    exact fun _ _ => (yields_pure _ _).mpr ⟨harrays, hbodies⟩
  exact hall p' h

/-- In a program that has been resolved, **every node that is an array variable has its type**. -/
theorem Program.Read.arrays (hread : p.Read) (h : p.resolve = .ok p') :
    ∀ f ∈ p'.funcs, ∀ st ∈ f.body, st.Everywhere (Expr.ArrayRule p'.vars) fun _ => True := by
  obtain ⟨harrays, hbodies⟩ := hread.yields_arrays p' h
  intro f hf st hst
  refine (hbodies f hf st hst).mono (fun e he => ?_) fun _ h => h
  cases e with
  | var id ty loc => exact fun array harray => he array (harrays id ▸ harray)
  | _ => trivial

/-- An array variable is **the array that was declared**. -/
theorem Program.Read.exists_of_array (hread : p.Read) (h : p.resolve = .ok p') {id : VarId}
    {v : Variable} (hv : p'.vars[id]? = some v) (harray : v.ty.isArray = true) :
    ∃ u, p.vars[id]? = some u ∧ u.ty = v.ty := by
  have hsame := (hread.yields_arrays p' h).1 id
  rw [arrayAt?_of_eq_some hv, Option.filter_some_pos harray] at hsame
  obtain ⟨hty, -⟩ := Option.filter_eq_some_iff.mp hsame.symm
  obtain ⟨u, hu, hty⟩ := Option.map_eq_some_iff.mp hty
  exact ⟨u, hu, hty⟩

end Programs

end StackCompiler
