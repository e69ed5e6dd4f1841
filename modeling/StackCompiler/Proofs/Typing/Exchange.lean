import StackCompiler.Proofs.Grammar.Arena
import StackCompiler.Proofs.Typing.Again
import StackCompiler.Proofs.Typing.Fixed

/-!
# Proofs/Typing/Exchange — two functions are typed in the other order

While a function is typed nothing changes in the arena but its own locals, and all it asks for are
these, package-level variables, which have their types by then, and placeholders.  So two functions
that are neighbours may be typed in the other order: **each comes to the same types and frame**.
-/

namespace StackCompiler

open Typing

/-! ## One after the other -/

section Runs

variable {σ ε α β : Type} {f : α → StateT σ (Except ε) β} {s s' : σ}

theorem run_mapM_cons_iff {a : α} {as : List α} {bs : List β} :
    ((a :: as).mapM f).run s = .ok (bs, s') ↔ ∃ b bs' s₁, (f a).run s = .ok (b, s₁) ∧
      (as.mapM f).run s₁ = .ok (bs', s') ∧ bs = b :: bs' := by
  rw [List.mapM_cons, StateT.run_bind, bind_eq_ok_iff]
  constructor
  · rintro ⟨⟨b, s₁⟩, hb, h⟩
    rw [StateT.run_bind] at h
    obtain ⟨⟨bs', s₂⟩, hbs, h⟩ := bind_eq_ok_iff.mp h
    cases h
    exact ⟨b, bs', s₁, hb, hbs, rfl⟩
  · rintro ⟨b, bs', s₁, hb, hbs, rfl⟩
    refine ⟨(b, s₁), hb, ?_⟩
    rw [run_bind_of_ok hbs]
    rfl

theorem run_mapM_append_iff {as as' : List α} {bs : List β} :
    ((as ++ as').mapM f).run s = .ok (bs, s') ↔ ∃ bs₁ bs₂ s₁, (as.mapM f).run s = .ok (bs₁, s₁) ∧
      (as'.mapM f).run s₁ = .ok (bs₂, s') ∧ bs = bs₁ ++ bs₂ := by
  rw [List.mapM_append, StateT.run_bind, bind_eq_ok_iff]
  constructor
  · rintro ⟨⟨bs₁, s₁⟩, h₁, h⟩
    rw [StateT.run_bind] at h
    obtain ⟨⟨bs₂, s₂⟩, h₂, h⟩ := bind_eq_ok_iff.mp h
    cases h
    exact ⟨bs₁, bs₂, s₁, h₁, h₂, rfl⟩
  · rintro ⟨bs₁, bs₂, s₁, h₁, h₂, rfl⟩
    refine ⟨(bs₁, s₁), h₁, ?_⟩
    rw [run_bind_of_ok h₂]
    rfl

end Runs

/-! ## One function -/

section Function

variable {p : Program} {f : Function} {n : Numbering} {base base' : List Variable}

/-- A function that has been read names **what it may name**, and has no types yet but those of
numbers. -/
theorem Program.Read.namesSeen (hread : p.Read) (hf : f ∈ p.funcs) {st : Stmt} (hst : st ∈ f.body) :
    st.Everywhere (fun e => e.Names (p.MayName f) ∧ (e.ty.isResolved = true → e.root? = none))
      fun _ => True := by
  obtain ⟨first, last, hfread⟩ := hread.funcs.exists_read hf
  refine (hfread.body st hst).mono (fun e he => ?_) fun _ _ => trivial
  cases e with
  | num => exact ⟨trivial, fun _ => rfl⟩
  | str | addr => exact ⟨trivial, fun _ => rfl⟩
  | var id ty loc =>
    refine ⟨hread.mayName hfread he.2, fun hr => ?_⟩
    rw [Expr.ty, he.1] at hr
    cases hr
  | deref | binary | call => exact ⟨trivial, fun _ => rfl⟩
  | index base position ty loc =>
    refine ⟨trivial, fun hr => ?_⟩
    rw [Expr.ty, show ty = .unknown from he] at hr
    cases hr

/-- The arenas of two programs, as they are before a function of the one is typed in both of them. -/
def Program.pairing (p : Program) (f : Function) (hn : n.var.Injective)
    (hfills : Fills (fun _ => True) p.vars base) (hfixed : ∀ id ∈ p.globals, Fixed base id)
    (base' : List Variable) : Pairing where
  numbers := n
  injective := hn
  known := p.MayName f
  own id := id ∈ f.locals
  base := base
  base' := base'
  fixed id v hid hv hdeclared := by
    rcases hid with hid | hid | ⟨u, hu, hplaceholder⟩
    · exact .inl hid
    · exact .inr (hfixed id hid)
    · obtain ⟨v', hv', hfill⟩ := hfills.at_number hu
      cases hv.symm.trans hv'
      rw [hfill.isPlaceholder, hplaceholder] at hdeclared
      cases hdeclared

/-- What a function that has been typed in two arenas has made of them: **nothing but its own locals
changes**, and they change alike. -/
structure Changes (n : Numbering) (f : Function) (base base' vars vars' : List Variable) : Prop where
  own : ∀ id ∈ f.locals, SameVariable vars[id]? vars'[n.var id]?
  left : ∀ id ∉ f.locals, vars[id]? = base[id]?
  right : ∀ id ∉ f.locals, vars'[n.var id]? = base'[n.var id]?

/-- **A function is typed alike** from slots of two arenas that are the same where it may ask. -/
theorem Program.Read.exists_typedFunction (hread : p.Read) (hf : f ∈ p.funcs) (hn : n.var.Injective)
    {slots slots₁ : Slots} (slots' : Slots) (hfills : Fills (fun _ => True) p.vars slots.vars)
    (hfixed : ∀ id ∈ p.globals, Fixed slots.vars id)
    (hsame : ∀ id, p.MayName f id → SameVariable slots.vars[id]? slots'.vars[n.var id]?)
    {signatures : List Signature} (hsignatures : ∀ name, signatures.find? (·.name == name) =
      p.signatures.find? (·.name == name)) {f' : Function}
    (hrun : (typedFunction p.globals p.signatures f).run slots = .ok (f', slots₁)) :
    ∃ slots₁', (typedFunction (p.globals.map n.var) signatures (f.numbered n)).run slots' =
      .ok (f'.numbered n, slots₁') ∧ Changes n f slots.vars slots'.vars slots₁.vars slots₁'.vars := by
  let w := p.pairing f hn hfills hfixed slots'.vars
  obtain ⟨first, last, hfread⟩ := hread.funcs.exists_read hf
  have hbound : ∀ id ∈ f.locals ++ p.globals, w.Bound id := fun id hid => by
    rcases List.mem_append.mp hid with hid | hid
    · exact ⟨.inl hid, .inl hid⟩
    · exact ⟨.inr (.inl hid), .inr (hfixed id hid)⟩
  have hparallel := Pairing.parallel_typedFunction (w := w) (f := f) ⟨rfl, rfl, hbound, hsignatures⟩
    (fun id hid => hbound id (List.mem_append_left _ (hfread.params.subset hid)))
    (fun st hst => (hread.namesSeen hf hst).mono (fun e he => ⟨he.1, fun hr id hid => by
      rw [he.2 hr] at hid
      cases hid⟩) fun _ _ => trivial)
    slots slots' ⟨hsame, fun _ _ => rfl, fun _ _ => rfl⟩
  obtain ⟨⟨_, slots₁'⟩, hrun', rfl, harenas⟩ := hparallel.exists_ok hrun
  exact ⟨slots₁', hrun', fun id hid => harenas.same id (.inl hid), harenas.left, harenas.right⟩

/-- What a function may name is **no local of another one**. -/
theorem Program.Read.notMem_of_mayName (hread : p.Read) {g : Function} (hf : f ∈ p.funcs)
    (hdisjoint : f.locals.Disjoint g.locals) {id : VarId} (hid : p.MayName g id) : id ∉ f.locals := by
  intro hlocal
  obtain ⟨v, hv, hl, hdeclared⟩ := hread.locals hf hlocal
  rcases hid with hid | hid | ⟨u, hu, hplaceholder⟩
  · exact hdisjoint hlocal hid
  · obtain ⟨u, hu, hglobal, -⟩ := hread.globals id hid
    cases hv.symm.trans hu
    rw [hl] at hglobal
    cases hglobal
  · cases hv.symm.trans hu
    rw [hplaceholder] at hdeclared
    cases hdeclared

end Function

/-! ## Two functions -/

section Functions

variable {p : Program} {f g f' g' : Function} {n : Numbering} {slots slots₁ slots₂ slots' : Slots}
  {signatures : List Signature}

/-- Two functions that are typed one after the other are typed alike **in the other order**. -/
theorem Program.Read.exists_typedNeighbours (hread : p.Read) (hf : f ∈ p.funcs) (hg : g ∈ p.funcs)
    (hdisjoint : f.locals.Disjoint g.locals) (hn : n.var.Injective)
    (hfills : Fills (fun _ => True) p.vars slots.vars)
    (hfixed : ∀ id ∈ p.globals, Fixed slots.vars id)
    (hfills₁ : Fills (fun _ => True) p.vars slots₁.vars)
    (hfixed₁ : ∀ id ∈ p.globals, Fixed slots₁.vars id)
    (hsame : ∀ id : VarId, SameVariable slots.vars[id]? slots'.vars[n.var id]?)
    (hsignatures : ∀ name, signatures.find? (·.name == name) =
      p.signatures.find? (·.name == name))
    (hrun : (typedFunction p.globals p.signatures f).run slots = .ok (f', slots₁))
    (hrun₁ : (typedFunction p.globals p.signatures g).run slots₁ = .ok (g', slots₂)) :
    ∃ slots₁' slots₂', (typedFunction (p.globals.map n.var) signatures (g.numbered n)).run slots' =
        .ok (g'.numbered n, slots₁') ∧
      (typedFunction (p.globals.map n.var) signatures (f.numbered n)).run slots₁' =
        .ok (f'.numbered n, slots₂') ∧
      ∀ id : VarId, SameVariable slots₂.vars[id]? slots₂'.vars[n.var id]? := by
  -- the first one leaves what the second one asks for as it was
  obtain ⟨_, -, hkept⟩ := hread.exists_typedFunction (n := .same) hf Function.injective_id slots hfills
    hfixed (fun _ _ => rfl) (fun _ => rfl) hrun
  obtain ⟨slots₁', hrun₁', hg'⟩ := hread.exists_typedFunction hg hn slots' hfills₁ hfixed₁
    (fun id hid => hkept.left id (hread.notMem_of_mayName hf hdisjoint hid) ▸ hsame id) hsignatures
    hrun₁
  obtain ⟨slots₂', hrun₂', hf'⟩ := hread.exists_typedFunction hf hn slots₁' hfills hfixed
    (fun id hid =>
      hg'.right id (hread.notMem_of_mayName hg (List.disjoint_comm.mp hdisjoint) hid) ▸ hsame id)
    hsignatures hrun
  refine ⟨slots₁', slots₂', hrun₁', hrun₂', fun id => ?_⟩
  by_cases hid : id ∈ f.locals
  · rw [hg'.left id (hdisjoint hid)]
    exact hf'.own id hid
  · rw [hf'.right id hid]
    by_cases hid' : id ∈ g.locals
    · exact hg'.own id hid'
    · rw [hg'.left id hid', hg'.right id hid', hkept.left id hid]
      exact hsame id

end Functions

/-! ## Programs -/

section Programs

variable {p p' q : Program} {n : Numbering} {entry f g : Function} {before after : List Function}

theorem Program.perm_declared (hfuncs : p.funcs = entry :: before ++ f :: g :: after) :
    ((entry :: before ++ g :: f :: after).filter fun f => !f.isImplicit).Perm p.declared := by
  rw [declared, hfuncs]
  exact ((List.Perm.swap f g after).append_left (entry :: before)).filter _

/-- Calls find **the same functions** in the other order. -/
theorem Program.Read.find?_signatures (hread : p.Read)
    (hfuncs : p.funcs = entry :: before ++ f :: g :: after) (name : String) :
    (((entry :: before ++ g :: f :: after).filter fun f => !f.isImplicit).map
      (signatureOf p.vars)).find? (·.name == name) = p.signatures.find? (·.name == name) := by
  have hperm : (((entry :: before ++ g :: f :: after).filter fun f => !f.isImplicit).map
      (signatureOf p.vars)).Perm p.signatures :=
    (perm_declared hfuncs).map _
  refine (List.find?_eq_find?_of_perm hperm.symm ?_).symm
  have hnodup : (p.signatures.map (·.name)).Nodup := by
    rw [Program.signatures, List.map_map]
    exact hread.names
  rintro a ⟨ha, hname⟩ b ⟨hb, hname'⟩
  exact List.inj_on_of_nodup_map hnodup ha hb
    ((beq_iff_eq.mp hname).trans (beq_iff_eq.mp hname').symm)

/-- **The functions of a program are typed alike** with two of them in the other order. -/
theorem Program.Read.exists_typedFunctions (hread : p.Read) (hinit : p.Initialized)
    (hfuncs : p.funcs = entry :: before ++ f :: g :: after) (hn : n.var.Injective)
    {vars' : List Variable} (hsame : ∀ id : VarId, SameVariable p.vars[id]? vars'[n.var id]?)
    {signatures : List Signature} (hsignatures : ∀ name, signatures.find? (·.name == name) =
      p.signatures.find? (·.name == name)) {funcs : List Function} {slots : Slots}
    (hrun : (p.funcs.mapM (typedFunction p.globals p.signatures)).run ⟨p.vars, 0⟩ =
      .ok (funcs, slots)) :
    ∃ entry₁ before₁ f₁ g₁ after₁ slots', funcs = entry₁ :: before₁ ++ f₁ :: g₁ :: after₁ ∧
      (((entry :: before ++ g :: f :: after).map (Function.numbered n)).mapM
        (typedFunction (p.globals.map n.var) signatures)).run ⟨vars', 0⟩ =
          .ok ((entry₁ :: before₁ ++ g₁ :: f₁ :: after₁).map (Function.numbered n), slots') ∧
      ∀ id : VarId, SameVariable slots.vars[id]? slots'.vars[n.var id]? := by
  have hf : f ∈ p.funcs := hfuncs ▸ List.mem_append_right _ List.mem_cons_self
  have hg : g ∈ p.funcs :=
    hfuncs ▸ List.mem_append_right _ (List.mem_cons_of_mem _ List.mem_cons_self)
  have hdisjoint : f.locals.Disjoint g.locals := by
    have hpairwise := hfuncs ▸ hread.funcs.disjoint
    exact List.rel_of_pairwise_cons (List.pairwise_append.mp hpairwise).2.1 List.mem_cons_self
  rw [hfuncs] at hrun
  obtain ⟨fs₁, _, slots₀, hrun₀, hrest, rfl⟩ := run_mapM_append_iff.mp hrun
  obtain ⟨f₁, _, slots₁, hrunf, hrest₁, rfl⟩ := run_mapM_cons_iff.mp hrest
  obtain ⟨g₁, after₁, slots₂, hrung, hafter, rfl⟩ := run_mapM_cons_iff.mp hrest₁
  obtain ⟨entry₁, before₁, _, -, -, rfl⟩ := run_mapM_cons_iff.mp hrun₀
  -- what comes first fixes the types of the package-level variables
  obtain ⟨hfixed, hfills⟩ := hread.fixed hinit hfuncs hrun₀
  have hfuncs₁ : p.funcs = entry :: (before ++ [f]) ++ g :: after := by simp [hfuncs]
  have hrun₁ : ((entry :: (before ++ [f])).mapM (typedFunction p.globals p.signatures)).run
      ⟨p.vars, 0⟩ = .ok (entry₁ :: before₁ ++ [f₁], slots₁) :=
    run_mapM_append_iff.mpr ⟨_, _, _, hrun₀,
      run_mapM_cons_iff.mpr ⟨_, _, _, hrunf, rfl, rfl⟩, rfl⟩
  obtain ⟨hfixed₁, hfills₁⟩ := hread.fixed hinit hfuncs₁ hrun₁
  have hwhole {vars vars' : List Variable} : (Pairing.whole n hn).Arenas vars vars' ↔
      ∀ id : VarId, SameVariable vars[id]? vars'[n.var id]? := Pairing.arenas_whole_iff
  obtain ⟨⟨_, slots₀'⟩, hrun₀', rfl, harenas₀⟩ := (Pairing.parallel_typedFunctions hn p.globals
    hsignatures (entry :: before) ⟨p.vars, 0⟩ ⟨vars', 0⟩ (hwhole.mpr hsame)).exists_ok hrun₀
  obtain ⟨slots₁', slots₂', hrung', hrunf', hsame₂⟩ := hread.exists_typedNeighbours hf hg hdisjoint hn
    hfills hfixed hfills₁ hfixed₁ (hwhole.mp harenas₀) hsignatures hrunf hrung
  obtain ⟨⟨_, slots'⟩, hafter', rfl, harenas⟩ := (Pairing.parallel_typedFunctions hn p.globals
    hsignatures after slots₂ slots₂' (hwhole.mpr hsame₂)).exists_ok hafter
  refine ⟨entry₁, before₁, f₁, g₁, after₁, slots', rfl, ?_, hwhole.mp harenas⟩
  rw [List.map_append, List.map_append]
  exact run_mapM_append_iff.mpr ⟨_, _, _, hrun₀', run_mapM_cons_iff.mpr ⟨_, _, _, hrung',
    run_mapM_cons_iff.mpr ⟨_, _, _, hrunf', hafter', rfl⟩, rfl⟩, rfl⟩

section Checks

variable {vars vars' : List Variable}

/-- Parameters that pass the check pass it **under other numbers and in any order**. -/
theorem forM_checkParameters_numbered (hn : n.var.Injective)
    (hsame : ∀ id : VarId, SameVariable vars[id]? vars'[n.var id]?) {fs gs : List Function}
    (h : fs.forM (checkParameters vars) = .ok ()) (hsub : gs ⊆ fs) :
    (gs.map (Function.numbered n)).forM (checkParameters vars') = .ok () := by
  have hall := yields_forM (P := fun f => checkParameters vars f = .ok ()) fs (fun _ _ _ => id) _ h
  refine forM_eq_ok _ fun f' hf' => ?_
  obtain ⟨f, hf, rfl⟩ := List.mem_map.mp hf'
  obtain ⟨_, hok, -⟩ := (Pairing.agree_checkParameters (w := .whole n hn)
    (Pairing.arenas_whole_iff.mpr hsame) fun _ _ => trivial).exists_ok (hall f (hsub hf))
  exact hok

/-- Package-level variables that have types **have them under other numbers**. -/
theorem forM_checkGlobal_numbered (hn : n.var.Injective)
    (hsame : ∀ id : VarId, SameVariable vars[id]? vars'[n.var id]?) {ids : List VarId}
    (h : ids.forM (checkGlobal vars) = .ok ()) : (ids.map n.var).forM (checkGlobal vars') = .ok () := by
  have hagree := agree_forM (R := fun id id' => id' = n.var id)
    (f := checkGlobal vars) (g := checkGlobal vars') (fun id id' hid => hid ▸
      Pairing.agree_checkGlobal (w := .whole n hn) (Pairing.arenas_whole_iff.mpr hsame) trivial)
    (forall₂_madeBy n.var ids)
  obtain ⟨_, hok, -⟩ := hagree.exists_ok h
  exact hok

end Checks

/-- **A program is resolved with two functions in the other order**, and comes to the same types and
frames. -/
theorem Program.Exchanged.exists_resolve (h : p.Exchanged n p') (hn : n.var.Injective)
    (hread : p.Read) (hinit : p.Initialized) (hq : p.resolve = .ok q) :
    ∃ q', p'.resolve = .ok q' ∧ q.Exchanged n q' := by
  obtain ⟨entry, before, f, g, after, hfuncs, hfuncs'⟩ := h.funcs
  obtain ⟨_, hparameters, hq⟩ := bind_eq_ok_iff.mp hq
  obtain ⟨⟨funcs, slots⟩, hrun, hq⟩ := bind_eq_ok_iff.mp hq
  obtain ⟨_, hglobals, hq⟩ := bind_eq_ok_iff.mp hq
  cases hq
  have hsame : ∀ id : VarId, SameVariable p.vars[id]? p'.unplaced.vars[n.var id]? := fun id =>
    (h.vars id).trans (p'.sameVariable_unplaced _)
  have harenas : (Pairing.whole n hn).Arenas p.vars p'.unplaced.vars :=
    Pairing.arenas_whole_iff.mpr hsame
  have hdeclared : p'.unplaced.declared =
      ((entry :: before ++ g :: f :: after).filter fun f => !f.isImplicit).map
        (Function.numbered n) := by
    rw [declared, unplaced, hfuncs']
    exact List.filter_map
  have hsignatures : p'.unplaced.declared.map (signatureOf p'.unplaced.vars) =
      ((entry :: before ++ g :: f :: after).filter fun f => !f.isImplicit).map
        (signatureOf p.vars) := by
    rw [hdeclared, List.map_map]
    exact List.map_congr_left fun f _ => harenas.signatureOf_eq fun _ _ => trivial
  obtain ⟨entry₁, before₁, f₁, g₁, after₁, slots', rfl, hrun', hsame'⟩ :=
    hread.exists_typedFunctions hinit hfuncs hn hsame (hread.find?_signatures hfuncs) hrun
  have hparameters' : p'.unplaced.declared.forM (checkParameters p'.unplaced.vars) = .ok () :=
    hdeclared ▸ forM_checkParameters_numbered hn hsame hparameters (perm_declared hfuncs).subset
  have hglobals' := forM_checkGlobal_numbered hn hsame' hglobals
  have hfuncs₁ : p'.unplaced.funcs = (entry :: before ++ g :: f :: after).map (Function.numbered n) :=
    hfuncs'
  have hglobals₁ : p'.unplaced.globals = p.globals.map n.var := h.globals
  rw [← hglobals₁] at hrun' hglobals'
  rw [← hfuncs₁, ← hsignatures] at hrun'
  have hresolve : p'.unplaced.resolve = .ok { p'.unplaced with
      vars := slots'.vars
      funcs := (entry₁ :: before₁ ++ g₁ :: f₁ :: after₁).map (Function.numbered n) } :=
    bind_eq_ok_iff.mpr ⟨(), hparameters', bind_eq_ok_iff.mpr ⟨_, hrun',
      bind_eq_ok_iff.mpr ⟨(), hglobals', rfl⟩⟩⟩
  obtain ⟨q', hq', hunplaced⟩ := p'.agree_resolve.exists_ok' hresolve
  obtain ⟨hpackage, hvars, hglobals₂, hstrings, hfuncs₂⟩ := Program.mk.inj hunplaced
  refine ⟨q', hq', hpackage.trans h.package, fun id => ?_, hglobals₂.trans h.globals,
    fun i => ?_, entry₁, before₁, f₁, g₁, after₁, rfl, ?_⟩
  · refine (hsame' id).trans ?_
    rw [← List.getElem?_map, ← List.getElem?_map]
    exact congrArg (·[n.var id]?) hvars.symm
  · exact (congrArg (·[n.string i]?) hstrings).trans (h.strings i)
  · refine hfuncs₂.trans ?_
    rw [List.map_map]
    exact List.map_congr_left fun f _ => f.numbered_numbered .same n

end Programs

end StackCompiler
