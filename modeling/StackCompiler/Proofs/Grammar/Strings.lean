import StackCompiler.Proofs.Grammar.Neighbours

/-!
# Proofs/Grammar/Strings — the numbers of strings

A string has the number under which it was met first.  What is read does not depend on these numbers:
with another table to start from a package is read **as it was but for the numbers of its strings**.
So two packages that are exchanges of one another, once their strings have the same numbers, are so
under whatever numbers their strings have come to.
-/

namespace StackCompiler

/-! ## Tables with the same strings -/

/-- The number in the second table of what has that number in the first. -/
def reindexed (table table' : List String) (i : Nat) : Nat :=
  table[i]?.elim i table'.idxOf

section Reindexed

variable {table table' : List String} {s : String}

theorem reindexed_of_getElem? {i : Nat} (h : table[i]? = some s) :
    reindexed table table' i = table'.idxOf s := by
  rw [reindexed, h, Option.elim_some]

theorem reindexed_of_le {i : Nat} (h : table.length ≤ i) : reindexed table table' i = i := by
  rw [reindexed, List.getElem?_eq_none h, Option.elim_none]

theorem getElem?_idxOf (h : s ∈ table) : table[table.idxOf s]? = some s :=
  (List.getElem?_eq_getElem (List.idxOf_lt_length_of_mem h)).trans
    (congrArg some (List.getElem_idxOf _))

/-- In the second table **the same string** has the other number. -/
theorem getElem?_reindexed (h : table.Perm table') (i : Nat) :
    table'[reindexed table table' i]? = table[i]? := by
  cases hi : table[i]? with
  | none =>
    have hle := List.getElem?_eq_none_iff.mp hi
    rw [reindexed_of_le hle, List.getElem?_eq_none (h.length_eq ▸ hle)]
  | some s =>
    rw [reindexed_of_getElem? hi, getElem?_idxOf (h.mem_iff.mp (List.mem_of_getElem? hi))]

theorem reindexed_reindexed (hnodup : table.Nodup) (h : table.Perm table') (i : Nat) :
    reindexed table' table (reindexed table table' i) = i := by
  have hback := getElem?_reindexed h i
  cases hi : table[i]? with
  | none =>
    have hle := List.getElem?_eq_none_iff.mp hi
    rw [reindexed_of_le hle, reindexed_of_le (h.length_eq ▸ hle)]
  | some s =>
    rw [hi] at hback
    obtain ⟨hlt, rfl⟩ := List.getElem?_eq_some_iff.mp hi
    rw [reindexed_of_getElem? hback, hnodup.idxOf_getElem]

/-- From one table to another one with the same strings, as a permutation of numbers. -/
def reindexPerm (h : table.Perm table') (hnodup : table.Nodup) : Equiv.Perm Nat where
  toFun := reindexed table table'
  invFun := reindexed table' table
  left_inv := reindexed_reindexed hnodup h
  right_inv := reindexed_reindexed (h.nodup_iff.mp hnodup) h.symm

/-- What is added to both tables **has one number** in them. -/
theorem reindexed_idxOf (h : table.Perm table') (more : List String) (s : String) :
    reindexed table table' ((table ++ more).idxOf s) = (table' ++ more).idxOf s := by
  by_cases hs : s ∈ table
  · rw [List.idxOf_append_of_mem hs, List.idxOf_append_of_mem (h.mem_iff.mp hs),
      reindexed_of_getElem? (getElem?_idxOf hs)]
  · rw [List.idxOf_append_of_notMem hs, List.idxOf_append_of_notMem (mt h.mem_iff.mpr hs),
      reindexed_of_le (Nat.le_add_right _ _), h.length_eq]

end Reindexed

theorem SpacedWithin.refl (source : List Char) (ts : List Token) : SpacedWithin source source ts ts := by
  induction ts with
  | nil => trivial
  | cons t ts ih => exact ⟨⟨rfl, rfl, rfl, Iff.rfl⟩, fun _ _ => rfl, ih⟩

theorem SpacedWithin.symm {source source' : List Char} {ts ts' : List Token}
    (h : SpacedWithin source source' ts ts') : SpacedWithin source' source ts' ts := by
  fun_induction SpacedWithin source source' ts ts' with
  | case1 => trivial
  | case2 t ts t' ts' ih =>
    obtain ⟨halike, hbreaks, hrest⟩ := h
    have hnil : ts' ≠ [] → ts ≠ [] := by
      rintro hne rfl
      exact hne (List.forall₂_nil_left_iff.mp hrest.alike)
    refine ⟨⟨halike.kind.symm, halike.text.symm, halike.value.symm, halike.mark.symm⟩,
      fun ht hne => (hbreaks (halike.is_eq _ ▸ ht) (hnil hne)).symm, ih hrest⟩
  | case3 => exact h.elim

/-! ## Programs under other numbers -/

section Exchanged

variable {p p' q : Program}

/-- Two programs that are exchanges of one another **stay so under other numbers of strings**. -/
theorem Program.Exchanged.renumbered {var : VarId → VarId} {string : Nat → Nat}
    (h : p.Exchanged ⟨var, id⟩ q)
    (hpackage : p'.package = q.package) (hvars : ∀ id : VarId, SameVariable q.vars[id]? p'.vars[id]?)
    (hglobals : p'.globals = q.globals) (hstrings : ∀ i, p'.strings[string i]? = q.strings[i]?)
    (hfuncs : p'.funcs.map Function.unplaced = q.funcs.map (Function.numbered ⟨id, string⟩)) :
    p.Exchanged ⟨var, string⟩ p' where
  package := hpackage.trans h.package
  vars id := (h.vars id).trans (hvars _)
  globals := hglobals.trans h.globals
  strings i := (hstrings i).trans (h.strings i)
  funcs := by
    obtain ⟨entry, before, f, g, after, hp, hq⟩ := h.funcs
    refine ⟨entry, before, f, g, after, hp, ?_⟩
    rw [hfuncs, ← Function.map_numbered_unplaced, hq, List.map_map]
    exact List.map_congr_left fun f _ => f.numbered_numbered ⟨id, string⟩ ⟨var, id⟩

end Exchanged

namespace Grammar

/-! ## One source with two tables -/

section Tables

variable {table table' : List String} {s : String}

/-- A source compared with itself, with its strings under other numbers. -/
def Comparison.ofTables (c : CutSource) (string string' : Nat → Nat)
    (Tables : List String → List String → Prop)
    (h : ∀ {table table' : List String}, Tables table table' → ∀ s,
      string (table.idxOf s) = string' (table'.idxOf s) ∧
        Tables (Grammar.interned table s) (Grammar.interned table' s)) :
    Comparison where
  left := c
  right := c
  numbers := ⟨id, string⟩
  numbers' := ⟨id, string'⟩
  Tables := Tables
  interned := h

theorem subset_interned (h : table' ⊆ table) : Grammar.interned table' s ⊆ Grammar.interned table s := by
  intro t ht
  have hgrown : table ⊆ Grammar.interned table s := by
    unfold Grammar.interned
    split
    · exact List.Subset.refl _
    · exact List.subset_append_left _ _
  unfold Grammar.interned at ht
  split at ht
  · exact hgrown (h ht)
  · rcases List.mem_append.mp ht with ht | ht
    · exact hgrown (h ht)
    · exact List.mem_singleton.mp ht ▸ mem_interned table s

theorem nodup_interned (h : table.Nodup) : (Grammar.interned table s).Nodup := by
  unfold interned
  split
  · exact h
  · next hs => exact List.concat_eq_append ▸ h.concat hs

end Tables

section Strings

variable {c : CutSource} {p : Program} {last : Reading} {table : List String}

/-- The start of a source with a table of strings. -/
def startWith (c : CutSource) (table : List String) : Reading :=
  { Reading.start c.source c.tokens with strings := table }

/-- From two tables that a comparison relates **a package is read alike**. -/
theorem exists_package_ofTables {w : Comparison} (hleft : w.left = c) (hright : w.right = c)
    (hvar : w.numbers.var = id) (hvar' : w.numbers'.var = id) {table' : List String}
    (htables : w.Tables table table') (hrun : package.run (startWith c table) = .ok (p, last)) :
    ∃ p' last', package.run (startWith c table') = .ok (p', last') ∧ w.Programs p p' := by
  have hbeside : Reading.Beside w (startWith c table) (startWith c table') :=
    { left := ⟨by rw [hleft]; rfl, fun _ ht => by rw [hleft]; exact ht⟩
      right := ⟨by rw [hright]; rfl, fun _ ht => by rw [hright]; exact ht⟩
      previous := rfl
      spaced := by
        rw [hleft, hright]
        exact .refl _ _
      vars := fun _ _ _ => rfl
      fresh := fun i j => by
        rw [Comparison.Ids, Meets, hvar, hvar']
        exact Nat.add_left_cancel_iff (n := 0)
      globals := rfl
      scope := rfl
      strings := htables }
  obtain ⟨p', last', hrun', hp, -⟩ := inStep_package.exists_run hbeside hrun
  exact ⟨p', last', hrun', hp⟩

/-- The strings of a package **are all different**. -/
theorem nodup_of_run (htable : table.Nodup) (hrun : package.run (startWith c table) = .ok (p, last)) :
    p.strings.Nodup := by
  obtain ⟨p', -, -, hp⟩ := exists_package_ofTables
    (w := .ofTables c id id (fun table table' => table = table' ∧ table.Nodup)
      fun {table table'} h s => ⟨h.1 ▸ rfl, h.1 ▸ rfl, nodup_interned h.2⟩)
    rfl rfl rfl rfl ⟨rfl, htable⟩ hrun
  exact hp.strings.2

/-- A package that is read from some table **is read from none**, and has no strings but those. -/
theorem exists_run_start (hrun : package.run (startWith c table) = .ok (p, last)) :
    ∃ p' last', package.run (startWith c []) = .ok (p', last') ∧ p'.strings ⊆ p.strings := by
  obtain ⟨p', last', hrun', hp⟩ := exists_package_ofTables
    (w := .ofTables c (fun _ => 0) (fun _ => 0) (fun table table' => table' ⊆ table)
      fun h s => ⟨rfl, subset_interned h⟩)
    rfl rfl rfl rfl (List.nil_subset _) hrun
  exact ⟨p', last', hrun', hp.strings⟩

/-- From a table with the same strings a package is read **as it was but for their numbers**. -/
theorem exists_run_perm {table' : List String} (h : table.Perm table') (hnodup : table.Nodup)
    (hrun : package.run (startWith c table) = .ok (p, last)) (hstrings : p.strings = table) :
    ∃ p' last', package.run (startWith c table') = .ok (p', last') ∧
      p'.package = p.package ∧ (∀ id : VarId, SameVariable p.vars[id]? p'.vars[id]?) ∧
      p'.globals = p.globals ∧ p'.strings = table' ∧
      p'.funcs.map Function.unplaced = p.funcs.map (Function.numbered ⟨id, reindexPerm h hnodup⟩) := by
  obtain ⟨p', last', hrun', hp⟩ := exists_package_ofTables
    (w := .ofTables c (reindexed table table') id
      (fun t t' => ∃ more, t = table ++ more ∧ t' = table' ++ more) (by
      rintro _ _ ⟨more, rfl, rfl⟩ s
      have hmem : s ∈ table ++ more ↔ s ∈ table' ++ more := by
        rw [List.mem_append, List.mem_append, h.mem_iff]
      refine ⟨reindexed_idxOf h more s, ?_⟩
      by_cases hs : s ∈ table ++ more
      · exact ⟨more, if_pos hs, if_pos (hmem.mp hs)⟩
      · exact ⟨more ++ [s], (if_neg hs).trans (List.append_assoc _ _ _),
          (if_neg (mt hmem.mpr hs)).trans (List.append_assoc _ _ _)⟩))
    rfl rfl rfl rfl ⟨[], (List.append_nil _).symm, (List.append_nil _).symm⟩ hrun
  obtain ⟨more, hmore, hmore'⟩ := hp.strings
  obtain rfl : more = [] := List.append_right_eq_self.mp (hmore.symm.trans hstrings)
  refine ⟨p', last', hrun', hp.package.symm, fun id => hp.vars id id rfl, ?_, ?_, hp.funcs.symm⟩
  · exact ((List.map_id _).symm.trans (hp.globals.trans (List.map_id _))).symm
  · exact hmore'.trans (List.append_nil _)

/-- With its own strings in the table from the start **a package is read as it was**. -/
theorem exists_run_again (hrun : package.run (startWith c []) = .ok (p, last)) :
    ∃ p' last', package.run (startWith c p.strings) = .ok (p', last') ∧
      (Comparison.ofSources c c).Programs p p' := by
  obtain ⟨t, i, rest, d, htokens, ht, hi, hiterate, rfl⟩ := run_package_eq_ok_iff.mp hrun
  replace htokens : c.tokens = t :: i :: (rest ++ []) :=
    (htokens : c.tokens = _).trans (congrArg (t :: i :: ·) (List.append_nil rest).symm)
  have habreast := abreast_start htokens htokens (.refl _ _) last.strings
  rw [List.append_nil] at habreast
  obtain ⟨d', last', hrounds', hlast⟩ := habreast.finishes rfl (fun _ => Iff.rfl) List.prefix_rfl
    (habreast.left.rounds hiterate)
  obtain ⟨front, front', -, -, hbeside⟩ := hlast.parts
  obtain ⟨fs, fs', hfuncs, hfuncs', hfs⟩ := hlast.declared.funcs
  refine ⟨programOf i.text d' last', last', run_package_eq_ok_iff.mpr
    ⟨t, i, rest, d', htokens.trans (congrArg (t :: i :: ·) (List.append_nil rest)), ht, hi,
      hrounds'.run, rfl⟩, rfl, hbeside.vars, hbeside.globals, hlast.strings.symm, ?_⟩
  rw [programOf, programOf, Meets, List.map_cons, List.map_cons, functions_implicit hlast.declared.inits,
    hfuncs, hfuncs']
  exact congrArg (_ :: ·) hfs

end Strings

/-! ## Two functions in the other order -/

theorem Exchanged.symm {c c' : CutSource} {ts ts' : Parts Token} (h : Exchanged c c' ts ts') :
    Exchanged c' c ts'.exchanged ts.exchanged where
  tokens := h.tokens'
  tokens' := h.tokens
  sound := h.sound'.exchanged
  sound' := h.sound.exchanged
  front := h.front.symm
  first := h.second.symm
  second := h.first.symm
  back := h.back.symm

section Exchange

variable {c c' : CutSource} {ts ts' : Parts Token} {p p' q : Program} {last : Reading}

theorem run_ofTokens_iff : Program.ofTokens c.source c.tokens = .ok p ↔
    ∃ last, package.run (startWith c []) = .ok (p, last) := by
  change (package.run (startWith c []) >>= fun result => pure result.1) = .ok p ↔ _
  cases package.run (startWith c []) with
  | error failure => exact ⟨nofun, fun ⟨_, h⟩ => nomatch h⟩
  | ok result =>
    refine ⟨fun h => ⟨result.2, ?_⟩, fun ⟨_, h⟩ => ?_⟩
    · rw [← Except.ok.inj h]
    · rw [Except.ok.inj h]
      rfl

/-- The order of two functions has no influence on **which strings a package has**. -/
theorem Exchanged.exists_run_subset (h : Exchanged c c' ts ts')
    (hrun : package.run (startWith c []) = .ok (p, last)) :
    ∃ p' last', package.run (startWith c' []) = .ok (p', last') ∧ p'.strings ⊆ p.strings := by
  obtain ⟨q, last₁, hrun₁, var, hq⟩ := exists_package_exchanged h hrun
  obtain ⟨p', last', hrun', hsubset⟩ := exists_run_start hrun₁
  have hstrings : q.strings = p.strings := List.ext_getElem? hq.strings
  exact ⟨p', last', hrun', hstrings ▸ hsubset⟩

/-- **A package is read with two functions in the other order**, and comes to the same but for the
numbers of its variables and strings. -/
theorem Exchanged.exists_ofTokens (h : Exchanged c c' ts ts')
    (hp : Program.ofTokens c.source c.tokens = .ok p) :
    ∃ p', Program.ofTokens c'.source c'.tokens = .ok p' ∧
      ∃ var string : Equiv.Perm Nat, p.Exchanged ⟨var, string⟩ p' := by
  obtain ⟨last, hrun⟩ := run_ofTokens_iff.mp hp
  -- both packages have the same strings
  obtain ⟨p', last', hrun', hsubset⟩ := h.exists_run_subset hrun
  obtain ⟨p₁, last₁, hrun₁, hsubset'⟩ := h.symm.exists_run_subset hrun'
  obtain ⟨rfl, -⟩ := Prod.mk.inj (Except.ok.inj (hrun.symm.trans hrun₁))
  have hnodup := nodup_of_run .nil hrun
  have hperm : p.strings.Perm p'.strings :=
    (List.perm_ext_iff_of_nodup hnodup (nodup_of_run .nil hrun')).mpr
      fun s => ⟨fun hs => hsubset' hs, fun hs => hsubset hs⟩
  -- the right one is compared with itself under the numbers of the left one
  obtain ⟨q, last₂, hrun₂, var, hq⟩ := exists_package_exchanged h hrun
  obtain ⟨p₃, last₃, hrun₃, hpackage, hvars, hglobals, -, hfuncs⟩ :=
    exists_run_perm hperm hnodup hrun₂ (List.ext_getElem? hq.strings)
  obtain ⟨p₄, last₄, hrun₄, hagain⟩ := exists_run_again hrun'
  obtain ⟨rfl, -⟩ := Prod.mk.inj (Except.ok.inj (hrun₃.symm.trans hrun₄))
  have hstrings : q.strings = p.strings := List.ext_getElem? hq.strings
  refine ⟨p', run_ofTokens_iff.mpr ⟨last', hrun'⟩, var, reindexPerm hperm hnodup,
    hq.renumbered (hagain.package.trans hpackage)
      (fun id => (hvars id).trans (hagain.vars id id rfl).symm)
      ?_ (fun i => ?_) (hagain.funcs.trans hfuncs)⟩
  · exact ((List.map_id _).symm.trans (hagain.globals.trans (List.map_id _))).trans hglobals
  · rw [hstrings]
    exact getElem?_reindexed hperm i

end Exchange

end Grammar

end StackCompiler
