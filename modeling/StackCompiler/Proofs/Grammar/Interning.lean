import StackCompiler.Proofs.Grammar.Declared
import StackCompiler.Proofs.Grammar.Literals
import StackCompiler.Proofs.Token.Lexemes

/-!
# Proofs/Grammar/Interning — the table of strings is the list of first uses

A table that only takes in what it lacks grows by **the first use of each string**: all that stands before
a string in the table has been used before it, and nothing else has.  So the strings of a program and
its table say the same thing (`Interned`).
-/

namespace StackCompiler

namespace Grammar

/-! ## First uses -/

section Uses

variable {tokens ts : List Token} {us : List (Nat × String)} {table : List String} {u : Nat × String}

theorem Uses.mem_of_str {t : Token} (h : Uses tokens ts us) (ht : t ∈ ts) (hkind : t.kind = .str) :
    (t.loc, t.body) ∈ us := by
  induction h with
  | nil => cases ht
  | str _ _ ih =>
    rcases List.mem_cons.mp ht with rfl | ht
    · exact List.mem_cons_self
    · exact List.mem_cons_of_mem _ (ih ht)
  | blank hident _ _ ih =>
    rcases List.mem_cons.mp ht with rfl | ht
    · exact absurd (hkind.symm.trans hident) nofun
    · exact List.mem_cons_of_mem _ (ih ht)
  | other hne _ ih =>
    rcases List.mem_cons.mp ht with rfl | ht
    · exact absurd hkind hne
    · exact ih ht

/-- **What is used** is the body of a string token, or the empty string. -/
theorem Uses.exists_token (h : Uses tokens ts us) (hu : u ∈ us) : ∃ t ∈ ts, t.loc = u.1 ∧
    (t.kind = .str ∧ u.2 = t.body ∨ t.kind = .ident ∧ DeclaresBlank tokens t ∧ u.2 = "") := by
  induction h with
  | nil => cases hu
  | @str t _ _ hkind _ ih =>
    rcases List.mem_cons.mp hu with rfl | hu
    · exact ⟨t, List.mem_cons_self, rfl, .inl ⟨hkind, rfl⟩⟩
    · exact (ih hu).imp fun _ h => ⟨List.mem_cons_of_mem _ h.1, h.2⟩
  | @blank t _ _ hkind ht _ ih =>
    rcases List.mem_cons.mp hu with rfl | hu
    · exact ⟨t, List.mem_cons_self, rfl, .inr ⟨hkind, ht, rfl⟩⟩
    · exact (ih hu).imp fun _ h => ⟨List.mem_cons_of_mem _ h.1, h.2⟩
  | other _ _ ih => exact (ih hu).imp fun _ h => ⟨List.mem_cons_of_mem _ h.1, h.2⟩

/-- Uses stand in **the places of tokens**, in their order. -/
theorem Uses.sublist (h : Uses tokens ts us) : (us.map Prod.fst).Sublist (ts.map Token.loc) := by
  induction h with
  | nil => exact .slnil
  | str _ _ ih | blank _ _ _ ih => exact ih.cons_cons _
  | other _ _ ih => exact ih.cons _

theorem mem_interned_iff {s s' : String} : s' ∈ interned table s ↔ s' ∈ table ∨ s' = s := by
  unfold interned
  split
  · next hs => exact ⟨.inl, fun h => h.elim id fun h => h ▸ hs⟩
  · rw [List.mem_append, List.mem_singleton]

theorem mem_enter_iff {s : String} : s ∈ enter table us ↔ s ∈ table ∨ ∃ u ∈ us, u.2 = s := by
  constructor
  · intro hs
    induction us generalizing table with
    | nil => exact .inl hs
    | cons u us ih =>
      rcases ih hs with hs | ⟨u', hu', rfl⟩
      · exact (mem_interned_iff.mp hs).imp_right fun h => ⟨u, List.mem_cons_self, h.symm⟩
      · exact .inr ⟨u', List.mem_cons_of_mem _ hu', rfl⟩
  · rintro (hs | ⟨u, hu, rfl⟩)
    · exact (prefix_enter table us).subset hs
    · exact mem_enter hu

theorem mem_numbers {loc i : Nat} :
    (loc, i) ∈ numbers table us ↔ ∃ u ∈ us, u.1 = loc ∧ table.idxOf u.2 = i := by
  rw [numbers, List.mem_map]
  exact exists_congr fun u => and_congr_right fun _ => Prod.mk_inj

/-- Each string of a table is entered **at one use**, behind all that stands before it. -/
theorem exists_first_use {j : Nat} (hlow : table.length ≤ j) (hhigh : j < (enter table us).length) :
    ∃ before u after, us = before ++ u :: after ∧ (enter table before).length = j ∧
      u.2 ∉ enter table before := by
  induction us generalizing table with
  | nil => exact absurd hhigh hlow.not_gt
  | cons u us ih =>
    have hgoes_on (hnext : (interned table u.2).length ≤ j) : ∃ before u' after,
        u :: us = before ++ u' :: after ∧ (enter table before).length = j ∧
          u'.2 ∉ enter table before := by
      obtain ⟨before, u', after, hus, hlength, hnew⟩ := ih hnext hhigh
      exact ⟨u :: before, u', after, congrArg _ hus, hlength, hnew⟩
    by_cases hmem : u.2 ∈ table
    · exact hgoes_on (by rwa [interned, if_pos hmem])
    rcases hlow.eq_or_lt with rfl | hlt
    · exact ⟨[], u, us, rfl, rfl, hmem⟩
    · exact hgoes_on (by rwa [interned, if_neg hmem, List.length_append])

/-- **Numbers are given out in the order of first uses**: before a number is used, exactly those below it
have been. -/
theorem exists_numbered (hus : (us.map Prod.fst).Pairwise (· < ·)) {j : Nat}
    (hj : j < (enter [] us).length) : ∃ loc, (loc, j) ∈ numbers (enter [] us) us ∧
      ∀ i, i < j ↔ ∃ loc' < loc, (loc', i) ∈ numbers (enter [] us) us := by
  obtain ⟨before, u, after, rfl, rfl, hnew⟩ := exists_first_use (Nat.zero_le j) hj
  rw [List.map_append, List.map_cons, List.pairwise_append, List.pairwise_cons] at hus
  obtain ⟨-, ⟨hafter, -⟩, hbefore⟩ := hus
  have hextends : enter [] before <+: enter [] (before ++ u :: after) :=
    enter_append ▸ prefix_enter _ _
  have hnumber : (enter [] (before ++ u :: after)).idxOf u.2 = (enter [] before).length := by
    have hentered : enter [] before ++ [u.2] <+: enter [] (before ++ u :: after) := by
      rw [enter_append, enter_cons, interned, if_neg hnew]
      exact prefix_enter _ _
    rw [idxOf_eq_of_extended hentered (List.mem_append_right _ (List.mem_singleton_self _)),
      List.idxOf_append_of_notMem hnew, List.idxOf_cons_self, Nat.add_zero]
  refine ⟨u.1, mem_numbers.mpr ⟨u, by simp, rfl, hnumber⟩, fun i => ⟨fun hi => ?_, ?_⟩⟩
  · have hmem := List.getElem_mem hi
    obtain ⟨u', hu', htext⟩ := (mem_enter_iff.mp hmem).resolve_left List.not_mem_nil
    refine ⟨u'.1, hbefore _ (List.mem_map_of_mem hu') _ List.mem_cons_self, mem_numbers.mpr
      ⟨u', List.mem_append_left _ hu', rfl, ?_⟩⟩
    rw [htext, idxOf_eq_of_extended hextends hmem]
    exact (nodup_enter List.nodup_nil).idxOf_getElem i hi
  · rintro ⟨_, hlt, hmem⟩
    obtain ⟨u', hu', rfl, rfl⟩ := mem_numbers.mp hmem
    have hearlier : u' ∈ before := by
      rcases List.mem_append.mp hu' with hu' | hu'
      · exact hu'
      rcases List.mem_cons.mp hu' with rfl | hu'
      · exact absurd hlt (lt_irrefl _)
      · exact absurd hlt (hafter _ (List.mem_map_of_mem hu')).not_gt
    have hmem : u'.2 ∈ enter [] before := mem_enter hearlier
    rw [idxOf_eq_of_extended hextends hmem]
    exact List.idxOf_lt_length_of_mem hmem

end Uses

end Grammar

/-! ## Programs -/

/-- What strings, each with its place and its number in the table, **have to do with the tokens**. -/
structure Interned (tokens : List Token) (vars : List Variable) (strings : List String)
    (literals : List (Nat × Nat)) : Prop where
  distinct : strings.Nodup
  /-- In each place there is one string at most. -/
  once : (literals.map Prod.fst).Nodup
  /-- Each string token is a string, with the number of its body. -/
  read : ∀ t ∈ tokens, t.kind = .str → ∃ i, (t.loc, i) ∈ literals ∧ strings[i]? = some t.body
  /-- A local that is declared as a string without a value **starts as the empty string**. -/
  blank : ∀ t, Grammar.DeclaresBlank tokens t → ∃ v ∈ vars, v.name = t.text ∧ v.loc = t.loc ∧
    v.ty = .string ∧ (v.isLocal = true → ∃ i, (t.loc, i) ∈ literals ∧ strings[i]? = some "")
  /-- There are no other strings. -/
  only : ∀ loc i, (loc, i) ∈ literals → ∃ t ∈ tokens, t.loc = loc ∧
    (t.kind = .str ∧ strings[i]? = some t.body ∨
      t.kind = .ident ∧ Grammar.DeclaresBlank tokens t ∧ strings[i]? = some "")
  same : ∀ loc i loc' i', (loc, i) ∈ literals → (loc', i') ∈ literals →
    (i = i' ↔ strings[i]? = strings[i']?)
  /-- Before a number is used, **exactly those below it** have been. -/
  numbered : ∀ j < strings.length, ∃ loc, (loc, j) ∈ literals ∧
    ∀ i, i < j ↔ ∃ loc' < loc, (loc', i) ∈ literals

section Programs

variable {source : List Char} {tokens : List Token} {p : Program}

theorem locs_of_tokenize (h : tokenize source = .ok tokens) :
    (tokens.map Token.loc).Pairwise (· < ·) :=
  List.pairwise_map.mpr ((ascending_of_tokenize h).imp And.left)

/-- What stands in a statement has **no strings but those** of the statement. -/
theorem Stmt.Within.literals {s whole : Stmt} (h : s.Within whole) : s.literals ⊆ whole.literals := by
  induction h with
  | self => exact List.Subset.refl _
  | @part whole part hpart _ ih =>
    intro x hx
    rw [literals_eq whole]
    exact List.mem_append_right _ (List.mem_flatMap.mpr ⟨part, hpart, ih hx⟩)

theorem Grammar.Derives.Stands.literals {s : Stmt} {ss : List Stmt} (h : Grammar.Derives.Stands s ss) :
    s.literals ⊆ ss.flatMap Stmt.literals := by
  rcases h with rfl | ⟨whole, hwhole, hin⟩
  · exact List.nil_subset _
  · exact fun x hx => List.mem_flatMap.mpr ⟨whole, hwhole, hin.literals hx⟩

/-- A string that is declared without a value is a variable, and a local one **starts as the empty
string**, since each string belongs to the token where it stands. -/
theorem Program.exists_blank (htokens : tokenize source = .ok tokens)
    (h : Program.ofTokens source tokens = .ok p)
    (honly : ∀ loc i, (loc, i) ∈ p.literals → ∃ t ∈ tokens, t.loc = loc ∧
      (t.kind = .str ∧ p.strings[i]? = some t.body ∨
        t.kind = .ident ∧ Grammar.DeclaresBlank tokens t ∧ p.strings[i]? = some ""))
    {t : Token} (ht : Grammar.DeclaresBlank tokens t) :
    ∃ v ∈ p.vars, v.name = t.text ∧ v.loc = t.loc ∧ v.ty = .string ∧
      (v.isLocal = true → ∃ i, (t.loc, i) ∈ p.literals ∧ p.strings[i]? = some "") := by
  obtain ⟨keyword, ty, rest, ⟨before, hsplit⟩, hvar, hkind, htext, hnext⟩ := ht
  obtain ⟨begun, s, ended, ⟨d⟩, hbegun, hended, hs⟩ :=
    Program.exists_declared htokens h hsplit.symm hvar
  obtain ⟨rfl, hty, hzero⟩ := d.zero_of_blank hbegun hkind htext hnext
  have hadded : d.added ∈ p.vars :=
    hended.subset (d.vars_after ▸ List.mem_append_right _ (List.mem_singleton_self _))
  refine ⟨d.added, hadded, rfl, rfl, hty, fun hlocal => ?_⟩
  have hscope : d.tables.scope ≠ none :=
    Option.isSome_iff_ne_none.mp (d.isLocal_added.symm.trans hlocal)
  obtain ⟨i, hi⟩ := (hzero ▸ d.assigns).exists_literal (hty ▸ rfl) hscope
  have hx : (d.name.loc, i) ∈ p.literals := p.literals_eq ▸ hs.literals hi
  obtain ⟨t, ht, hloc, hcases⟩ := honly d.name.loc i hx
  have hname : d.name ∈ tokens := hsplit ▸ by simp
  have hlocs := locs_of_tokenize htokens
  obtain rfl := List.inj_on_of_nodup_map (hlocs.imp Nat.ne_of_lt) ht hname hloc
  rcases hcases with ⟨hstr, -⟩ | ⟨-, -, hempty⟩
  · exact absurd (hstr.symm.trans d.kind_eq) (by decide)
  · exact ⟨i, hx, hempty⟩

/-- **The table of a program is made by its tokens.** -/
theorem Program.interned (htokens : tokenize source = .ok tokens)
    (h : Program.ofTokens source tokens = .ok p) : Interned tokens p.vars p.strings p.literals := by
  obtain ⟨last, hderives, hlast, hvars, hstrings⟩ := Program.exists_derives h
  obtain ⟨ts, us, hrest, huses, htable, hperm⟩ := hderives.exists_uses List.suffix_rfl
  have hliterals : Grammar.Derives.literals [] (p.funcs.flatMap (·.body)) = p.literals :=
    p.literals_eq.symm
  have hends := kind_of_mem_rest htokens hrest hlast
  have hlocs := locs_of_tokenize htokens
  replace hrest : tokens = ts ++ last.rest := hrest
  replace htable : p.strings = Grammar.enter [] us := hstrings.trans htable
  rw [hliterals, ← hstrings] at hperm
  have hascending : (us.map Prod.fst).Pairwise (· < ·) := by
    rw [hrest, List.map_append] at hlocs
    exact (List.pairwise_append.mp hlocs).1.sublist huses.sublist
  -- a string is a use, whose string has the number
  have hmem {loc i : Nat} : (loc, i) ∈ p.literals ↔ ∃ u ∈ us, u.1 = loc ∧ p.strings.idxOf u.2 = i :=
    hperm.mem_iff.trans Grammar.mem_numbers
  have hentry {u : Nat × String} (hu : u ∈ us) : p.strings[p.strings.idxOf u.2]? = some u.2 :=
    getElem?_idxOf (htable ▸ Grammar.mem_enter hu)
  have honly (loc i : Nat) (hx : (loc, i) ∈ p.literals) : ∃ t ∈ tokens, t.loc = loc ∧
      (t.kind = .str ∧ p.strings[i]? = some t.body ∨
        t.kind = .ident ∧ Grammar.DeclaresBlank tokens t ∧ p.strings[i]? = some "") := by
    obtain ⟨u, hu, rfl, rfl⟩ := hmem.mp hx
    obtain ⟨t, ht, hloc, hcases⟩ := huses.exists_token hu
    refine ⟨t, hrest ▸ List.mem_append_left _ ht, hloc, hcases.imp ?_ ?_⟩
    · exact fun ⟨hkind, hbody⟩ => ⟨hkind, hbody ▸ hentry hu⟩
    · exact fun ⟨hkind, hblank, hbody⟩ => ⟨hkind, hblank, hbody ▸ hentry hu⟩
  refine ⟨htable ▸ Grammar.nodup_enter List.nodup_nil, ?_, fun t ht hkind => ?_,
    fun t ht => Program.exists_blank htokens h honly ht, honly,
    fun loc i loc' i' hx hx' => ⟨fun hsame => hsame ▸ rfl, fun hsame => ?_⟩, fun j hj => ?_⟩
  · rw [(hperm.map Prod.fst).nodup_iff, Grammar.numbers, List.map_map]
    exact hascending.imp Nat.ne_of_lt
  · have htaken : t ∈ ts := by
      rw [hrest] at ht
      exact (List.mem_append.mp ht).resolve_right fun ht =>
        absurd (hkind.symm.trans (hends t ht)) (by decide)
    exact ⟨_, hmem.mpr ⟨_, huses.mem_of_str htaken hkind, rfl, rfl⟩,
      hentry (huses.mem_of_str htaken hkind)⟩
  · obtain ⟨u, hu, rfl, rfl⟩ := hmem.mp hx
    obtain ⟨u', hu', rfl, rfl⟩ := hmem.mp hx'
    rw [hentry hu, hentry hu'] at hsame
    rw [Option.some.inj hsame]
  · rw [htable] at hj
    simp only [hperm.mem_iff, htable]
    exact Grammar.exists_numbered hascending hj

end Programs

end StackCompiler
