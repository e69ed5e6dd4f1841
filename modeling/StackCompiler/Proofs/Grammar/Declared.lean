import StackCompiler.Proofs.Grammar.Trees
import StackCompiler.Proofs.Token.Tiles

/-!
# Proofs/Grammar/Declared — every declaration is in the tree

A `var` among the tokens of a derivation **begins a declaration** that was read there, and what this came
to stands in the trees, unless it is no statement at all (`Derives.exists_declared`).  No variable is an
array but one that was declared so (`Derives.exists_array`).
-/

namespace StackCompiler

theorem Stmt.Within.eq_empty {s : Stmt} (h : s.Within .empty) : s = .empty := by
  cases h with
  | self => rfl
  | part hpart => cases hpart

namespace Grammar.Derives

variable {r r' : Reading} {es : List Expr} {ss : List Stmt}

/-- The tokens that are left are the **last of those** that were there. -/
theorem suffix (h : Derives r es ss r') : r'.rest <:+ r.rest := by
  induction h with
  | nil => exact List.suffix_rfl
  | append _ _ ih ih' => exact ih'.trans ih
  | perm _ _ _ ih | node _ _ _ ih | stmt _ ih | dropped _ ih => exact ih
  | token hrest | str hrest => exact hrest ▸ List.suffix_cons _ _
  | named hrest => exact hrest ▸ List.suffix_rfl
  | declared d _ ih =>
    rw [d.rest_after, d.rest_eq]
    exact ih.trans (List.suffix_append [d.keyword, d.name] _)

/-- The arena **only grows**. -/
theorem prefix_vars (h : Derives r es ss r') : r.vars <+: r'.vars := by
  induction h with
  | nil => exact List.prefix_rfl
  | append _ _ ih ih' => exact ih.trans ih'
  | perm _ _ _ ih | node _ _ _ ih | stmt _ ih | dropped _ ih => exact ih
  | token _ hsame => exact hsame.vars ▸ List.prefix_rfl
  | named _ _ hvars => exact hvars
  | str _ _ hvars => exact hvars ▸ List.prefix_rfl
  | declared d _ ih =>
    rw [d.vars_after, ← d.same.vars]
    exact ih.trans (List.prefix_append _ _)

/-! ## Declarations in the trees -/

theorem not_suffix_tail {t : Token} {rest : List Token} : ¬t :: rest <:+ rest := fun h =>
  absurd h.length_le (by simp)

/-- A token that is followed by more than what is left is **one of those that were taken**. -/
theorem not_taken_of_eq {t : Token} {before rest rest' : List Token}
    (hrest : rest' = before ++ t :: rest) : ¬rest' <:+ rest := fun h =>
  not_suffix_tail (((hrest ▸ List.suffix_append before (t :: rest) : t :: rest <:+ rest')).trans h)

/-- Where one token is taken, **that is the token**. -/
theorem eq_of_taken {t t' : Token} {before rest rest' : List Token}
    (hrest : t' :: rest' = before ++ t :: rest) (hend : rest' <:+ rest) : t' = t := by
  cases before with
  | nil => exact (List.cons.inj hrest).1
  | cons _ before => exact absurd hend (not_taken_of_eq (List.cons.inj hrest).2)

/-- The statement is none, or **stands in one** of those. -/
def Stands (s : Stmt) (ss : List Stmt) : Prop :=
  s = .empty ∨ ∃ whole ∈ ss, s.Within whole

theorem Stands.mono {s : Stmt} {ss ss' : List Stmt} (h : Stands s ss) (hss : ss ⊆ ss') : Stands s ss' :=
  h.imp_right fun ⟨whole, hwhole, hin⟩ => ⟨whole, hss hwhole, hin⟩

/-- **Every `var` that is taken begins a declaration** that is read, and what this comes to stands in the
statements. -/
theorem exists_declared {keyword : Token} (hvar : keyword.is "var" = true) (h : Derives r es ss r') :
    ∀ {before rest : List Token}, r.rest = before ++ keyword :: rest → r'.rest <:+ rest →
      ∃ (begun : Reading) (s : Stmt) (ended : Reading), Nonempty (Declaring begun s ended) ∧
        begun.rest = keyword :: rest ∧ ended.vars <+: r'.vars ∧ Stands s ss := by
  induction h with
  | nil => exact fun hrest hend => absurd hend (not_taken_of_eq hrest)
  | @append r r' r'' es es' ss ss' h h' ih ih' =>
    intro before rest hrest hend
    have hsuffix : keyword :: rest <:+ r.rest := hrest ▸ List.suffix_append _ _
    -- the token is among those of the second part, or of the first one
    rcases List.suffix_or_suffix_of_suffix hsuffix h.suffix with hlater | hearlier
    · obtain ⟨between, hbetween⟩ := hlater
      obtain ⟨begun, s, ended, hd, hbegun, hvars, hs⟩ := ih' hbetween.symm hend
      exact ⟨begun, s, ended, hd, hbegun, hvars, hs.mono (List.subset_append_right _ _)⟩
    rcases List.suffix_cons_iff.mp hearlier with heq | hearlier
    · have hfirst : r'.rest = [] ++ keyword :: rest := heq
      obtain ⟨begun, s, ended, hd, hbegun, hvars, hs⟩ := ih' hfirst hend
      exact ⟨begun, s, ended, hd, hbegun, hvars, hs.mono (List.subset_append_right _ _)⟩
    · obtain ⟨begun, s, ended, hd, hbegun, hvars, hs⟩ := ih hrest hearlier
      exact ⟨begun, s, ended, hd, hbegun, hvars.trans h'.prefix_vars,
        hs.mono (List.subset_append_left _ _)⟩
  | perm _ _ hss ih =>
    intro before rest hrest hend
    obtain ⟨begun, s, ended, hd, hbegun, hvars, hs⟩ := ih hrest hend
    exact ⟨begun, s, ended, hd, hbegun, hvars, hs.mono hss.subset⟩
  | token hrest' _ ht =>
    intro before rest hrest hend
    obtain rfl := eq_of_taken (hrest'.symm.trans hrest) hend
    exact absurd hvar (Bool.eq_false_iff.mp ht.not_var)
  | named hrest' => exact fun hrest hend => absurd hend (not_taken_of_eq (hrest'.trans hrest))
  | str hrest' hkind =>
    intro before rest hrest hend
    obtain rfl := eq_of_taken (hrest'.symm.trans hrest) hend
    exact absurd (hkind.symm.trans (Token.is_iff.mp hvar).1) nofun
  | node _ _ _ ih =>
    intro before rest hrest hend
    obtain ⟨begun, s, ended, hd, hbegun, hvars, hs⟩ := ih hrest hend
    exact ⟨begun, s, ended, hd, hbegun, hvars, hs⟩
  | stmt _ ih =>
    intro before rest hrest hend
    obtain ⟨begun, s, ended, hd, hbegun, hvars, hs⟩ := ih hrest hend
    refine ⟨begun, s, ended, hd, hbegun, hvars, hs.imp_right ?_⟩
    rintro ⟨part, hpart, hin⟩
    exact ⟨_, List.mem_singleton_self _, .part hpart hin⟩
  | @declared r r' s d h ih =>
    intro before rest hrest hend
    rw [d.rest_eq] at hrest
    rw [d.rest_after] at hend
    rcases before with _ | ⟨_, _ | ⟨_, before⟩⟩
    · obtain ⟨rfl, rfl⟩ := List.cons.inj hrest
      exact ⟨r, s, r', ⟨d⟩, d.rest_eq, List.prefix_rfl, .inr ⟨s, List.mem_singleton_self s, .self⟩⟩
    · obtain ⟨rfl, rfl⟩ := List.cons.inj (List.cons.inj hrest).2
      exact absurd (d.kind_eq.symm.trans (Token.is_iff.mp hvar).1) nofun
    · obtain ⟨begun, s', ended, hd, hbegun, hvars, hs⟩ :=
        ih (List.cons.inj (List.cons.inj hrest).2).2 hend
      refine ⟨begun, s', ended, hd, hbegun, hvars.trans (d.vars_after ▸ List.prefix_append _ _), ?_⟩
      exact hs.mono (List.nil_subset _)
  | dropped _ ih =>
    intro before rest hrest hend
    obtain ⟨begun, s, ended, hd, hbegun, hvars, hs⟩ := ih hrest hend
    refine ⟨begun, s, ended, hd, hbegun, hvars, ?_⟩
    rcases hs with hs | ⟨whole, hwhole, hin⟩
    · exact .inl hs
    rcases List.mem_cons.mp hwhole with rfl | hwhole
    · exact .inl hin.eq_empty
    · exact .inr ⟨whole, hwhole, hin⟩

/-! ## Arrays -/

/-- **An array is declared as one.** -/
theorem exists_array {id : VarId} {v : Variable} (h : Derives r es ss r') (hle : r.vars.length ≤ id)
    (hv : r'.vars[id]? = some v) (harray : v.ty.isArray = true) :
    ∃ (begun : Reading) (s : Stmt) (ended : Reading) (d : Declaring begun s ended),
      begun.rest <:+ r.rest ∧ d.ended.vars.length = id ∧ d.added = v := by
  induction h with
  | nil => exact absurd (List.getElem?_eq_some_iff.mp hv).1 hle.not_gt
  | @append r r' r'' es es' ss ss' h h' ih ih' =>
    rcases Nat.lt_or_ge id r'.vars.length with hlt | hge
    · obtain ⟨more, hmore⟩ := h'.prefix_vars
      rw [← hmore, List.getElem?_append_left hlt] at hv
      exact ih hle hv
    · obtain ⟨begun, s, ended, d, hbegun, hd⟩ := ih' hge hv
      exact ⟨begun, s, ended, d, hbegun.trans h.suffix, hd⟩
  | perm _ _ _ ih | node _ _ _ ih | stmt _ ih | dropped _ ih => exact ih hle hv
  | token _ hsame =>
    rw [hsame.vars] at hv
    exact absurd (List.getElem?_eq_some_iff.mp hv).1 hle.not_gt
  | named _ _ _ hnew =>
    rw [hnew id v hle hv] at harray
    cases harray
  | str _ _ hvars =>
    rw [hvars] at hv
    exact absurd (List.getElem?_eq_some_iff.mp hv).1 hle.not_gt
  | @declared r r' s d h ih =>
    rw [d.vars_after] at hv
    rcases Nat.lt_or_ge id d.ended.vars.length with hlt | hge
    · rw [List.getElem?_append_left hlt] at hv
      obtain ⟨begun, s, ended, d', hbegun, hd⟩ := ih (d.same.vars ▸ hle) hv
      exact ⟨begun, s, ended, d', hbegun.trans (d.rest_eq ▸ List.suffix_append [d.keyword, d.name] _), hd⟩
    · rw [List.getElem?_append_right hge] at hv
      obtain ⟨hzero, rfl⟩ : id - d.ended.vars.length = 0 ∧ v = d.added := by
        simpa [List.getElem?_singleton, eq_comm] using hv
      exact ⟨r, s, r', d, List.suffix_rfl, hge.antisymm (Nat.sub_eq_zero_iff_le.mp hzero), rfl⟩

end Grammar.Derives

/-! ## Programs -/

section Programs

variable {source : List Char} {tokens : List Token} {p : Program}

/-- Nothing is left of a source but **its end**. -/
theorem kind_of_mem_rest (h : tokenize source = .ok tokens) {ts rest : List Token}
    (htokens : tokens = ts ++ rest) (hrest : rest.head?.all (·.kind == .eof) = true) :
    ∀ t ∈ rest, t.kind = .eof := by
  obtain ⟨init, hinit, hkinds⟩ := exists_concat_of_tokenize h
  cases rest with
  | nil => exact nofun
  | cons t rest =>
  have ht : t.kind = .eof := beq_iff_eq.mp hrest
  obtain rfl | ⟨rest, last, rfl⟩ := List.eq_nil_or_concat' rest
  · exact List.forall_mem_singleton.mpr ht
  · -- the end of the source stands behind all of them
    have hsplit : ts ++ t :: rest ++ [last] = init ++ [.sourceEnd (Text.byteLength source)] := by
      rw [← hinit, htokens, List.append_assoc]
      rfl
    obtain ⟨rfl, -⟩ := List.append_inj' hsplit rfl
    exact absurd ht (hkinds t (by simp))

/-- **Every `var` of a source begins a declaration** that stands in the program. -/
theorem Program.exists_declared (htokens : tokenize source = .ok tokens)
    (h : Program.ofTokens source tokens = .ok p) {before rest : List Token} {keyword : Token}
    (hsplit : tokens = before ++ keyword :: rest) (hvar : keyword.is "var" = true) :
    ∃ (begun : Grammar.Reading) (s : Stmt) (ended : Grammar.Reading),
      Nonempty (Grammar.Declaring begun s ended) ∧ begun.rest = keyword :: rest ∧
        ended.vars <+: p.vars ∧ Grammar.Derives.Stands s (p.funcs.flatMap (·.body)) := by
  obtain ⟨last, hderives, hlast, hvars, -⟩ := Program.exists_derives h
  obtain ⟨taken, htaken⟩ := hderives.suffix
  have hnot : keyword ∉ last.rest := fun hmem => by
    have hend := kind_of_mem_rest htokens htaken.symm hlast keyword hmem
    exact absurd (hend.symm.trans (Token.is_iff.mp hvar).1) nofun
  have hsuffix : keyword :: rest <:+ tokens := hsplit ▸ List.suffix_append _ _
  have hend : last.rest <:+ rest := by
    rcases List.suffix_or_suffix_of_suffix hsuffix hderives.suffix with hlater | hearlier
    · exact absurd (hlater.subset List.mem_cons_self) hnot
    rcases List.suffix_cons_iff.mp hearlier with heq | hearlier
    · exact absurd (heq ▸ List.mem_cons_self) hnot
    · exact hearlier
  rw [hvars]
  exact hderives.exists_declared hvar hsplit hend

end Programs

end StackCompiler
