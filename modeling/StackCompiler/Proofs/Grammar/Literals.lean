import StackCompiler.Proofs.Grammar.Returning
import StackCompiler.Proofs.Grammar.Strings
import StackCompiler.Proofs.Grammar.Trees
import StackCompiler.Proofs.Token.Tiles

/-!
# Proofs/Grammar/Literals — the strings of a program and its table

Every string token is a use of its body, and the name of a local string that starts out empty is a use of
the empty string (`Uses`).  The table is what these uses enter **in their order**, each string once, and
the strings of the trees are these uses with their numbers: so equal numbers are equal bodies, and
the numbers are given out without gaps in the order of the first uses.
-/

namespace StackCompiler

namespace Grammar

/-! ## Uses -/

/-- The token is the name in a declaration of a string that is given **no value**. -/
def DeclaresBlank (tokens : List Token) (t : Token) : Prop :=
  ∃ keyword ty rest, keyword :: t :: ty :: rest <:+ tokens ∧ keyword.is "var" = true ∧
    ty.kind = .typeName ∧ ty.text = "string" ∧ rest.head?.any (·.is "=") = false

/-- The strings that the tokens are uses of, with the places where: a string token of its body, and the
name in such a declaration, **it may be**, of the empty string. -/
inductive Uses (tokens : List Token) : List Token → List (Nat × String) → Prop
  | nil : Uses tokens [] []
  | str {t : Token} {ts : List Token} {us : List (Nat × String)} (hkind : t.kind = .str)
      (h : Uses tokens ts us) : Uses tokens (t :: ts) ((t.loc, t.body) :: us)
  | blank {t : Token} {ts : List Token} {us : List (Nat × String)} (hkind : t.kind = .ident)
      (ht : DeclaresBlank tokens t) (h : Uses tokens ts us) : Uses tokens (t :: ts) ((t.loc, "") :: us)
  | other {t : Token} {ts : List Token} {us : List (Nat × String)} (hkind : t.kind ≠ .str)
      (h : Uses tokens ts us) : Uses tokens (t :: ts) us

/-- The table after those uses. -/
def enter (table : List String) (us : List (Nat × String)) : List String :=
  us.foldl (fun table u => interned table u.2) table

/-- The places of uses, with the numbers that their strings have in the table. -/
def numbers (table : List String) (us : List (Nat × String)) : List (Nat × Nat) :=
  us.map fun u => (u.1, table.idxOf u.2)

section Uses

variable {tokens ts ts' : List Token} {us us' : List (Nat × String)} {table : List String}

theorem Uses.append (h : Uses tokens ts us) (h' : Uses tokens ts' us') :
    Uses tokens (ts ++ ts') (us ++ us') := by
  induction h with
  | nil => exact h'
  | str hkind _ ih => exact .str hkind ih
  | blank hkind ht _ ih => exact .blank hkind ht ih
  | other hkind _ ih => exact .other hkind ih

theorem enter_cons {u : Nat × String} : enter table (u :: us) = enter (interned table u.2) us := rfl

theorem prefix_enter (table : List String) (us : List (Nat × String)) : table <+: enter table us := by
  induction us generalizing table with
  | nil => exact List.prefix_rfl
  | cons u us ih => exact (prefix_interned table u.2).trans (ih _)

theorem mem_enter {u : Nat × String} (hu : u ∈ us) : u.2 ∈ enter table us := by
  induction us generalizing table with
  | nil => cases hu
  | cons u' us ih =>
    rcases List.mem_cons.mp hu with rfl | hu
    · exact (prefix_enter _ us).subset (mem_interned table u.2)
    · exact ih hu

theorem nodup_enter (h : table.Nodup) : (enter table us).Nodup := by
  induction us generalizing table with
  | nil => exact h
  | cons u us ih => exact ih (nodup_interned h)

theorem enter_append : enter table (us ++ us') = enter (enter table us) us' :=
  List.foldl_append

/-- In a table that goes on **numbers stay**. -/
theorem idxOf_eq_of_extended {table' : List String} (h : table <+: table') {s : String} (hs : s ∈ table) :
    table'.idxOf s = table.idxOf s := by
  obtain ⟨more, rfl⟩ := h
  exact List.idxOf_append_of_mem hs

theorem numbers_eq_of_extended {table' : List String} (h : table <+: table') (hus : ∀ u ∈ us, u.2 ∈ table) :
    numbers table' us = numbers table us :=
  List.map_congr_left fun u hu => congrArg (u.1, ·) (idxOf_eq_of_extended h (hus u hu))

end Uses

/-! ## Declarations of strings -/

/-- A string type is written as **the one name** that it has. -/
theorem ensures_type_string (r : Reading) : Ensures type r fun ty r' => ty.isString = true →
    ∃ t, r.rest = t :: r'.rest ∧ t.kind = .typeName ∧ t.text = "string" := by
  have hnamed (r : Reading) : Ensures namedType r fun ty r' => ty.isString = true →
      ∃ t, r.rest = t :: r'.rest ∧ t.kind = .typeName ∧ t.text = "string" := by
    refine ensures_peek_bind ?_
    split
    · next t ht =>
      obtain ⟨rest, hr⟩ := List.head?_eq_some_iff.mp ht
      split
      · next ty hkind hname =>
        refine ensures_bind_of_run (run_advance hr) ((ensures_pure _ _ _).mpr fun hty => ?_)
        refine ⟨t, hr, hkind, ?_⟩
        unfold Ty.ofName? at hname
        split_ifs at hname with _ _ _ _ hstring <;> cases hname <;> first | exact hstring | cases hty
      · exact ensures_unexpected _
    · exact ensures_unexpected _
  have hto (depth : Nat) (r : Reading) : Ensures (typeTo depth) r fun ty r' => ty.isString = true →
      ∃ t, r.rest = t :: r'.rest ∧ t.kind = .typeName ∧ t.text = "string" := by
    cases depth with
    | zero => exact ensures_broken _ r
    | succ depth =>
      refine derives_accept_bind (by decide) (fun r₁ _ => ?_) ?_
      · exact (ensures_bind _ _ _ _).mpr fun _ _ _ => (ensures_pure _ _ _).mpr nofun
      refine derives_accept_bind (by decide) (fun r₁ _ => ?_) (hnamed r)
      refine (ensures_bind _ _ _ _).mpr fun ⟨len, loc⟩ r₂ _ => ?_
      dsimp only
      split
      · exact ensures_refuse_bind _ _ _ _
      refine (ensures_bind _ _ _ _).mpr fun _ r₃ _ => (ensures_bind _ _ _ _).mpr fun base r₄ _ => ?_
      unfold arrayType
      dsimp only
      split
      · exact (ensures_pure _ _ _).mpr nofun
      · exact ensures_refuse _ _ _
  unfold type bounded bound
  simp only [ensures_bind, ensures_get, ensures_pure]
  exact hto _ r

/-- Without an initial value, **no equals sign** comes next. -/
theorem ensures_initial_zero (r : Reading) : Ensures initial r fun init r' => init = .zero →
    r' = r ∧ r.rest.head?.any (·.is "=") = false := by
  rcases run_accept_cases "=" r with ⟨t, rest, hr, ht, hrun⟩ | ⟨hnot, hrun⟩
  · refine ensures_bind_of_run hrun (derives_accept_bind (by decide) (fun r₁ _ => ?_) ?_) <;>
      exact (ensures_bind _ _ _ _).mpr fun _ _ _ => (ensures_pure _ _ _).mpr nofun
  · exact ensures_bind_of_run hrun ((ensures_pure _ _ _).mpr fun _ => ⟨rfl, hnot⟩)

/-- What is written as a string **is one**. -/
theorem ensures_type_of_string {r : Reading} {t : Token} {rest : List Token} (hr : r.rest = t :: rest)
    (hkind : t.kind = .typeName) (htext : t.text = "string") :
    Ensures type r fun ty r' => ty = .string ∧ r'.rest = rest := by
  have hother {text : String} : ∀ token ∈ r.rest.head?, token.is text = false := by
    rw [hr]
    rintro _ ⟨⟩
    rw [Token.is, hkind]
    rfl
  unfold type bounded bound
  simp only [ensures_bind, ensures_get, ensures_pure]
  unfold typeTo
  refine ensures_else hother ?_
  refine ensures_else hother (ensures_peek_bind ?_)
  rw [hr, List.head?_cons]
  simp only [hkind, htext]
  exact ensures_bind_of_run (run_advance hr) ((ensures_pure _ _ _).mpr ⟨rfl, rfl⟩)

/-- **How a string without a value is declared.** -/
theorem Declaring.declaresBlank {r r' : Reading} {s : Stmt} (d : Declaring r s r')
    (hinit : d.init = .zero) (hty : d.ty.isString = true) {tokens : List Token}
    (hr : r.rest <:+ tokens) : DeclaresBlank tokens d.name := by
  rcases d.written with htype | ⟨hunknown, -⟩
  · obtain ⟨t, hrest, hkind, htext⟩ := ensures_type_string _ _ _ htype hty
    refine ⟨d.keyword, t, d.typed.rest, hrest ▸ d.rest_eq ▸ hr, d.is_var, hkind, htext, ?_⟩
    exact (ensures_initial_zero _ _ _ d.init_eq hinit).2
  · rw [hunknown] at hty
    cases hty

/-- What is declared so **is a string without a value**. -/
theorem Declaring.zero_of_blank {r r' : Reading} {s : Stmt} (d : Declaring r s r')
    {keyword t ty : Token} {rest : List Token} (hr : r.rest = keyword :: t :: ty :: rest)
    (hkind : ty.kind = .typeName) (htext : ty.text = "string")
    (hnext : rest.head?.any (·.is "=") = false) : d.name = t ∧ d.ty = .string ∧ d.init = .zero := by
  obtain ⟨-, htail⟩ := List.cons.inj (d.rest_eq.symm.trans hr)
  obtain ⟨hname, hnamed⟩ := List.cons.inj htail
  rcases d.written with htype | ⟨-, -, hahead⟩
  · obtain ⟨hty, htyped⟩ := ensures_type_of_string hnamed hkind htext _ _ htype
    refine ⟨hname, hty, ?_⟩
    have hinitial : Ensures initial d.typed fun init _ => init = .zero := by
      rcases run_accept_cases "=" d.typed with ⟨t', rest', hr', ht', -⟩ | ⟨-, hrun⟩
      · rw [← htyped, hr', List.head?_cons, Option.any_some, ht'] at hnext
        cases hnext
      · exact ensures_bind_of_run hrun ((ensures_pure _ _ _).mpr rfl)
    exact hinitial _ _ d.init_eq
  · -- a type was there to be read
    obtain ⟨kind, text, value, loc, len⟩ := ty
    obtain rfl : kind = .typeName := hkind
    have hfound : Ensures typeAhead d.named fun found _ => found = true :=
      ensures_typeAhead_name hnamed rfl
    cases hfound _ _ hahead

/-- A local that is a string **starts with a string**. -/
theorem Initial.Assigns.exists_literal {id : VarId} {ty : Ty} {loc : Nat} {r r' : Reading} {s : Stmt}
    (h : Initial.zero.Assigns (.var id .unknown loc) ty loc r s r') (hty : ty.isString = true)
    (hscope : r.scope ≠ none) : ∃ i, (loc, i) ∈ s.literals := by
  cases h with
  | zeroed h =>
    refine absurd (h.resolve_right fun harray => ?_) hscope
    cases ty with
    | string => cases harray
    | _ => cases hty
  | blank =>
    refine ⟨r.strings.idxOf "", ?_⟩
    rw [Stmt.literals_eq]
    exact List.mem_append_left _ (List.mem_singleton_self _)
  | number hnot =>
    rw [hty] at hnot
    cases hnot

/-! ## The uses of a derivation -/

namespace Derives

variable {r r' : Reading} {es : List Expr} {ss : List Stmt}

/-- The strings of trees. -/
def literals (es : List Expr) (ss : List Stmt) : List (Nat × Nat) :=
  es.flatMap Expr.literals ++ ss.flatMap Stmt.literals

theorem literals_append (es es' : List Expr) (ss ss' : List Stmt) :
    (literals (es ++ es') (ss ++ ss')).Perm (literals es ss ++ literals es' ss') := by
  simp only [literals, List.flatMap_append, List.append_assoc]
  exact (List.perm_append_comm_assoc _ _ _).append_left _

theorem literals_stmt (s : Stmt) : literals [] [s] = s.literals := by
  simp [literals]

/-- The elements of an array are **no strings of their own**. -/
theorem literals_elements (id : VarId) (loc : Nat) (values : List (Expr × Nat)) :
    (values.map (elementAt (.var id .unknown loc))).flatMap Expr.literals = [] := by
  rw [List.flatMap_map]
  exact List.flatMap_eq_nil_iff.mpr fun _ _ => rfl

/-- What is assigned first has **the strings of what it starts with**, or the empty string. -/
theorem literals_assigns {id : VarId} {ty : Ty} {loc : Nat} {init : Initial} {s : Stmt}
    (h : init.Assigns (.var id .unknown loc) ty loc r s r') :
    r'.strings = r.strings ∧ s.literals = literals init.exprs [] ∨
    init = .zero ∧ ty.isString = true ∧ r'.strings = interned r.strings "" ∧
      s.literals = [(loc, r'.strings.idxOf "")] := by
  cases h with
  | value e =>
    refine .inl ⟨rfl, ?_⟩
    simp [Stmt.literals_eq, Stmt.exprs, Stmt.parts, literals, Initial.exprs, Expr.literals]
  | @elements es =>
    refine .inl ⟨rfl, ?_⟩
    rw [Stmt.literals_eq, Stmt.exprs, List.flatMap_append, literals_elements]
    simp [literals, Stmt.parts, Initial.exprs]
  | noElements | zeroed | number => exact .inl ⟨rfl, rfl⟩
  | blank _ hty =>
    refine .inr ⟨rfl, hty, rfl, ?_⟩
    simp [Stmt.literals_eq, Stmt.exprs, Stmt.parts, Expr.literals, idxOf_interned]

/-- **What a declaration uses** is what it starts with, or the empty string in the place of its name. -/
theorem literals_declaration {s : Stmt} (d : Declaring r s r') {tokens : List Token}
    (hr : r.rest <:+ tokens) : r'.strings = d.ended.strings ∧ s.literals = literals d.init.exprs [] ∨
      d.init = .zero ∧ DeclaresBlank tokens d.name ∧ r'.strings = interned d.ended.strings "" ∧
        s.literals = [(d.name.loc, r'.strings.idxOf "")] := by
  rw [← d.tables_strings]
  refine (literals_assigns d.assigns).imp_right ?_
  rintro ⟨hinit, hty, hstrings, hliterals⟩
  exact ⟨hinit, d.declaresBlank hinit hty hr, hstrings, hliterals⟩

/-- **The strings of the trees are the uses of the tokens**, with the numbers of the table that these
have filled. -/
theorem exists_uses (h : Derives r es ss r') {tokens : List Token} (hr : r.rest <:+ tokens) :
    ∃ ts us, r.rest = ts ++ r'.rest ∧ Uses tokens ts us ∧ r'.strings = enter r.strings us ∧
      (literals es ss).Perm (numbers r'.strings us) := by
  induction h with
  | nil => exact ⟨[], [], rfl, .nil, rfl, .nil⟩
  | @append r r' r'' es es' ss ss' h h' ih ih' =>
    obtain ⟨ts, us, hrest, huses, hstrings, hperm⟩ := ih hr
    obtain ⟨ts', us', hrest', huses', hstrings', hperm'⟩ :=
      ih' ((hrest ▸ List.suffix_append _ _ : r'.rest <:+ r.rest).trans hr)
    refine ⟨ts ++ ts', us ++ us', by rw [hrest, hrest', List.append_assoc], huses.append huses',
      by rw [hstrings', hstrings, enter_append], ?_⟩
    have hnumbers : numbers r''.strings us = numbers r'.strings us := by
      rw [hstrings', hstrings]
      exact numbers_eq_of_extended (prefix_enter _ _) fun u => mem_enter
    refine (literals_append es es' ss ss').trans ?_
    rw [numbers, List.map_append]
    exact (hnumbers ▸ hperm).append hperm'
  | perm _ hes hss ih =>
    obtain ⟨ts, us, hrest, huses, hstrings, hperm⟩ := ih hr
    refine ⟨ts, us, hrest, huses, hstrings, List.Perm.trans ?_ hperm⟩
    exact ((hes.flatMap_right _).append (hss.flatMap_right _)).symm
  | @token r r' t hrest hsame ht =>
    exact ⟨[t], [], hrest, .other ht.kind_ne .nil, hsame.strings, .nil⟩
  | named hrest hstrings => exact ⟨[], [], hrest.symm, .nil, hstrings, .nil⟩
  | @str r r' t hrest hkind hvars hstrings =>
    refine ⟨[t], [(t.loc, t.body)], hrest, .str hkind .nil, hstrings, ?_⟩
    simp [literals, Expr.literals, numbers, hstrings, idxOf_interned]
  | @node r r' e h hstr hbounds ih =>
    obtain ⟨ts, us, hrest, huses, hstrings, hperm⟩ := ih hr
    refine ⟨ts, us, hrest, huses, hstrings, ?_⟩
    simpa [literals, Expr.literals_eq hstr] using hperm
  | @stmt r r' s h ih =>
    obtain ⟨ts, us, hrest, huses, hstrings, hperm⟩ := ih hr
    refine ⟨ts, us, hrest, huses, hstrings, ?_⟩
    simpa [literals, Stmt.literals_eq] using hperm
  | @declared r r' s d h ih =>
    have hnamed : d.named.rest <:+ tokens :=
      (d.rest_eq ▸ List.suffix_append [d.keyword, d.name] _ : d.named.rest <:+ r.rest).trans hr
    obtain ⟨ts, us, hrest, huses, hstrings, hperm⟩ := ih hnamed
    have htokens : r.rest = (d.keyword :: d.name :: ts) ++ r'.rest := by
      rw [d.rest_eq, hrest, d.rest_after]
      rfl
    have hkeyword : d.keyword.kind ≠ .str := by
      rw [(Token.is_iff.mp d.is_var).1]
      decide
    have hname : d.name.kind ≠ .str := by
      rw [d.kind_eq]
      decide
    rw [literals_stmt]
    rcases literals_declaration d hr with ⟨hsame, hlits⟩ | ⟨hzero, hblank, hentered, hlits⟩
    · refine ⟨_, us, htokens, .other hkeyword (.other hname huses), ?_, ?_⟩
      · rw [hsame, hstrings, d.same.strings]
      · rwa [hsame, hlits]
    · -- nothing is used up to the end of the declaration, and then the empty string
      rw [hzero] at hperm
      obtain rfl : us = [] := List.map_eq_nil_iff.mp hperm.nil_eq.symm
      refine ⟨_, [(d.name.loc, "")], htokens,
        .other hkeyword (.blank d.kind_eq hblank huses), ?_, by rw [hlits]; exact .refl _⟩
      rw [hentered, hstrings, d.same.strings]
      rfl
  | @dropped r r' es ss h ih =>
    obtain ⟨ts, us, hrest, huses, hstrings, hperm⟩ := ih hr
    refine ⟨ts, us, hrest, huses, hstrings, ?_⟩
    simpa [literals, Stmt.literals_eq, Stmt.exprs, Stmt.parts] using hperm

end Derives

end Grammar

end StackCompiler
