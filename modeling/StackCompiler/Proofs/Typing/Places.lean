import StackCompiler.Proofs.Grammar.Refusals
import StackCompiler.Proofs.Typing.Package

/-!
# Proofs/Typing/Places — where a source is refused

Typing moves no node, and refuses a program at a node, a variable or a function.  So what stands at
the tokens of a source is refused **at one of its tokens**, and `outcome_of_source` follows a
source through the stages up to its types: each of them ends in a result or in a refusal that **can
be reported**.
-/

namespace StackCompiler

namespace Typing

variable {tokens : List Token} {s : Surroundings} {vars : List Variable} {slots : Slots}
  {arena : Nat}

/-- If the failure is a refusal, it is one **at a token**, for no lexical cause. -/
def AtTokenIfRefused (tokens : List Token) (failure : Failure) : Prop :=
  ∀ d, failure = .refused d → d.cause.category ≠ .lexical ∧ AtToken tokens d.offset

theorem errs_broken_atToken {α : Type} (fault : Fault) :
    Errs (.error (.broken fault) : Except Failure α) (AtTokenIfRefused tokens) :=
  (errs_error _ _).mpr nofun

theorem errs_refuse_atToken {α : Type} {cause : Cause} {loc : Nat}
    (hcategory : cause.category ≠ .lexical) (hloc : AtToken tokens loc) :
    Errs (refuse cause loc : Except Failure α) (AtTokenIfRefused tokens) :=
  (errs_error _ _).mpr fun _ h => by
    cases h
    exact ⟨hcategory, hloc⟩

/-! ## Expressions -/

theorem errs_variableOf_atToken (id : VarId) :
    Errs (variableOf vars id) (AtTokenIfRefused tokens) := by
  unfold variableOf
  cases vars[id]? with
  | none => exact errs_broken_atToken _
  | some v => exact errs_ok v _

theorem errs_bound_atToken (id : VarId) {loc : Nat} (hloc : AtToken tokens loc) :
    Errs (s.bind vars id loc) (AtTokenIfRefused tokens) := by
  refine (errs_bind _ _ _).mpr ⟨errs_variableOf_atToken id, fun v _ => ?_⟩
  dsimp only
  split
  · split
    · exact errs_pure _ _
    · exact errs_refuse_atToken nofun hloc
  · exact errs_pure _ _

theorem errs_operationTy_atToken (op : BinaryOp) (lhs rhs : Ty) {loc : Nat}
    (hloc : AtToken tokens loc) :
    Errs (operationTy op lhs rhs loc) (AtTokenIfRefused tokens) := by
  unfold operationTy
  split
  · exact errs_refuse_atToken nofun hloc
  split
  · exact errs_refuse_atToken nofun hloc
  · exact errs_pure _ _

theorem errs_checkArguments_atToken (name : String) {args : List Expr}
    (hargs : ∀ arg ∈ args, AtToken tokens arg.loc) (params : List Ty) :
    Errs (checkArguments name args params) (AtTokenIfRefused tokens) := by
  induction args generalizing params with
  | nil => exact errs_pure _ _
  | cons arg args ih =>
    obtain ⟨harg, hargs⟩ := List.forall_mem_cons.mp hargs
    cases params with
    | nil => exact errs_pure _ _
    | cons param params =>
      unfold checkArguments
      split
      · exact errs_refuse_atToken (by rintro ⟨⟩) harg
      · exact ih hargs params

theorem errs_checkCall_atToken (name : String) {args : List Expr}
    (hargs : ∀ arg ∈ args, AtToken tokens arg.loc) {loc : Nat} (hloc : AtToken tokens loc) :
    Errs (checkCall s name args loc) (AtTokenIfRefused tokens) := by
  unfold checkCall
  split
  · exact errs_refuse_atToken nofun hloc
  split
  · exact errs_refuse_atToken nofun hloc
  · exact errs_checkArguments_atToken name hargs _

/-- **Typing moves no node.** -/
theorem yields_typed_loc (e : Expr) : Yields (typed s vars e) fun e' => e'.loc = e.loc := by
  rw [typed.eq_def]
  split
  · exact (yields_pure _ _).mpr rfl
  cases e with
  | num | str => exact (yields_pure _ _).mpr rfl
  | addr | deref => exact (yields_bind _ _ _).mpr fun _ _ => (yields_pure _ _).mpr rfl
  | var | index | call =>
    exact (yields_bind _ _ _).mpr fun _ _ => (yields_bind _ _ _).mpr fun _ _ =>
      (yields_pure _ _).mpr rfl
  | binary =>
    exact (yields_bind _ _ _).mpr fun _ _ => (yields_bind _ _ _).mpr fun _ _ =>
      (yields_bind _ _ _).mpr fun _ _ => (yields_pure _ _).mpr rfl

theorem yields_typedAll_loc : ∀ es : List Expr, (∀ e ∈ es, AtToken tokens e.loc) →
    Yields (typedAll s vars es) fun es' => ∀ e ∈ es', AtToken tokens e.loc
  | [], _ => (yields_pure _ _).mpr fun _ h => absurd h List.not_mem_nil
  | e :: es, h => by
    obtain ⟨he, hes⟩ := List.forall_mem_cons.mp h
    rw [typedAll, yields_bind]
    refine (yields_typed_loc e).mono fun e' heq => (yields_bind _ _ _).mpr ?_
    refine (yields_typedAll_loc es hes).mono fun es' hes' => (yields_pure _ _).mpr ?_
    exact List.forall_mem_cons.mpr ⟨by rwa [heq], hes'⟩

theorem errs_typed_atToken {e : Expr} (he : e.Placed tokens arena) :
    Errs (typed s vars e) (AtTokenIfRefused tokens) := by
  induction he with
  | num | str =>
    rw [typed]
    split <;> exact errs_pure _ _
  | @var id ty loc h =>
    rw [typed]
    split
    · exact errs_pure _ _
    refine (errs_bind _ _ _).mpr ⟨errs_bound_atToken id h.1, fun bound _ => ?_⟩
    exact (errs_bind _ _ _).mpr ⟨errs_variableOf_atToken bound, fun _ _ => errs_pure _ _⟩
  | addr _ _ ih | deref _ _ ih =>
    rw [typed]
    split
    · exact errs_pure _ _
    · exact (errs_bind _ _ _).mpr ⟨ih, fun _ _ => errs_pure _ _⟩
  | binary h _ _ ihl ihr =>
    rw [typed]
    split
    · exact errs_pure _ _
    refine (errs_bind _ _ _).mpr ⟨ihr, fun rhs _ => (errs_bind _ _ _).mpr ⟨ihl, fun lhs _ => ?_⟩⟩
    exact (errs_bind _ _ _).mpr ⟨errs_operationTy_atToken _ _ _ h, fun _ _ => errs_pure _ _⟩
  | index _ _ _ ihb ihp =>
    rw [typed]
    split
    · exact errs_pure _ _
    · exact (errs_bind _ _ _).mpr ⟨ihb, fun _ _ =>
        (errs_bind _ _ _).mpr ⟨ihp, fun _ _ => errs_pure _ _⟩⟩
  | call h hargs ih =>
    rw [typed]
    split
    · exact errs_pure _ _
    refine (errs_bind _ _ _).mpr ⟨errs_typedAll _ ih, ?_⟩
    refine (yields_typedAll_loc _ fun arg harg => (hargs arg harg).here.atToken).mono
      fun args' hargs' => ?_
    exact (errs_bind _ _ _).mpr ⟨errs_checkCall_atToken _ hargs' h, fun _ _ => errs_pure _ _⟩

/-! ## Bodies -/

/-- The walk over a body, with its variables **where they were declared**. -/
abbrev declaredPlaces (tokens : List Token) : Course Slots where
  Sound slots := ∀ v ∈ slots.vars, AtToken tokens v.loc
  Leads _ _ := True
  refl _ := trivial
  trans _ _ := trivial

/-- From variables at tokens the step leaves them there, or fails at a token if it refuses. -/
def StaysAt {α : Type} (tokens : List Token) (x : Layout α) (Q : α → Prop) : Prop :=
  ∀ slots : Slots, (∀ v ∈ slots.vars, AtToken tokens v.loc) →
    Ends x slots ((declaredPlaces tokens).Kept slots fun a _ => Q a) (AtTokenIfRefused tokens)

section StaysAt

variable {α β : Type} {Q Q' : α → Prop}

theorem StaysAt.mono {x : Layout α} (h : StaysAt tokens x Q) (hQ : ∀ a, Q a → Q' a) :
    StaysAt tokens x Q' :=
  fun slots hslots => (h slots hslots).mono fun a _ hk => ⟨hk.1, hk.2.1, hQ a hk.2.2⟩

theorem staysAt_pure {a : α} (ha : Q a) : StaysAt tokens (pure a) Q :=
  fun _ hslots => (ends_pure a).mpr ⟨hslots, trivial, ha⟩

theorem StaysAt.bind {x : Layout α} {f : α → Layout β} {R : β → Prop} (hx : StaysAt tokens x Q)
    (hf : ∀ a, Q a → StaysAt tokens (f a) R) : StaysAt tokens (x >>= f) R :=
  fun slots hslots => Course.ends_andThen (hx slots hslots) fun a slots' hslots' _ ha =>
    hf a ha slots' hslots'

theorem staysAt_lift {x : Except Failure α} (hQ : Yields x Q)
    (hE : Errs x (AtTokenIfRefused tokens)) : StaysAt tokens (liftM x : Layout α) Q :=
  fun _ hslots => ⟨(ensures_lift _ _ _).mpr (hQ.mono fun _ ha => ⟨hslots, trivial, ha⟩),
    (fails_lift _ _ _).mpr hE⟩

theorem staysAt_refuse {cause : Cause} {loc : Nat} (hcategory : cause.category ≠ .lexical)
    (hloc : AtToken tokens loc) :
    StaysAt tokens (liftM (refuse cause loc : Except Failure α) : Layout α) Q :=
  staysAt_lift (yields_error _ _) (errs_refuse_atToken hcategory hloc)

theorem staysAt_refuse_bind {cause : Cause} {loc : Nat} {f : α → Layout β} {R : β → Prop}
    (hcategory : cause.category ≠ .lexical) (hloc : AtToken tokens loc) :
    StaysAt tokens (liftM (refuse cause loc : Except Failure α) >>= f) R :=
  (staysAt_refuse (Q := fun _ => False) hcategory hloc).bind fun _ h => h.elim

theorem staysAt_get {f : Slots → Layout α} (h : ∀ slots, StaysAt tokens (f slots) Q) :
    StaysAt tokens (get >>= f) Q :=
  fun slots hslots => (ends_bind _ _).mpr (ends_get.mpr (h slots slots hslots))

theorem staysAt_mapM {f : α → Layout β} {P : β → Prop} (as : List α)
    (hf : ∀ a ∈ as, StaysAt tokens (f a) P) :
    StaysAt tokens (as.mapM f) fun bs => ∀ b ∈ bs, P b :=
  fun _ hslots => Course.ends_mapM (c := declaredPlaces tokens) (P := fun b _ => P b)
    (fun _ h => h) as hslots fun a ha slots' hslots' _ => hf a ha slots' hslots'

theorem staysAt_forM {f : α → Layout PUnit} (as : List α)
    (hf : ∀ a ∈ as, StaysAt tokens (f a) fun _ => True) :
    StaysAt tokens (as.forM f) fun _ => True :=
  fun _ hslots => Course.ends_forM (c := declaredPlaces tokens) as hslots
    fun a ha slots' hslots' _ => hf a ha slots' hslots'

theorem staysAt_optional {f : α → Layout β} {a : Option α}
    (hf : ∀ b ∈ a, StaysAt tokens (f b) fun _ => True) :
    StaysAt tokens (a.mapM f) fun _ => True := by
  cases a with
  | none => exact staysAt_pure trivial
  | some a => exact (hf a rfl).bind fun _ _ => staysAt_pure trivial

end StaysAt

theorem staysAt_typedHere {e : Expr} (he : e.Placed tokens arena) :
    StaysAt tokens (typedHere s e) fun e' => e'.loc = e.loc :=
  staysAt_get fun _ => staysAt_lift (yields_typed_loc e) (errs_typed_atToken he)

theorem forall_mem_modify {vars : List Variable} {f : Variable → Variable} {id : VarId}
    (hvars : ∀ v ∈ vars, AtToken tokens v.loc) (hf : ∀ v, (f v).loc = v.loc) :
    ∀ v ∈ vars.modify id f, AtToken tokens v.loc := by
  intro v hv
  obtain ⟨i, hi, rfl⟩ := List.getElem_of_mem hv
  rw [List.getElem_modify]
  split
  · rw [hf]
    exact hvars _ (List.getElem_mem _)
  · exact hvars _ (List.getElem_mem _)

theorem staysAt_giveType (id : VarId) (ty : Ty) :
    StaysAt tokens (giveType id ty) fun _ => True := by
  refine fun slots hslots => (ends_modify _).mpr ⟨forall_mem_modify hslots fun v => ?_, trivial,
    trivial⟩
  split <;> rfl

theorem staysAt_place (id : VarId) : StaysAt tokens (place id) fun _ => True := by
  intro slots hslots
  refine (ends_bind _ _).mpr (ends_get.mpr ?_)
  refine Course.ends_andThen (c := declaredPlaces tokens)
    (Q := fun v slots' => slots' = slots ∧ AtToken tokens v.loc)
    ⟨(ensures_lift _ _ _).mpr fun v hv => ?_, (fails_lift _ _ _).mpr (errs_variableOf_atToken id)⟩
    fun v _ _ _ ⟨hsame, hv⟩ => ?_
  · exact ⟨hslots, trivial, rfl, hslots v (List.mem_of_getElem? (yields_variableOf _ _ v hv))⟩
  subst hsame
  split
  · exact staysAt_pure trivial _ hslots
  dsimp only
  split
  · exact staysAt_refuse_bind (by nofun) hv _ hslots
  split
  · exact staysAt_refuse (by nofun) hv _ hslots
  · exact (ends_set _).mpr ⟨forall_mem_modify hslots fun _ => rfl, trivial, trivial⟩

theorem staysAt_inferred {target : Expr} (ht : target.Placed tokens arena) (ty : Ty) :
    StaysAt tokens (inferred s target ty) fun target' => ∃ arena', target'.Placed tokens arena' := by
  cases target with
  | var id t loc =>
    refine staysAt_get fun _ => ?_
    refine StaysAt.bind (staysAt_lift (Q := fun _ => True) (fun _ _ => trivial)
      (errs_bound_atToken id ht.here.1)) fun bound _ => ?_
    refine (staysAt_giveType bound ty).bind fun _ _ => staysAt_pure ?_
    exact ⟨bound + 1, .var ⟨ht.here.1, Nat.lt_succ_self _⟩⟩
  | _ => exact staysAt_pure ⟨arena, ht⟩

theorem errs_checkStore_atToken {target value : Expr} (ht : AtToken tokens target.loc)
    (hv : AtToken tokens value.loc) :
    Errs (checkStore target value) (AtTokenIfRefused tokens) := by
  unfold checkStore
  split
  · exact errs_refuse_atToken nofun ht
  split
  · exact errs_refuse_atToken nofun hv
  · exact errs_pure _ _

theorem staysAt_typedPair {pair : Expr × Expr} (ht : pair.1.Placed tokens arena)
    (hv : pair.2.Placed tokens arena) : StaysAt tokens (typedPair s pair) fun _ => True := by
  unfold typedPair
  refine (staysAt_typedHere hv).bind fun value hvalue => ?_
  have hvalue : AtToken tokens value.loc := hvalue ▸ hv.here.atToken
  dsimp only
  split
  · exact staysAt_refuse_bind nofun hvalue
  refine (staysAt_inferred ht value.ty).bind fun target₁ ⟨arena', ht₁⟩ => ?_
  refine (staysAt_typedHere ht₁).bind fun target htarget => ?_
  have htarget : AtToken tokens target.loc := htarget ▸ ht₁.here.atToken
  refine (staysAt_lift (Q := fun _ => True) (fun _ _ => trivial)
    (errs_checkStore_atToken htarget hvalue)).bind fun _ _ => ?_
  split
  · exact (staysAt_place _).bind fun _ _ => staysAt_pure trivial
  · exact staysAt_pure trivial

theorem staysAt_typedAssignment {targets values : List Expr} {loc : Nat}
    (ht : ∀ e ∈ targets, e.Placed tokens arena) (hv : ∀ e ∈ values, e.Placed tokens arena)
    (hloc : AtToken tokens loc) :
    StaysAt tokens (typedAssignment s targets values loc) fun _ => True := by
  unfold typedAssignment
  split
  · exact staysAt_refuse_bind nofun hloc
  refine (staysAt_mapM (P := fun _ => True) _ fun pair hpair => ?_).bind
    fun _ _ => staysAt_pure trivial
  obtain ⟨htarget, hvalue⟩ := List.of_mem_zip hpair
  exact staysAt_typedPair (ht _ htarget) (hv _ hvalue)

theorem staysAt_typedStmts : ∀ stmts : List Stmt,
    (∀ st ∈ stmts, StaysAt tokens (typedStmt s st) fun _ => True) →
      StaysAt tokens (typedStmts s stmts) fun _ => True
  | [], _ => by
    rw [typedStmts]
    exact staysAt_pure trivial
  | st :: stmts, h => by
    obtain ⟨hst, hstmts⟩ := List.forall_mem_cons.mp h
    rw [typedStmts]
    exact hst.bind fun _ _ => (staysAt_typedStmts stmts hstmts).bind fun _ _ => staysAt_pure trivial

theorem staysAt_typedStmt {st : Stmt} (h : st.Placed tokens arena) :
    StaysAt tokens (typedStmt s st) fun _ => True := by
  induction h with
  | expr _ he =>
    rw [typedStmt]
    exact (staysAt_typedHere he).bind fun _ _ => staysAt_pure trivial
  | ret _ he =>
    rw [typedStmt]
    exact (staysAt_optional fun e hm => (staysAt_typedHere (he e hm)).mono fun _ _ => trivial).bind
      fun _ _ => staysAt_pure trivial
  | block _ _ ih =>
    rw [typedStmt]
    exact (staysAt_typedStmts _ ih).bind fun _ _ => staysAt_pure trivial
  | branch _ _ hcond _ _ ihi ihb iho =>
    rw [typedStmt]
    exact ihi.bind fun _ _ => (staysAt_typedHere hcond).bind fun _ _ =>
      (staysAt_typedStmts _ ihb).bind fun _ _ => iho.bind fun _ _ => staysAt_pure trivial
  | loop _ _ hcond _ _ ihi ihp ihb =>
    rw [typedStmt]
    exact ihi.bind fun _ _ => (staysAt_optional fun e hm =>
      (staysAt_typedHere (hcond e hm)).mono fun _ _ => trivial).bind fun _ _ =>
        (staysAt_typedStmts _ ihb).bind fun _ _ => ihp.bind fun _ _ => staysAt_pure trivial
  | assign h ht hv =>
    rw [typedStmt]
    exact staysAt_typedAssignment ht hv h
  | print _ ha =>
    rw [typedStmt]
    exact (staysAt_mapM (P := fun _ => True) _ fun e hm =>
      (staysAt_typedHere (ha e hm)).mono fun _ _ => trivial).bind fun _ _ => staysAt_pure trivial
  | empty =>
    rw [typedStmt]
    exact staysAt_pure trivial

/-! ## Functions -/

theorem staysAt_typedFunction {f : Function} (hf : f.Placed tokens arena) (globals : List VarId)
    (signatures : List Signature) :
    StaysAt tokens (typedFunction globals signatures f) fun _ => True := by
  unfold typedFunction
  refine StaysAt.bind (Q := fun _ => True)
    (fun slots hslots => (ends_modify _).mpr ⟨hslots, trivial, trivial⟩) fun _ _ => ?_
  refine (staysAt_forM _ fun id _ => staysAt_place id).bind fun _ _ => ?_
  refine (staysAt_typedStmts _ fun st hst => staysAt_typedStmt (hf.body st hst)).bind fun _ _ => ?_
  refine (staysAt_forM _ fun id _ => staysAt_place id).bind fun _ _ => ?_
  refine staysAt_get fun _ => ?_
  split
  · exact staysAt_refuse nofun hf.loc
  · exact staysAt_pure trivial

end Typing

/-- **A program at tokens is refused at one of them.** -/
theorem Program.Placed.errs_resolve {tokens : List Token} {p : Program} (hp : p.Placed tokens) :
    Errs p.resolve (Typing.AtTokenIfRefused tokens) := by
  unfold Program.resolve
  refine (errs_bind _ _ _).mpr ⟨errs_forM _ fun f hf => ?_, fun _ _ => ?_⟩
  · exact Typing.errs_checkParameters _ f fun words => by
      rintro _ ⟨⟩
      exact ⟨by rintro ⟨⟩, (hp.funcs f (List.mem_of_mem_filter hf)).loc⟩
  have hfuncs := Typing.staysAt_mapM (P := fun _ => True) p.funcs fun f hf =>
    Typing.staysAt_typedFunction (hp.funcs f hf) p.globals
      (p.declared.map (Typing.signatureOf p.vars))
  obtain ⟨hensures, hfails⟩ := hfuncs ⟨p.vars, 0⟩ hp.vars
  refine (errs_bind _ _ _).mpr ⟨hfails.run, hensures.run.mono fun ⟨funcs, slots⟩ ⟨hslots, _⟩ => ?_⟩
  refine (errs_bind _ _ _).mpr ⟨errs_forM _ fun id _ => ?_, fun _ _ => errs_pure _ _⟩
  refine (errs_bind _ _ _).mpr ⟨Typing.errs_variableOf_atToken id, fun v hv => ?_⟩
  dsimp only
  split
  · exact Typing.errs_refuse_atToken nofun
      (hslots v (List.mem_of_getElem? (Typing.yields_variableOf _ _ v hv)))
  · exact errs_pure _ _

/-! ## Sources -/

/-- The stage ends in a result of which `Q` holds, or refuses the source with a diagnostic of which
`D` does; **nothing else comes of it**. -/
def Outcome {α : Type} (stage : Except Failure α) (Q : α → Prop) (D : Diagnostic → Prop) : Prop :=
  (∃ a, stage = .ok a ∧ Q a) ∨ ∃ d, stage = .error (.refused d) ∧ D d

/-- The token stands between characters of the source and has the text between its ends, unless it
takes none of the source. -/
structure Token.CutFrom (source : List Char) (t : Token) : Prop where
  starts : Text.Boundary source t.loc
  stops : Text.Boundary source (t.loc + t.len)
  slice : t.len ≠ 0 → Text.slice? t.loc (t.loc + t.len) source = some t.text.toList

/-- The diagnostic is no lexical one, stands at a token or at the start of the source, and can be
told of. -/
structure Diagnostic.TellsOf (source : List Char) (tokens : List Token) (d : Diagnostic) : Prop where
  category : d.cause.category ≠ .lexical
  offset : AtToken tokens d.offset
  report : ∃ report, d.report? source = some report

theorem Covers.tellsOf {source : List Char} {tokens : List Token} (hc : Covers source tokens)
    {d : Diagnostic} (hcategory : d.cause.category ≠ .lexical) (hoffset : AtToken tokens d.offset) :
    d.TellsOf source tokens := by
  refine ⟨hcategory, hoffset, Diagnostic.exists_report? ?_⟩
  rcases hoffset with h | ⟨t, ht, h⟩
  · exact h ▸ Text.boundary_zero source
  · exact h ▸ hc.starts t ht

/-- **A source that memory can hold is cut, read and resolved, or refused at a place that it has**:
for a lexical cause between two characters, else at one of its tokens or at its start. -/
theorem outcome_of_source {source : List Char}
    (hsource : Text.byteLength source < Grammar.placeLimit) :
    Outcome (tokensOf source)
      (fun tokens => (∀ t ∈ tokens, t.CutFrom source) ∧
        Outcome (Program.ofTokens source tokens)
          (fun p => Outcome p.resolve (fun _ => True) (·.TellsOf source tokens))
          (·.TellsOf source tokens))
      (fun d => d.cause.category = .lexical ∧ Text.Boundary source d.offset ∧
        ∃ report, d.report? source = some report) := by
  cases htokens : tokenize source with
  | error d =>
    obtain ⟨hcategory, hoffset⟩ := lexical_of_tokenize htokens
    exact .inr ⟨d, by rw [tokensOf, htokens]; rfl, hcategory, hoffset,
      Diagnostic.exists_report? hoffset⟩
  | ok tokens =>
    have hc := covers_of_tokenize htokens
    refine .inl ⟨tokens, by rw [tokensOf, htokens]; rfl, fun t ht => ?_, ?_⟩
    · have hread := readFrom_of_tokenize htokens t ht
      exact ⟨hread.boundary_loc, hread.boundary_end, hread.slice?_eq⟩
    cases hp : Program.ofTokens source tokens with
    | error failure =>
      obtain ⟨d, rfl, hcategory, hoffset⟩ := (hc.stoppedAt hp).resolve_right hsource.not_ge
      exact .inr ⟨d, rfl, hc.tellsOf hcategory hoffset⟩
    | ok p =>
      refine .inl ⟨p, rfl, ?_⟩
      cases hresolve : p.resolve with
      | ok p' => exact .inl ⟨p', hresolve, trivial⟩
      | error failure =>
        obtain ⟨cause, offset, rfl, -⟩ := (Program.read_of_ofTokens hp).resolve_outcome.2 _ hresolve
        obtain ⟨hcategory, hoffset⟩ := (hc.placed hp).errs_resolve _ hresolve _ rfl
        exact .inr ⟨_, hresolve, hc.tellsOf hcategory hoffset⟩

/-- Characters of more than one byte in a comment and in a string, and behind them an array of which
an element is assigned to a name that is **not defined**. -/
def textOfAccents : String :=
  "package p // déjà vu\nvar a [2]int = \x7b1, 2\x7d\nfunc main() \x7b print(\"é\"); b = a[0] \x7d"

/-- The name is refused **where its token stands**, which is told in bytes. -/
theorem outcome_of_accents :
    ∃ tokens d, tokensOf textOfAccents.toList = .ok tokens ∧
      (∀ t ∈ tokens, t.CutFrom textOfAccents.toList) ∧
      Program.ofTokens textOfAccents.toList tokens = .error (.refused d) ∧
      d.TellsOf textOfAccents.toList tokens := by
  obtain ⟨tokens, htokens, hrefused⟩ := exists_ok_of_text (s := textOfAccents) rfl (f := tokensOf)
    (P := fun source tokens => (Program.ofTokens source tokens).toOption.isNone) (by decide +kernel)
  have hbytes : Text.byteLength textOfAccents.toList < Grammar.placeLimit := by decide +kernel
  rcases outcome_of_source hbytes with ⟨tokens', htokens', hcut, hread⟩ | ⟨d, hd, -⟩
  · cases htokens.symm.trans htokens'
    rcases hread with ⟨p, hp, -⟩ | ⟨d, hd, htells⟩
    · rw [hp] at hrefused
      cases hrefused
    · exact ⟨tokens, d, htokens, hcut, hd, htells⟩
  · cases htokens.symm.trans hd

end StackCompiler
