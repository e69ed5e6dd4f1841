import StackCompiler.Proofs.Fails
import StackCompiler.Proofs.Typing.Expressions

/-!
# Proofs/Typing/Refusals — why typing refuses a body

Typing finds everything that it looks up, so it only fails by refusing the source: for a rule about
types, or for a name that is not defined (`Refusal`).  A slot is refused for its size **only where
the variables are too large together** for a word to count their bytes.
-/

namespace StackCompiler.Typing

variable {own : VarId → Prop} {vars vars' : List Variable} {strings : Nat} {s : Surroundings}
  {α : Type}

/-! ## Refusals -/

/-- Some declared locals of the body's own, each counted once, take more bytes together than a word
can count, with types that **fill in this arena**. -/
def Oversized (own : VarId → Prop) (vars : List Variable) : Prop :=
  ∃ vars' ids, Fills own vars vars' ∧ ids.Nodup ∧
    (∀ id ∈ ids, own id ∧ ∃ v, vars'[id]? = some v ∧ v.isLocal = true ∧ v.isPlaceholder = false) ∧
    Word.greatest < extent vars' ids

/-- The failure is a refusal for types or for a name that is not defined. -/
def Refusal (own : VarId → Prop) (vars : List Variable) (failure : Failure) : Prop :=
  ∃ cause offset, failure = .refused ⟨cause, offset⟩ ∧
    (cause.category = .type ∨ ∃ name, cause = .undefined name) ∧
    (∀ name, cause ≠ .frameTooLarge name) ∧
    ∀ name, cause = .slotTooLarge name → Oversized own vars

theorem Oversized.mono (hf : Fills own vars vars') (h : Oversized own vars') :
    Oversized own vars := by
  obtain ⟨vars'', ids, hf', h⟩ := h
  exact ⟨vars'', ids, hf.trans hf', h⟩

theorem Refusal.mono (hf : Fills own vars vars') {failure : Failure}
    (h : Refusal own vars' failure) : Refusal own vars failure := by
  obtain ⟨cause, offset, hfailure, hcategory, hframe, hslot⟩ := h
  exact ⟨cause, offset, hfailure, hcategory, hframe, fun name hname => (hslot name hname).mono hf⟩

theorem errs_refuse {cause : Cause} (loc : Nat) (hcategory : cause.category = .type)
    (hframe : ∀ name, cause ≠ .frameTooLarge name := by rintro _ ⟨⟩)
    (hslot : ∀ name, cause ≠ .slotTooLarge name := by rintro _ ⟨⟩) :
    Errs (refuse cause loc : Except Failure α) (Refusal own vars) :=
  (errs_error _ _).mpr ⟨cause, loc, rfl, .inl hcategory, hframe, fun name h => absurd h (hslot name)⟩

theorem errs_undefined (name : String) (loc : Nat) :
    Errs (refuse (.undefined name) loc : Except Failure α) (Refusal own vars) :=
  (errs_error _ _).mpr ⟨.undefined name, loc, rfl, .inr ⟨name, rfl⟩, nofun, nofun⟩

/-! ## Expressions -/

theorem errs_variableOf {id : VarId} {v : Variable} (hv : vars[id]? = some v)
    (E : Failure → Prop) : Errs (variableOf vars id) E := by
  rw [variableOf, hv]
  exact errs_ok v E

theorem errs_bound {id : VarId} (hid : InArena vars own id) (loc : Nat) :
    Errs (s.bind vars id loc) (Refusal own vars) := by
  obtain ⟨v, hv, -⟩ := hid
  rw [Surroundings.bind, errs_bind]
  refine ⟨errs_variableOf hv _, fun w _ => ?_⟩
  dsimp only
  split
  · split
    · exact errs_pure _ _
    · exact errs_undefined w.name loc
  · exact errs_pure _ _

theorem errs_operationTy (op : BinaryOp) (lhs rhs : Ty) (loc : Nat) :
    Errs (operationTy op lhs rhs loc) (Refusal own vars) := by
  unfold operationTy
  split
  · exact errs_refuse loc rfl
  split
  · exact errs_refuse loc rfl
  · exact errs_pure _ _

theorem errs_checkArguments (name : String) (args : List Expr) (params : List Ty) :
    Errs (checkArguments name args params) (Refusal own vars) := by
  induction args generalizing params with
  | nil => exact errs_pure _ _
  | cons arg args ih =>
    cases params with
    | nil => exact errs_pure _ _
    | cons param params =>
      unfold checkArguments
      split
      · exact errs_refuse arg.loc rfl
      · exact ih params

theorem errs_checkCall (s : Surroundings) (name : String) (args : List Expr) (loc : Nat) :
    Errs (checkCall s name args loc) (Refusal own vars) := by
  unfold checkCall
  split
  · exact errs_undefined name loc
  split
  · exact errs_refuse loc rfl
  · exact errs_checkArguments name args _

theorem errs_typedAll {E : Failure → Prop} :
    ∀ es : List Expr, (∀ e ∈ es, Errs (typed s vars e) E) → Errs (typedAll s vars es) E
  | [], _ => errs_pure _ _
  | e :: es, h => by
    rw [typedAll, errs_bind]
    refine ⟨h e List.mem_cons_self, fun e' _ => (errs_bind _ _ _).mpr ⟨?_, fun es' _ => ?_⟩⟩
    · exact errs_typedAll es fun e he => h e (List.mem_cons_of_mem _ he)
    · exact errs_pure _ _

/-- **Typing refuses an expression, or types it.** -/
theorem errs_typed (hs : s.Sound own vars) {e : Expr}
    (he : e.Everywhere (Expr.ReadRule vars strings own)) :
    Errs (typed s vars e) (Refusal own vars) := by
  induction he with
  | num | str =>
    rw [typed]
    split <;> exact errs_pure _ _
  | @var id ty loc h =>
    rw [typed]
    split
    · exact errs_pure _ _
    rw [errs_bind]
    refine ⟨errs_bound h.2 loc, (yields_bound hs h.2 loc).mono ?_⟩
    rintro bound ⟨v, hv, -⟩
    exact (errs_bind _ _ _).mpr ⟨errs_variableOf hv _, fun _ _ => errs_pure _ _⟩
  | addr _ _ ih | deref _ _ ih =>
    rw [typed]
    split
    · exact errs_pure _ _
    · exact (errs_bind _ _ _).mpr ⟨ih, fun _ _ => errs_pure _ _⟩
  | @binary op _ _ _ loc _ _ _ ihl ihr =>
    rw [typed]
    split
    · exact errs_pure _ _
    refine (errs_bind _ _ _).mpr ⟨ihr, fun rhs _ => (errs_bind _ _ _).mpr ⟨ihl, fun lhs _ => ?_⟩⟩
    exact (errs_bind _ _ _).mpr ⟨errs_operationTy op lhs.ty rhs.ty loc, fun _ _ => errs_pure _ _⟩
  | index _ _ _ ihb ihp =>
    rw [typed]
    split
    · exact errs_pure _ _
    · exact (errs_bind _ _ _).mpr ⟨ihb, fun _ _ =>
        (errs_bind _ _ _).mpr ⟨ihp, fun _ _ => errs_pure _ _⟩⟩
  | @call name args _ loc _ _ ih =>
    rw [typed]
    split
    · exact errs_pure _ _
    refine (errs_bind _ _ _).mpr ⟨errs_typedAll args ih, fun args' _ => ?_⟩
    exact (errs_bind _ _ _).mpr ⟨errs_checkCall s name args' loc, fun _ _ => errs_pure _ _⟩

/-! ## Slots -/

section Steps

variable {slots : Slots} {id : VarId}

theorem fails_giveType (id : VarId) (ty : Ty) (E : Failure → Prop) :
    Fails (giveType id ty) slots E :=
  fails_modify _ _ _

/-- **A slot is only refused to what does not fit.** -/
theorem fails_place (hs : slots.Sound own) {v : Variable} (hv : slots.vars[id]? = some v)
    (hid : v.isLocal = true → own id ∧ v.isPlaceholder = false) :
    Fails (place id) slots (Refusal own slots.vars) := by
  unfold place
  rw [fails_bind]
  refine ⟨fails_get _ _, (ensures_get _ _).mpr ?_⟩
  rw [fails_bind, fails_lift]
  refine ⟨errs_variableOf hv _, (ensures_lift _ _ _).mpr fun w hw => ?_⟩
  cases hv.symm.trans (yields_variableOf slots.vars id w hw)
  split
  · exact fails_pure _ _ _
  next hskip =>
  obtain ⟨hlocal, ho⟩ : v.isLocal = true ∧ v.offset = 0 := by
    cases hl : v.isLocal <;> simp_all
  obtain ⟨hown, hdeclared⟩ := hid hlocal
  dsimp only
  split
  · rw [fails_bind, fails_lift]
    exact ⟨errs_refuse v.loc rfl, ensures_refuse _ _⟩
  next hresolved =>
  split
  · next hstop =>
    rw [fails_lift]
    refine (errs_error _ _).mpr ⟨.slotTooLarge v.name, v.loc, rfl, .inl rfl, nofun, fun _ _ => ?_⟩
    obtain ⟨order, hmem, hstacked⟩ := hs.stacked
    have hnew : id ∉ order := fun hid => by
      obtain ⟨-, w, hw, how⟩ := (hmem id).mp hid
      cases hv.symm.trans hw
      exact how ho
    refine ⟨slots.vars, id :: order, .refl _, List.nodup_cons.mpr ⟨hnew, hstacked.nodup hs.proper⟩,
      fun id' hid' => ?_, ?_⟩
    · rcases List.mem_cons.mp hid' with rfl | hid'
      · exact ⟨hown, v, hv, hlocal, hdeclared⟩
      · obtain ⟨hown', w, hw, how⟩ := (hmem id').mp hid'
        exact ⟨hown', w, hw, hs.declared id' w hown' hw how⟩
    · have hextent := hstacked.eq_extent
      have htaken := hs.taken
      have hsize := (Ty.size_bounds (hs.proper id v hv) (by simpa using hresolved)).1
      rw [extent, tyOf_eq hv]
      rcases Word.fit?_eq_none_iff.mp hstop with h | h
      · have hleast : Word.least < 0 := by decide
        omega
      · omega
  · exact fails_set _ _ _

end Steps

end StackCompiler.Typing
