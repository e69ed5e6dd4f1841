import StackCompiler.Proofs.Ensures

/-!
# Proofs/Fails — what a failing step fails with

`Fails x s E` says that `x`, run from `s`, fails with nothing but failures of which `E` holds.  A
sequence fails where its first step does, or where the second does **after the first has
succeeded**, so what the first step ensures can be used for the second.
-/

namespace StackCompiler

variable {σ ε α β : Type}

/-- If the step fails from that state, its failure is as stated. -/
def Fails (x : StateT σ (Except ε) α) (s : σ) (E : ε → Prop) : Prop :=
  ∀ e, x.run s = .error e → E e

/-- The same of a step without a state. -/
def Errs (x : Except ε α) (E : ε → Prop) : Prop :=
  ∀ e, x = .error e → E e

variable {E E' : ε → Prop}

/-! ## Steps without a state -/

theorem Errs.mono {x : Except ε α} (h : Errs x E) (hE : ∀ e, E e → E' e) : Errs x E' :=
  fun e he => hE e (h e he)

@[simp] theorem errs_ok (a : α) (E : ε → Prop) : Errs (.ok a) E :=
  fun _ h => nomatch h

@[simp] theorem errs_pure (a : α) (E : ε → Prop) : Errs (pure a) E :=
  errs_ok a E

@[simp] theorem errs_error (e : ε) (E : ε → Prop) : Errs (.error e : Except ε α) E ↔ E e :=
  ⟨fun h => h e rfl, fun h _ he => Except.error.inj he ▸ h⟩

@[simp] theorem errs_bind (x : Except ε α) (f : α → Except ε β) (E : ε → Prop) :
    Errs (x >>= f) E ↔ Errs x E ∧ Yields x fun a => Errs (f a) E := by
  cases x with
  | error e =>
    exact ⟨fun h => ⟨(errs_error e E).mpr (h e rfl), yields_error e _⟩,
      fun h => (errs_error e E).mpr (h.1 e rfl)⟩
  | ok a =>
    exact ⟨fun h => ⟨errs_ok a E, (yields_ok a _).mpr h⟩, fun h => h.2 a rfl⟩

theorem errs_forM {f : α → Except ε PUnit} :
    ∀ as : List α, (∀ a ∈ as, Errs (f a) E) → Errs (as.forM f) E
  | [], _ => errs_pure _ _
  | a :: as, h => (errs_bind (f a) (fun _ => as.forM f) E).mpr ⟨h a List.mem_cons_self,
      fun _ _ => errs_forM as fun b hb => h b (List.mem_cons_of_mem _ hb)⟩

/-! ## Steps with a state -/

theorem Fails.mono {x : StateT σ (Except ε) α} {s : σ} (h : Fails x s E) (hE : ∀ e, E e → E' e) :
    Fails x s E' :=
  fun e he => hE e (h e he)

@[simp] theorem fails_pure (a : α) (s : σ) (E : ε → Prop) :
    Fails (pure a : StateT σ (Except ε) α) s E :=
  fun _ h => nomatch h

@[simp] theorem fails_bind (x : StateT σ (Except ε) α) (f : α → StateT σ (Except ε) β) (s : σ)
    (E : ε → Prop) :
    Fails (x >>= f) s E ↔ Fails x s E ∧ Ensures x s fun a s' => Fails (f a) s' E := by
  unfold Fails Ensures
  rw [StateT.run_bind]
  cases x.run s with
  | error e =>
    exact ⟨fun h => ⟨fun e' he => h e' (Except.error.inj he ▸ rfl), fun _ _ h => (nomatch h)⟩,
      fun h e' he => h.1 e' (Except.error.inj he ▸ rfl)⟩
  | ok r =>
    exact ⟨fun h => ⟨fun _ h => (nomatch h), fun a s' ha => by cases ha; exact h⟩,
      fun h => h.2 _ _ rfl⟩

@[simp] theorem fails_get (s : σ) (E : ε → Prop) :
    Fails (get : StateT σ (Except ε) σ) s E :=
  fun _ h => nomatch h

@[simp] theorem fails_set (s s' : σ) (E : ε → Prop) :
    Fails (set s' : StateT σ (Except ε) PUnit) s E :=
  fun _ h => nomatch h

@[simp] theorem fails_modify (f : σ → σ) (s : σ) (E : ε → Prop) :
    Fails (modify f : StateT σ (Except ε) PUnit) s E :=
  fun _ h => nomatch h

@[simp] theorem fails_lift (x : Except ε α) (s : σ) (E : ε → Prop) :
    Fails (liftM x : StateT σ (Except ε) α) s E ↔ Errs x E := by
  cases x with
  | error e => exact ⟨fun h => (errs_error e E).mpr (h e rfl), fun h _ he => by
      cases he; exact h e rfl⟩
  | ok a => exact ⟨fun _ => errs_ok a E, fun _ _ h => (nomatch h)⟩

/-- Running a step is a step **without a state**. -/
theorem Fails.run {x : StateT σ (Except ε) α} {s : σ} (h : Fails x s E) : Errs (x.run s) E :=
  h

/-! ## Success and failure together -/

/-- The step succeeds as `Q` says or fails as `E` does. -/
def Ends (x : StateT σ (Except ε) α) (s : σ) (Q : α → σ → Prop) (E : ε → Prop) : Prop :=
  Ensures x s Q ∧ Fails x s E

section Ends

variable {s : σ} {Q Q' : α → σ → Prop}

theorem Ends.mono {x : StateT σ (Except ε) α} (h : Ends x s Q E) (hQ : ∀ a s', Q a s' → Q' a s') :
    Ends x s Q' E :=
  ⟨h.1.mono hQ, h.2⟩

@[simp] theorem ends_pure (a : α) : Ends (pure a : StateT σ (Except ε) α) s Q E ↔ Q a s := by
  simp [Ends]

@[simp] theorem ends_bind (x : StateT σ (Except ε) α) (f : α → StateT σ (Except ε) β)
    {R : β → σ → Prop} :
    Ends (x >>= f) s R E ↔ Ends x s (fun a s' => Ends (f a) s' R E) E := by
  unfold Ends
  rw [ensures_bind, fails_bind]
  exact ⟨fun ⟨hr, hx, hf⟩ => ⟨fun a s' h => ⟨hr a s' h, hf a s' h⟩, hx⟩,
    fun ⟨h, hx⟩ => ⟨fun a s' ha => (h a s' ha).1, hx, fun a s' ha => (h a s' ha).2⟩⟩

@[simp] theorem ends_map (g : α → β) (x : StateT σ (Except ε) α) {R : β → σ → Prop} :
    Ends (g <$> x) s R E ↔ Ends x s (fun a s' => R (g a) s') E := by
  rw [← bind_pure_comp, ends_bind]
  simp only [ends_pure]

@[simp] theorem ends_throw (e : ε) : Ends (throw e : StateT σ (Except ε) α) s Q E ↔ E e :=
  ⟨fun h => h.2 e rfl, fun h => ⟨ensures_throw e s Q, fun _ he => Except.error.inj he ▸ h⟩⟩

@[simp] theorem ends_get {Q : σ → σ → Prop} :
    Ends (get : StateT σ (Except ε) σ) s Q E ↔ Q s s := by
  simp [Ends]

@[simp] theorem ends_set (s' : σ) {Q : PUnit → σ → Prop} :
    Ends (set s' : StateT σ (Except ε) PUnit) s Q E ↔ Q ⟨⟩ s' := by
  simp [Ends]

@[simp] theorem ends_modify (f : σ → σ) {Q : PUnit → σ → Prop} :
    Ends (modify f : StateT σ (Except ε) PUnit) s Q E ↔ Q ⟨⟩ (f s) := by
  simp [Ends]

end Ends

/-! ## Walks -/

namespace Course

variable {c : Course σ} {s : σ} {Q : α → σ → Prop}

/-- One step after the other: **either may fail**. -/
theorem ends_andThen {x : StateT σ (Except ε) α} {f : α → StateT σ (Except ε) β}
    {R : β → σ → Prop} (hx : Ends x s (c.Kept s Q) E)
    (hf : ∀ a s', c.Sound s' → c.Leads s s' → Q a s' → Ends (f a) s' (c.Kept s' R) E) :
    Ends (x >>= f) s (c.Kept s R) E :=
  (ends_bind x f).mpr <| hx.mono fun a s' ⟨hs', hl, hq⟩ =>
    (hf a s' hs' hl hq).mono fun _ _ ⟨h₁, h₂, h₃⟩ => ⟨h₁, c.trans hl h₂, h₃⟩

theorem ends_mapM {P : β → σ → Prop} {f : α → StateT σ (Except ε) β}
    (hP : ∀ {b s s'}, c.Leads s s' → P b s → P b s') :
    ∀ (as : List α) {s : σ}, c.Sound s →
      (∀ a ∈ as, ∀ s', c.Sound s' → c.Leads s s' → Ends (f a) s' (c.Kept s' P) E) →
      Ends (as.mapM f) s (c.Kept s fun bs s' => ∀ b ∈ bs, P b s') E
  | [], s, hs, _ => by
    rw [List.mapM_nil]
    exact (ends_pure _).mpr ⟨hs, c.refl s, fun _ h => absurd h List.not_mem_nil⟩
  | a :: as, s, hs, hf => by
    rw [List.mapM_cons]
    refine ends_andThen (hf a List.mem_cons_self s hs (c.refl s)) fun b s₁ hs₁ hl₁ hb => ?_
    refine ends_andThen (ends_mapM (P := P) hP as hs₁ fun a' ha s' hs' hl =>
      hf a' (List.mem_cons_of_mem a ha) s' hs' (c.trans hl₁ hl)) fun bs s₂ hs₂ hl₂ hbs => ?_
    exact (ends_pure _).mpr ⟨hs₂, c.refl s₂, List.forall_mem_cons.mpr ⟨hP hl₂ hb, hbs⟩⟩

theorem ends_forM {f : α → StateT σ (Except ε) PUnit} :
    ∀ (as : List α) {s : σ}, c.Sound s →
      (∀ a ∈ as, ∀ s', c.Sound s' → c.Leads s s' →
        Ends (f a) s' (c.Kept s' fun _ _ => True) E) →
      Ends (as.forM f) s (c.Kept s fun _ _ => True) E
  | [], s, hs, _ => (ends_pure _).mpr ⟨hs, c.refl s, trivial⟩
  | a :: as, s, hs, hf =>
    ends_andThen (hf a List.mem_cons_self s hs (c.refl s)) fun _ _ hs₁ hl₁ _ =>
      ends_forM as hs₁ fun a' ha s' hs' hl =>
        hf a' (List.mem_cons_of_mem a ha) s' hs' (c.trans hl₁ hl)

end Course

end StackCompiler
