import StackCompiler.Diagnostic.Failure
import Mathlib.Data.List.Basic

/-!
# Proofs/Ensures — what holds when a step has succeeded

Reading, typing and laying out are steps with a state that may fail.  `Ensures x s Q` says that `x`,
run from `s`, either fails or ends in a result and a state of which `Q` holds, and `Succeeds x s Q`
that it does not fail.  Both are computed **from the last step backwards**, through the sequence that
a step is written as.
-/

namespace StackCompiler

variable {σ ε α β : Type}

/-- If the step succeeds from that state, what it ends in is as stated. -/
def Ensures (x : StateT σ (Except ε) α) (s : σ) (Q : α → σ → Prop) : Prop :=
  ∀ a s', x.run s = .ok (a, s') → Q a s'

/-- The same of a step without a state. -/
def Yields (x : Except ε α) (Q : α → Prop) : Prop :=
  ∀ a, x = .ok a → Q a

/-! ## Steps without a state -/

/-- A sequence succeeds if **both of its steps** do. -/
theorem bind_eq_ok_iff {x : Except ε α} {f : α → Except ε β} {b : β} :
    x >>= f = .ok b ↔ ∃ a, x = .ok a ∧ f a = .ok b := by
  cases x with
  | error e => exact ⟨fun h => (nomatch h), fun ⟨_, h, _⟩ => (nomatch h)⟩
  | ok a => exact ⟨fun h => ⟨a, rfl, h⟩, fun ⟨_, ha, h⟩ => Except.ok.inj ha ▸ h⟩

namespace Yields

variable {x : Except ε α} {Q Q' : α → Prop}

theorem mono (h : Yields x Q) (hQ : ∀ a, Q a → Q' a) : Yields x Q' :=
  fun a ha => hQ a (h a ha)

end Yields

@[simp] theorem yields_ok (a : α) (Q : α → Prop) : Yields (.ok a : Except ε α) Q ↔ Q a :=
  ⟨fun h => h a rfl, fun h _ ha => Except.ok.inj ha ▸ h⟩

@[simp] theorem yields_pure (a : α) (Q : α → Prop) : Yields (pure a : Except ε α) Q ↔ Q a :=
  yields_ok a Q

@[simp] theorem yields_error (e : ε) (Q : α → Prop) : Yields (.error e : Except ε α) Q :=
  fun _ h => nomatch h

@[simp] theorem yields_bind (x : Except ε α) (f : α → Except ε β) (Q : β → Prop) :
    Yields (x >>= f) Q ↔ Yields x fun a => Yields (f a) Q := by
  cases x with
  | error e => exact ⟨fun _ _ h => (nomatch h), fun _ _ h => (nomatch h)⟩
  | ok a => exact ⟨fun h b hb => Except.ok.inj hb ▸ h, fun h => h a rfl⟩

theorem yields_forM {f : α → Except ε PUnit} {P : α → Prop} :
    ∀ as : List α, (∀ a ∈ as, Yields (f a) fun _ => P a) →
      Yields (as.forM f) fun _ => ∀ a ∈ as, P a
  | [], _ => (yields_pure _ _).mpr fun _ h => absurd h List.not_mem_nil
  | a :: as, h => (yields_bind (f a) (fun _ => as.forM f) _).mpr <|
      (h a List.mem_cons_self).mono fun _ ha =>
        (yields_forM as fun b hb => h b (List.mem_cons_of_mem _ hb)).mono fun _ has =>
          List.forall_mem_cons.mpr ⟨ha, has⟩

/-- A step that succeeds with what passes a test. -/
theorem exists_ok_of_any {x : Except ε α} {P : α → Bool} (h : x.toOption.any P = true) :
    ∃ a, x = .ok a ∧ P a = true := by
  cases x with
  | error e => cases h
  | ok a => exact ⟨a, rfl, h⟩

/-- The same for what is made of a text, tested on **the characters that the text is written with**:
to take them out of a string again is what evaluation is slowest at. -/
theorem exists_ok_of_text {s : String} {cs : List Char} (hs : s = String.ofList cs)
    {f : List Char → Except ε α} {P : List Char → α → Bool}
    (h : (f cs).toOption.any (P cs) = true) : ∃ a, f s.toList = .ok a ∧ P s.toList a = true := by
  rw [hs, String.toList_ofList]
  exact exists_ok_of_any h

/-! ## Steps with a state -/

/-- A sequence **goes on from** what its first step has come to. -/
theorem run_bind_of_ok {x : StateT σ (Except ε) α} {f : α → StateT σ (Except ε) β} {s s' : σ} {a : α}
    (h : x.run s = .ok (a, s')) : (x >>= f).run s = (f a).run s' := by
  rw [StateT.run_bind, h]
  rfl

namespace Ensures

variable {x : StateT σ (Except ε) α} {s : σ} {Q Q' : α → σ → Prop}

theorem mono (h : Ensures x s Q) (hQ : ∀ a s', Q a s' → Q' a s') : Ensures x s Q' :=
  fun a s' ha => hQ a s' (h a s' ha)

theorem and (h : Ensures x s Q) (h' : Ensures x s Q') : Ensures x s fun a s' => Q a s' ∧ Q' a s' :=
  fun a s' ha => ⟨h a s' ha, h' a s' ha⟩

end Ensures

@[simp] theorem ensures_pure (a : α) (s : σ) (Q : α → σ → Prop) :
    Ensures (pure a : StateT σ (Except ε) α) s Q ↔ Q a s :=
  ⟨fun h => h a s rfl, fun h _ _ ha => by cases ha; exact h⟩

@[simp] theorem ensures_bind (x : StateT σ (Except ε) α) (f : α → StateT σ (Except ε) β) (s : σ)
    (Q : β → σ → Prop) :
    Ensures (x >>= f) s Q ↔ Ensures x s fun a s' => Ensures (f a) s' Q := by
  unfold Ensures
  rw [StateT.run_bind]
  cases x.run s with
  | error e => exact ⟨fun _ _ _ h => (nomatch h), fun _ _ _ h => (nomatch h)⟩
  | ok r => exact ⟨fun h a s' ha => by cases ha; exact h, fun h => h _ _ rfl⟩

@[simp] theorem ensures_map (g : α → β) (x : StateT σ (Except ε) α) (s : σ)
    (Q : β → σ → Prop) : Ensures (g <$> x) s Q ↔ Ensures x s fun a s' => Q (g a) s' := by
  rw [← bind_pure_comp, ensures_bind]
  simp only [ensures_pure]

@[simp] theorem ensures_throw (e : ε) (s : σ) (Q : α → σ → Prop) :
    Ensures (throw e : StateT σ (Except ε) α) s Q :=
  fun _ _ h => nomatch h

@[simp] theorem ensures_get (s : σ) (Q : σ → σ → Prop) :
    Ensures (get : StateT σ (Except ε) σ) s Q ↔ Q s s :=
  ensures_pure (ε := ε) s s Q

@[simp] theorem ensures_set (s s' : σ) (Q : PUnit → σ → Prop) :
    Ensures (set s' : StateT σ (Except ε) PUnit) s Q ↔ Q ⟨⟩ s' :=
  ⟨fun h => h _ _ rfl, fun h _ _ ha => by cases ha; exact h⟩

@[simp] theorem ensures_modify (f : σ → σ) (s : σ) (Q : PUnit → σ → Prop) :
    Ensures (modify f : StateT σ (Except ε) PUnit) s Q ↔ Q ⟨⟩ (f s) :=
  ⟨fun h => h _ _ rfl, fun h _ _ ha => by cases ha; exact h⟩

@[simp] theorem ensures_lift (x : Except ε α) (s : σ) (Q : α → σ → Prop) :
    Ensures (liftM x : StateT σ (Except ε) α) s Q ↔ Yields x fun a => Q a s := by
  cases x with
  | error e => exact ⟨fun _ _ h => (nomatch h), fun _ _ _ h => (nomatch h)⟩
  | ok a => exact ⟨fun h b hb => by cases hb; exact h _ _ rfl,
      fun h b s' hb => by cases hb; exact h _ rfl⟩

/-- Running a step is a step **without a state**. -/
theorem Ensures.run {x : StateT σ (Except ε) α} {s : σ} {Q : α → σ → Prop} (h : Ensures x s Q) :
    Yields (x.run s) fun r => Q r.1 r.2 :=
  fun r hr => h r.1 r.2 hr

/-! ## Steps that do succeed -/

/-- The step **succeeds** from that state, and what it ends in is as stated. -/
def Succeeds (x : StateT σ (Except ε) α) (s : σ) (Q : α → σ → Prop) : Prop :=
  ∃ a s', x.run s = .ok (a, s') ∧ Q a s'

section Succeeds

variable {s : σ} {Q Q' : α → σ → Prop}

theorem Succeeds.mono {x : StateT σ (Except ε) α} (h : Succeeds x s Q)
    (hQ : ∀ a s', Q a s' → Q' a s') : Succeeds x s Q' := by
  obtain ⟨a, s', hx, ha⟩ := h
  exact ⟨a, s', hx, hQ a s' ha⟩

/-- What a step that succeeds ends in is **all that it may end in**. -/
theorem Succeeds.ensures {x : StateT σ (Except ε) α} (h : Succeeds x s Q) : Ensures x s Q := by
  obtain ⟨a, s', hx, ha⟩ := h
  intro b s'' hb
  cases hx.symm.trans hb
  exact ha

@[simp] theorem succeeds_pure (a : α) : Succeeds (pure a : StateT σ (Except ε) α) s Q ↔ Q a s :=
  ⟨fun ⟨_, _, ha, h⟩ => by cases ha; exact h, fun h => ⟨a, s, rfl, h⟩⟩

@[simp] theorem succeeds_bind (x : StateT σ (Except ε) α) (f : α → StateT σ (Except ε) β)
    {R : β → σ → Prop} :
    Succeeds (x >>= f) s R ↔ Succeeds x s fun a s' => Succeeds (f a) s' R := by
  unfold Succeeds
  rw [StateT.run_bind]
  cases x.run s with
  | error e => exact ⟨fun ⟨_, _, h, _⟩ => (nomatch h), fun ⟨_, _, h, _⟩ => (nomatch h)⟩
  | ok r => exact ⟨fun h => ⟨r.1, r.2, rfl, h⟩, fun ⟨_, _, ha, h⟩ => by cases ha; exact h⟩

@[simp] theorem succeeds_get {Q : σ → σ → Prop} :
    Succeeds (get : StateT σ (Except ε) σ) s Q ↔ Q s s :=
  succeeds_pure (ε := ε) s

@[simp] theorem succeeds_set (s' : σ) {Q : PUnit → σ → Prop} :
    Succeeds (set s' : StateT σ (Except ε) PUnit) s Q ↔ Q ⟨⟩ s' :=
  ⟨fun ⟨_, _, ha, h⟩ => by cases ha; exact h, fun h => ⟨_, _, rfl, h⟩⟩

@[simp] theorem succeeds_modify (f : σ → σ) {Q : PUnit → σ → Prop} :
    Succeeds (modify f : StateT σ (Except ε) PUnit) s Q ↔ Q ⟨⟩ (f s) :=
  ⟨fun ⟨_, _, ha, h⟩ => by cases ha; exact h, fun h => ⟨_, _, rfl, h⟩⟩

end Succeeds

/-! ## Walks -/

/-- The states that a walk passes through: what each of them is like, and **how one may lead to
another**. -/
structure Course (σ : Type) where
  Sound : σ → Prop
  Leads : σ → σ → Prop
  refl : ∀ s, Leads s s
  trans : ∀ {s s' s''}, Leads s s' → Leads s' s'' → Leads s s''

namespace Course

variable {c : Course σ} {s : σ} {Q Q' : α → σ → Prop}

/-- A walk from `s` has ended in a sound state that `s` leads to, and `Q` holds of its result. -/
def Kept (c : Course σ) (s : σ) (Q : α → σ → Prop) (a : α) (s' : σ) : Prop :=
  c.Sound s' ∧ c.Leads s s' ∧ Q a s'

theorem Kept.mono {s' : σ} {a : α} (hQ : ∀ a s', Q a s' → Q' a s') (h : c.Kept s Q a s') :
    c.Kept s Q' a s' :=
  ⟨h.1, h.2.1, hQ a s' h.2.2⟩

theorem kept_pure {a : α} (hs : c.Sound s) (ha : Q a s) :
    Ensures (pure a : StateT σ (Except ε) α) s (c.Kept s Q) :=
  (ensures_pure a s _).mpr ⟨hs, c.refl s, ha⟩

/-- **One step after the other**: the second may use what holds after the first. -/
theorem andThen {x : StateT σ (Except ε) α} {f : α → StateT σ (Except ε) β} {R : β → σ → Prop}
    (hx : Ensures x s (c.Kept s Q))
    (hf : ∀ a s', c.Sound s' → c.Leads s s' → Q a s' → Ensures (f a) s' (c.Kept s' R)) :
    Ensures (x >>= f) s (c.Kept s R) :=
  (ensures_bind x f s _).mpr <| hx.mono fun a s' ⟨hs', hl, hq⟩ =>
    (hf a s' hs' hl hq).mono fun _ _ ⟨h₁, h₂, h₃⟩ => ⟨h₁, c.trans hl h₂, h₃⟩

variable {P : β → σ → Prop} {f : α → StateT σ (Except ε) β}

/-- A walk over a list leaves of every item what the **step for that item** leaves. -/
theorem mapM (hP : ∀ {b s s'}, c.Leads s s' → P b s → P b s') :
    ∀ (as : List α) {s : σ}, c.Sound s →
      (∀ a ∈ as, ∀ s', c.Sound s' → c.Leads s s' → Ensures (f a) s' (c.Kept s' P)) →
      Ensures (as.mapM f) s (c.Kept s fun bs s' => ∀ b ∈ bs, P b s')
  | [], s, hs, _ => by
    rw [List.mapM_nil]
    exact kept_pure hs fun _ h => absurd h List.not_mem_nil
  | a :: as, s, hs, hf => by
    rw [List.mapM_cons]
    refine andThen (hf a List.mem_cons_self s hs (c.refl s)) fun b s₁ hs₁ hl₁ hb => ?_
    refine andThen (mapM hP as hs₁ fun a' ha s' hs' hl =>
      hf a' (List.mem_cons_of_mem a ha) s' hs' (c.trans hl₁ hl)) fun bs s₂ hs₂ hl₂ hbs => ?_
    exact kept_pure hs₂ (List.forall_mem_cons.mpr ⟨hP hl₂ hb, hbs⟩)

theorem forM {f : α → StateT σ (Except ε) PUnit} {P : α → σ → Prop}
    (hP : ∀ {a s s'}, c.Leads s s' → P a s → P a s') :
    ∀ (as : List α) {s : σ}, c.Sound s →
      (∀ a ∈ as, ∀ s', c.Sound s' → c.Leads s s' →
        Ensures (f a) s' (c.Kept s' fun _ s'' => P a s'')) →
      Ensures (as.forM f) s (c.Kept s fun _ s' => ∀ a ∈ as, P a s')
  | [], _, hs, _ => kept_pure hs fun _ h => absurd h List.not_mem_nil
  | a :: as, s, hs, hf => by
    refine andThen (hf a List.mem_cons_self s hs (c.refl s)) fun _ s₁ hs₁ hl₁ ha => ?_
    refine (forM (P := P) hP as hs₁ fun a' ha' s' hs' hl =>
      hf a' (List.mem_cons_of_mem a ha') s' hs' (c.trans hl₁ hl)).mono ?_
    rintro _ s₂ ⟨hs₂, hl₂, has⟩
    exact ⟨hs₂, hl₂, List.forall_mem_cons.mpr ⟨hP hl₂ ha, has⟩⟩

end Course

end StackCompiler
