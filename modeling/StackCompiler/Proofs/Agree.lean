import Mathlib.Data.List.Forall2
import StackCompiler.Diagnostic.Failure
import StackCompiler.Proofs.Ensures

/-!
# Proofs/Agree — two runs side by side

Places in a source are carried through all stages, but no stage decides anything by them.  To say so,
two runs are compared: `Agree x y Q` says that both succeed, with results of which `Q` holds, or
both fail **for one reason**, wherever they say that it is.  `Parallel` is the same of steps with a
state that start from related states.
-/

namespace StackCompiler

/-- The failure without the place that it is told of. -/
def Failure.unplaced : Failure → Failure
  | .refused d => .refused ⟨d.cause, 0⟩
  | .broken fault => .broken fault

variable {α β γ δ σ : Type}

/-- Both steps succeed with results of which `Q` holds, or both fail for one reason. -/
def Agree (x : Except Failure α) (y : Except Failure β) (Q : α → β → Prop) : Prop :=
  match x, y with
  | .ok a, .ok b => Q a b
  | .error e, .error e' => e.unplaced = e'.unplaced
  | _, _ => False

namespace Agree

variable {x : Except Failure α} {y : Except Failure β} {Q Q' : α → β → Prop}

theorem mono (h : Agree x y Q) (hQ : ∀ a b, Q a b → Q' a b) : Agree x y Q' := by
  cases x <;> cases y
  · exact h
  · exact h
  · exact h
  · exact hQ _ _ h

/-- **One step after the other** on both sides. -/
theorem bind {f : α → Except Failure γ} {g : β → Except Failure δ} {R : γ → δ → Prop}
    (h : Agree x y Q) (hf : ∀ a b, Q a b → Agree (f a) (g b) R) : Agree (x >>= f) (y >>= g) R := by
  cases x <;> cases y
  · exact h
  · exact h.elim
  · exact h.elim
  · exact hf _ _ h

theorem refl (x : Except Failure α) : Agree x x Eq := by
  cases x <;> rfl

/-- Where the one succeeds **the other does**. -/
theorem exists_ok (h : Agree x y Q) {a : α} (hx : x = .ok a) : ∃ b, y = .ok b ∧ Q a b := by
  subst hx
  cases y with
  | error => exact h.elim
  | ok b => exact ⟨b, rfl, h⟩

theorem exists_ok' (h : Agree x y Q) {b : β} (hy : y = .ok b) : ∃ a, x = .ok a ∧ Q a b := by
  subst hy
  cases x with
  | error => exact h.elim
  | ok a => exact ⟨a, rfl, h⟩

end Agree

theorem agree_refused (cause : Cause) (loc loc' : Nat) {Q : α → β → Prop} :
    Agree (.error (.refused ⟨cause, loc⟩)) (.error (.refused ⟨cause, loc'⟩)) Q :=
  rfl

theorem agree_ite {p : Prop} [Decidable p] {x x' : Except Failure α} {y y' : Except Failure β}
    {Q : α → β → Prop} (h : p → Agree x y Q) (h' : ¬p → Agree x' y' Q) :
    Agree (if p then x else x') (if p then y else y') Q := by
  by_cases hp : p
  · rw [if_pos hp, if_pos hp]
    exact h hp
  · rw [if_neg hp, if_neg hp]
    exact h' hp

theorem agree_forM {f : α → Except Failure PUnit} {g : β → Except Failure PUnit} {R : α → β → Prop}
    (hf : ∀ a b, R a b → Agree (f a) (g b) Eq) {as : List α} {bs : List β}
    (h : List.Forall₂ R as bs) : Agree (as.forM f) (bs.forM g) Eq := by
  induction h with
  | nil => exact Agree.refl _
  | cons hab _ ih => exact (hf _ _ hab).bind fun _ _ _ => ih

/-! ## Steps with a state -/

/-- From states that are related by `T` both steps come to results related by `R` and to states
related by `T` again, or fail for one reason. -/
def Parallel (T : σ → σ → Prop) (R : α → β → Prop) (x : StateT σ (Except Failure) α)
    (y : StateT σ (Except Failure) β) : Prop :=
  ∀ s s', T s s' → Agree (x.run s) (y.run s') fun p q => R p.1 q.1 ∧ T p.2 q.2

section Parallel

variable {T : σ → σ → Prop} {R : α → β → Prop} {S : γ → δ → Prop}
  {x : StateT σ (Except Failure) α} {y : StateT σ (Except Failure) β}

theorem parallel_pure {a : α} {b : β} (h : R a b) : Parallel T R (pure a) (pure b) :=
  fun _ _ hs => ⟨h, hs⟩

theorem Parallel.bind {f : α → StateT σ (Except Failure) γ} {g : β → StateT σ (Except Failure) δ}
    (h : Parallel T R x y) (hf : ∀ a b, R a b → Parallel T S (f a) (g b)) :
    Parallel T S (x >>= f) (y >>= g) := by
  intro s s' hs
  rw [StateT.run_bind, StateT.run_bind]
  exact (h s s' hs).bind fun p q hpq => hf p.1 q.1 hpq.1 p.2 q.2 hpq.2

theorem Parallel.map {f : α → γ} {g : β → δ} (h : Parallel T R x y)
    (hf : ∀ a b, R a b → S (f a) (g b)) : Parallel T S (f <$> x) (g <$> y) := by
  rw [← bind_pure_comp, ← bind_pure_comp]
  exact h.bind fun a b hab => parallel_pure (hf a b hab)

theorem parallel_throw {e e' : Failure} (h : e.unplaced = e'.unplaced) :
    Parallel T R (throw e) (throw e') :=
  fun _ _ _ => h

theorem parallel_lift {x : Except Failure α} {y : Except Failure β} (h : Agree x y R) :
    Parallel T R (liftM x) (liftM y) := by
  intro s s' hs
  cases x <;> cases y
  · exact h
  · exact h.elim
  · exact h.elim
  · exact ⟨h, hs⟩

theorem parallel_get : Parallel T T get get :=
  fun _ _ hs => ⟨hs, hs⟩

theorem parallel_set {s s' : σ} (h : T s s') :
    Parallel T Eq (set s : StateT σ (Except Failure) PUnit) (set s') :=
  fun _ _ _ => ⟨rfl, h⟩

theorem parallel_modify {f f' : σ → σ} (h : ∀ s s', T s s' → T (f s) (f' s')) :
    Parallel T Eq (modify f : StateT σ (Except Failure) PUnit) (modify f') :=
  fun s s' hs => ⟨rfl, h s s' hs⟩

/-- Both sides **go the same way**. -/
theorem parallel_ite {p : Prop} [Decidable p] {x' : StateT σ (Except Failure) α}
    {y' : StateT σ (Except Failure) β} (h : p → Parallel T R x y) (h' : ¬p → Parallel T R x' y') :
    Parallel T R (if p then x else x') (if p then y else y') := by
  by_cases hp : p
  · rw [if_pos hp, if_pos hp]
    exact h hp
  · rw [if_neg hp, if_neg hp]
    exact h' hp

/-- One step after the other, where the second is told what **the first step ensures** on its side. -/
theorem Parallel.bindAfter {Q : α → σ → Prop} {f : α → StateT σ (Except Failure) γ}
    {g : β → StateT σ (Except Failure) δ} (h : Parallel T R x y) (hx : ∀ s, Ensures x s Q)
    (hf : ∀ a b s s', R a b → T s s' → Q a s →
      Agree ((f a).run s) ((g b).run s') fun p q => S p.1 q.1 ∧ T p.2 q.2) :
    Parallel T S (x >>= f) (y >>= g) := by
  intro s s' hs
  have hagree := h s s' hs
  have hensures := hx s
  rw [StateT.run_bind, StateT.run_bind]
  unfold Ensures at hensures
  cases hrun : x.run s <;> cases hrun' : y.run s' <;> rw [hrun, hrun'] at hagree
  · exact hagree
  · exact hagree.elim
  · exact hagree.elim
  · exact hf _ _ _ _ hagree.1 hagree.2 (hensures _ _ hrun)

/-! ### Walks -/

theorem Parallel.mapM {f : α → StateT σ (Except Failure) γ} {g : β → StateT σ (Except Failure) δ}
    (hf : ∀ a b, R a b → Parallel T S (f a) (g b)) {as : List α} {bs : List β}
    (h : List.Forall₂ R as bs) : Parallel T (List.Forall₂ S) (as.mapM f) (bs.mapM g) := by
  induction h with
  | nil => exact parallel_pure .nil
  | cons hab _ ih =>
    rw [List.mapM_cons, List.mapM_cons]
    refine (hf _ _ hab).bind fun c d hcd => ih.bind fun cs ds hcds => ?_
    exact parallel_pure (.cons hcd hcds)

theorem Parallel.forM {f : α → StateT σ (Except Failure) PUnit}
    {g : β → StateT σ (Except Failure) PUnit} (hf : ∀ a b, R a b → Parallel T Eq (f a) (g b))
    {as : List α} {bs : List β} (h : List.Forall₂ R as bs) :
    Parallel T Eq (as.forM f) (bs.forM g) := by
  induction h with
  | nil => exact parallel_pure rfl
  | cons hab _ ih => exact (hf _ _ hab).bind fun _ _ _ => ih

end Parallel

/-! ## Sameness up to a function -/

/-- Two values of which two functions **make the same**. -/
abbrev Meets (f : α → γ) (g : β → γ) (a : α) (b : β) : Prop :=
  f a = g b

/-- Two values of which a function **makes the same**. -/
abbrev SameBy (f : α → β) (a a' : α) : Prop :=
  f a = f a'

/-- The second value is what a function makes of the first. -/
abbrev MadeBy (f : α → β) (a : α) (b : β) : Prop :=
  b = f a

/-- Two steps that each **agree with a third one** agree with one another. -/
theorem Agree.of_common {x y z : Except Failure α} {f : α → β} (h : Agree x z (SameBy f))
    (h' : Agree y z (SameBy f)) : Agree x y (SameBy f) := by
  cases x <;> cases y <;> cases z
  · exact Eq.trans h (Eq.symm h')
  · exact h.elim
  · exact h'.elim
  · exact h.elim
  · exact h.elim
  · exact h'.elim
  · exact h.elim
  · exact Eq.trans h (Eq.symm h')

theorem forall₂_madeBy (f : α → β) (as : List α) : List.Forall₂ (MadeBy f) as (as.map f) :=
  List.forall₂_map_right_iff.mpr (List.forall₂_same.mpr fun _ _ => rfl)

theorem forall₂_meets_iff {f : α → γ} {g : β → γ} {as : List α} {bs : List β} :
    List.Forall₂ (Meets f g) as bs ↔ Meets (List.map f) (List.map g) as bs := by
  have hmaps : List.Forall₂ Eq (as.map f) (bs.map g) ↔ List.Forall₂ (Meets f g) as bs := by
    rw [List.forall₂_map_left_iff, List.forall₂_map_right_iff]
  rw [← hmaps, List.forall₂_eq_eq_eq]

/-- The first items that pass tests which agree **meet**. -/
theorem find?_meets {f : α → γ} {g : β → γ} {p : α → Bool} {q : β → Bool} {as : List α}
    {bs : List β} (h : Meets (List.map f) (List.map g) as bs)
    (htest : ∀ a b, f a = g b → p a = q b) :
    Meets (Option.map f) (Option.map g) (as.find? p) (bs.find? q) := by
  induction forall₂_meets_iff.mpr h with
  | nil => rfl
  | @cons a b as bs hab hrest ih =>
    rw [Meets, List.find?_cons, List.find?_cons, htest a b hab]
    cases q b with
    | true => exact congrArg some hab
    | false => exact ih (forall₂_meets_iff.mp hrest)

end StackCompiler
