import StackCompiler.Proofs.Grammar.Nesting
import StackCompiler.Proofs.Grammar.Package
import StackCompiler.Proofs.Grammar.Refusals

/-!
# Proofs/Grammar/Rounds — a package is read round by round

Reading a package is a repetition of which each round but the last takes a token (`Rounds`).  A round
does not look back: what was taken **before it** has no influence on what it comes to.
-/

namespace StackCompiler.Grammar

/-! ## Repetitions, round by round -/

section Rounds

variable {σ α : Type} {round : σ → Parser (Round σ α)} {s s' : σ} {a : α} {r r' : Reading}

/-- From that state and reading the repetition ends with that result; each of its rounds but the last
**takes a token**. -/
inductive Rounds (round : σ → Parser (Round σ α)) : σ → Reading → α → Reading → Prop
  | done {s : σ} {r r' : Reading} {a : α} : (round s).run r = .ok (.done a, r') →
      Rounds round s r a r'
  | again {s s' : σ} {r r' r'' : Reading} {a : α} : (round s).run r = .ok (.again s', r') →
      r'.rest.length < r.rest.length → Rounds round s' r' a r'' → Rounds round s r a r''

theorem Rounds.run (h : Rounds round s r a r') : (iterate round s).run r = .ok (a, r') := by
  have hrounds : ∀ n, r.rest.length < n → (rounds round n s).run r = .ok (a, r') := by
    induction h with
    | done h =>
      intro n hn
      obtain ⟨n, rfl⟩ := Nat.exists_eq_succ_of_ne_zero hn.ne_bot
      rw [rounds, StateT.run_bind, h]
      rfl
    | again h hlt _ ih =>
      intro n hn
      obtain ⟨n, rfl⟩ := Nat.exists_eq_succ_of_ne_zero hn.ne_bot
      rw [rounds, StateT.run_bind, h]
      exact ih n (by omega)
  exact hrounds _ (Nat.lt_succ_self _)

/-- A repetition that has ended **took a token in every round** but the last, if each of its rounds
does. -/
theorem rounds_of_run {I : σ → Reading → Prop} (hround : ∀ s r s' r', I s r →
      (round s).run r = .ok (.again s', r') → r'.rest.length < r.rest.length ∧ I s' r')
    (hI : I s r) (h : (iterate round s).run r = .ok (a, r')) : Rounds round s r a r' := by
  have hrounds : ∀ n s r, I s r → (rounds round n s).run r = .ok (a, r') →
      Rounds round s r a r' := by
    intro n
    induction n with
    | zero => exact fun _ _ _ h => nomatch h
    | succ n ih =>
      intro s r hI h
      rw [rounds, StateT.run_bind] at h
      obtain ⟨⟨o, r₁⟩, ho, h⟩ := bind_eq_ok_iff.mp h
      cases o with
      | again s₁ =>
        obtain ⟨hlt, hI₁⟩ := hround _ _ _ _ hI ho
        exact .again ho hlt (ih s₁ r₁ hI₁ h)
      | done b =>
        cases h
        exact .done ho
  exact hrounds _ s r hI h

end Rounds

/-! ## A round does not look back -/

section Anew

variable {d d' : Declared} {r r' : Reading} {t : Token} {rest : List Token} {text : String}

theorem run_expect (hr : r.rest = t :: rest) (ht : t.is text = true) :
    (expect text).run r = .ok (r.stop, { r with previous := some t, rest := rest }) := by
  rw [expect, run_bind_of_ok (run_here r), run_bind_of_ok (run_accept hr ht)]
  rfl

/-- Where a punctuator is expected, what was taken before **does not matter**. -/
theorem run_expect_anew {α : Type} {f : Nat → Parser α} (hr : r.rest = t :: rest)
    (ht : t.is text = true) (previous : Option Token) :
    (expect text >>= f).run { r with previous := previous } = (expect text >>= f).run r := by
  rw [run_bind_of_ok (run_expect hr ht)]
  exact run_bind_of_ok (run_expect (r := { r with previous := previous }) hr ht)

theorem run_function_anew (taken : List String) (hr : r.rest = t :: rest)
    (ht : t.is "func" = true) (previous : Option Token) :
    (function taken).run { r with previous := previous } = (function taken).run r :=
  run_expect_anew hr ht previous

theorem exists_head_of_ahead (h : r.rest.head?.any (·.is text) = true) :
    ∃ t rest, r.rest = t :: rest ∧ t.is text = true := by
  obtain ⟨t, ht, htext⟩ := (Option.any_eq_true _ _).mp h
  obtain ⟨rest, hrest⟩ := List.head?_eq_some_iff.mp ht
  exact ⟨t, rest, hrest, htext⟩

theorem run_ahead (text : String) (r : Reading) :
    (ahead text).run r = .ok (r.rest.head?.any (·.is text), r) :=
  rfl

theorem run_atEnd (r : Reading) : atEnd.run r = .ok (r.rest.head?.all (·.kind == .eof), r) :=
  rfl

/-- What a round comes to where **no `;` comes next**. -/
theorem run_packageRound (hother : r.rest.head?.any (·.is ";") = false) (d : Declared) :
    (packageRound d).run r =
      if r.rest.head?.all (·.kind == .eof) then .ok (.done d, r)
      else if r.rest.head?.any (·.is "func") then
        (function (d.funcs.map (·.name)) >>= fun f =>
          pure (.again { d with funcs := d.funcs ++ [f] })).run r
      else if r.rest.head?.any (·.is "var") then
        (declaration >>= fun init => pure (.again (if init.isEmpty then d
          else { d with inits := d.inits ++ [init] }))).run r
      else (unexpected .declaration : Parser (Round Declared Declared)).run r := by
  rw [packageRound, run_bind_of_ok (run_accept_other hother)]
  change (atEnd >>= _).run r = _
  rw [run_bind_of_ok (run_atEnd r)]
  cases r.rest.head?.all (·.kind == .eof) with
  | true => rfl
  | false =>
  change (ahead "func" >>= _).run r = _
  rw [run_bind_of_ok (run_ahead "func" r)]
  cases r.rest.head?.any (·.is "func") with
  | true => rfl
  | false =>
  change (ahead "var" >>= _).run r = _
  rw [run_bind_of_ok (run_ahead "var" r)]
  cases r.rest.head?.any (·.is "var") with
  | true => rfl
  | false => rfl

/-- The last round is the one **at the end of the source**, and does nothing. -/
theorem run_packageRound_done_iff {a : Declared} : (packageRound d).run r = .ok (.done a, r') ↔
    r.rest.head?.all (·.kind == .eof) = true ∧ a = d ∧ r' = r := by
  constructor
  · intro h
    rcases run_accept_cases ";" r with ⟨t, rest, hr, ht, haccept⟩ | ⟨hother, -⟩
    · rw [packageRound, run_bind_of_ok haccept] at h
      cases h
    rw [run_packageRound hother] at h
    split at h
    next hend =>
      cases h
      exact ⟨hend, rfl, rfl⟩
    all_goals split at h
    · rw [StateT.run_bind] at h
      obtain ⟨x, -, h⟩ := bind_eq_ok_iff.mp h
      cases h
    split at h
    · rw [StateT.run_bind] at h
      obtain ⟨x, -, h⟩ := bind_eq_ok_iff.mp h
      cases h
    · have hnever : Spans r (fun _ : Round Declared Declared => fun _ _ => True)
          (fun _ _ => False) (unexpected .declaration) (unexpected .declaration) :=
        spans_unexpected .declaration
      exact (hnever _ _ h).elim fun _ h => h.2.1.elim
  · rintro ⟨hend, rfl, rfl⟩
    have hother : r'.rest.head?.any (·.is ";") = false := by
      cases hr : r'.rest.head? with
      | none => rfl
      | some t =>
        rw [hr, Option.all_some, beq_iff_eq] at hend
        rw [Option.any_some, Token.is, hend]
        rfl
    rw [run_packageRound hother, if_pos hend]

/-- At a punctuator there is **no other one**, and the source does not end. -/
theorem head?_of_is (hr : r.rest = t :: rest) (ht : t.is text = true) :
    r.rest.head?.any (·.is text) = true ∧ r.rest.head?.all (·.kind == .eof) = false ∧
      ∀ text', text ≠ text' → r.rest.head?.any (·.is text') = false := by
  rw [hr, List.head?_cons, Option.all_some, (Token.is_iff.mp ht).1]
  exact ⟨ht, rfl, fun text' hne => Token.is_eq_false_of_is ht hne⟩

/-- Between declarations a terminator **is passed over**. -/
theorem run_packageRound_terminator (hr : r.rest = t :: rest) (ht : t.is ";" = true)
    (d : Declared) :
    (packageRound d).run r = .ok (.again d, { r with previous := some t, rest := rest }) := by
  rw [packageRound, run_bind_of_ok (run_accept hr ht)]
  rfl

/-- A round at the start of a function **reads that function**. -/
theorem run_packageRound_function (hr : r.rest = t :: rest) (ht : t.is "func" = true)
    (d : Declared) : (packageRound d).run r =
      (function (d.funcs.map (·.name)) >>= fun f =>
        pure (.again { d with funcs := d.funcs ++ [f] })).run r := by
  obtain ⟨hfound, hend, hother⟩ := head?_of_is hr ht
  rw [run_packageRound (hother _ (by decide)), hend, hfound, if_neg Bool.false_ne_true, if_pos rfl]

/-- A round at the start of a variable **reads that declaration**. -/
theorem run_packageRound_var (hr : r.rest = t :: rest) (ht : t.is "var" = true)
    (d : Declared) : (packageRound d).run r =
      (declaration >>= fun init => pure (.again (if init.isEmpty then d
        else { d with inits := d.inits ++ [init] }))).run r := by
  obtain ⟨hfound, hend, hother⟩ := head?_of_is hr ht
  rw [run_packageRound (hother _ (by decide)), hend, hother _ (by decide), hfound,
    if_neg Bool.false_ne_true, if_neg Bool.false_ne_true, if_pos rfl]

/-- Where a function starts, the repetition goes on **behind that function**. -/
theorem Rounds.function {a : Declared} (h : Rounds packageRound d r a r') (hr : r.rest = t :: rest)
    (ht : t.is "func" = true) :
    ∃ f r₁, (Grammar.function (d.funcs.map (·.name))).run r = .ok (f, r₁) ∧
      Rounds packageRound { d with funcs := d.funcs ++ [f] } r₁ a r' := by
  have hround := run_packageRound_function hr ht d
  cases h with
  | done hdone =>
    rw [hround, StateT.run_bind] at hdone
    obtain ⟨⟨f, r₁⟩, -, hf⟩ := bind_eq_ok_iff.mp hdone
    cases hf
  | again hagain _ hrest =>
    rw [hround, StateT.run_bind] at hagain
    obtain ⟨⟨f, r₁⟩, hrun, hf⟩ := bind_eq_ok_iff.mp hagain
    cases hf
    exact ⟨f, r₁, hrun, hrest⟩

/-- A round that is not the last one **does not look back**. -/
theorem run_packageRound_anew (h : (packageRound d).run r = .ok (.again d', r'))
    (previous : Option Token) :
    (packageRound d).run { r with previous := previous } = .ok (.again d', r') := by
  rw [← h]
  rcases run_accept_cases ";" r with ⟨t, rest, hr, ht, haccept⟩ | ⟨hother, -⟩
  · rw [packageRound, run_bind_of_ok haccept]
    exact run_bind_of_ok (run_accept (r := { r with previous := previous }) hr ht)
  rw [run_packageRound hother] at h ⊢
  rw [run_packageRound (r := { r with previous := previous }) hother]
  dsimp only
  cases hend : r.rest.head?.all (·.kind == .eof) with
  | true =>
    rw [hend] at h
    cases h
  | false =>
  rw [if_neg Bool.false_ne_true, if_neg Bool.false_ne_true]
  cases hfunc : r.rest.head?.any (·.is "func") with
  | true =>
    obtain ⟨t, rest, hr, ht⟩ := exists_head_of_ahead hfunc
    rw [if_pos rfl, if_pos rfl, StateT.run_bind, StateT.run_bind, run_function_anew _ hr ht]
  | false =>
  rw [if_neg Bool.false_ne_true, if_neg Bool.false_ne_true]
  cases hvar : r.rest.head?.any (·.is "var") with
  | true =>
    obtain ⟨t, rest, hr, ht⟩ := exists_head_of_ahead hvar
    rw [if_pos rfl, if_pos rfl, StateT.run_bind, StateT.run_bind, declaration,
      run_expect_anew hr ht]
  | false => rfl

end Anew

/-! ## The heading -/

section Heading

variable {r last : Reading} {p : Program} {i : Token} {rest : List Token}

/-- The program of what a package has declared. -/
def programOf (name : String) (d : Declared) (r : Reading) : Program :=
  ⟨name, r.vars, r.globals, r.strings, implicitFunction d.inits :: d.funcs⟩

theorem run_identifier (hr : r.rest = i :: rest) (hi : i.kind = .ident) :
    identifier.run r = .ok ((i.text, i.loc), { r with previous := some i, rest := rest }) := by
  obtain ⟨kind, text, value, loc, len⟩ := i
  obtain ⟨source, previous, _, vars, globals, scope, strings⟩ := r
  obtain rfl : kind = .ident := hi
  obtain rfl := hr
  rfl

theorem exists_ident_of_run {x : String × Nat} (h : identifier.run r = .ok (x, last)) :
    ∃ i rest, r.rest = i :: rest ∧ i.kind = .ident := by
  obtain ⟨source, previous, rest, vars, globals, scope, strings⟩ := r
  cases rest with
  | nil => cases h
  | cons i rest =>
    refine ⟨i, rest, rfl, ?_⟩
    obtain ⟨kind, text, value, loc, len⟩ := i
    cases kind with
    | ident => rfl
    | _ => cases h

/-- A package is **its name, and round by round** what it declares. -/
theorem run_package_eq_ok_iff : package.run r = .ok (p, last) ↔
    ∃ t i rest d, r.rest = t :: i :: rest ∧ t.is "package" = true ∧ i.kind = .ident ∧
      (iterate packageRound ⟨[], []⟩).run { r with previous := some i, rest := rest } =
        .ok (d, last) ∧ p = programOf i.text d last := by
  constructor
  · intro h
    rw [package, StateT.run_bind] at h
    obtain ⟨⟨loc, r₁⟩, hexpect, h⟩ := bind_eq_ok_iff.mp h
    obtain ⟨t, rest, hr, ht⟩ : ∃ t rest, r.rest = t :: rest ∧ t.is "package" = true := by
      obtain ⟨taken, hrest, ⟨t, rfl, ht⟩, -⟩ := spans_expect (r := r) loc r₁ hexpect
      exact ⟨t, r₁.rest, hrest, ht⟩
    cases (run_expect hr ht).symm.trans hexpect
    rw [StateT.run_bind] at h
    obtain ⟨⟨x, r₂⟩, hident, h⟩ := bind_eq_ok_iff.mp h
    obtain ⟨i, rest, rfl, hi⟩ := exists_ident_of_run hident
    cases (run_identifier rfl hi).symm.trans hident
    rw [StateT.run_bind] at h
    obtain ⟨⟨d, r₃⟩, hrounds, h⟩ := bind_eq_ok_iff.mp h
    cases h
    exact ⟨t, i, rest, d, hr, ht, hi, hrounds, rfl⟩
  · rintro ⟨t, i, rest, d, hr, ht, hi, hrounds, rfl⟩
    rw [package, run_bind_of_ok (run_expect hr ht), run_bind_of_ok (run_identifier rfl hi),
      run_bind_of_ok hrounds]
    rfl

end Heading

end StackCompiler.Grammar
