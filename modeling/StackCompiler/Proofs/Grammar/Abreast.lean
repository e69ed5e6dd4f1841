import StackCompiler.Proofs.Grammar.Rounds
import StackCompiler.Proofs.Grammar.Unplaced

/-!
# Proofs/Grammar/Abreast — reading a stretch of two sources

Two sources may be alike in one stretch of tokens and have **anything behind it**.  Two readings that
have come to such a stretch make the same of it: each does what it would do if the stretch were all
there is, but for a look at what stands behind (`Abreast.round`, `exists_function_beside`).
-/

namespace StackCompiler.Grammar

/-! ## Stretches -/

/-- What is seen of the tokens behind a stretch: the first of them. -/
def look (behind : List Token) : List Token :=
  behind.head?.toList

/-- Behind the stretch **a function starts**, or nothing does. -/
def Cut (behind : List Token) : Prop :=
  ∀ t ∈ behind.head?, t.is "func" = true

section Stretches

variable {behind taken rest front : List Token}

theorem Cut.looksLike (h : Cut behind) (front : List Token) :
    LooksLike (front ++ behind) (front ++ look behind) := by
  cases behind with
  | nil => exact .refl _
  | cons t rest => exact looksLike_behind (h t rfl) (by decide) front rest []

/-- Tokens none of which starts a function **do not go beyond the stretch**. -/
theorem exists_front (hplain : ∀ t ∈ taken, t.is "func" = false) (hcut : Cut behind)
    (h : taken ++ rest = front ++ behind) :
    ∃ front', front = taken ++ front' ∧ rest = front' ++ behind := by
  rcases List.append_eq_append_iff.mp h with h | ⟨more, rfl, rfl⟩
  · exact h
  cases more with
  | nil => exact ⟨[], by simp, rfl⟩
  | cons t more =>
    have ht := hplain t (List.mem_append_right _ List.mem_cons_self)
    rw [hcut t rfl] at ht
    cases ht

/-- A round that starts inside of a stretch **ends inside of it**. -/
theorem OfRound.exists_front (htaken : OfRound taken) (hcut : Cut behind)
    (h : taken ++ rest = front ++ behind) (hne : behind = [] ∨ front ≠ []) :
    ∃ front', front = taken ++ front' ∧ rest = front' ++ behind := by
  rcases htaken with hplain | hfunction
  · exact Grammar.exists_front hplain hcut h
  have htail := hfunction.tail
  obtain ⟨first, tail, rfl, -⟩ := hfunction
  cases front with
  | nil =>
    obtain rfl := hne.resolve_right fun h => h rfl
    cases h
  | cons t front =>
    obtain ⟨rfl, htails⟩ := List.cons.inj h
    obtain ⟨front', rfl, rfl⟩ := Grammar.exists_front htail hcut htails
    exact ⟨front', rfl, rfl⟩

theorem closing?_append {depth : Nat} {ts : List Token} (h : closing? depth ts = some rest)
    (behind : List Token) : closing? depth (ts ++ behind) = some (rest ++ behind) := by
  induction ts generalizing depth with
  | nil => cases h
  | cons t ts ih =>
    rw [List.cons_append]
    unfold closing? at h ⊢
    split at h
    · next hopen => rw [if_pos hopen, ih h]
    next hopen =>
    rw [if_neg hopen]
    split at h
    · next hclose =>
      rw [if_pos hclose]
      split at h
      · next hdepth =>
        rw [if_pos hdepth, Option.some.inj h]
      · next hdepth => rw [if_neg hdepth, ih h]
    · next hclose => rw [if_neg hclose, ih h]

end Stretches

/-! ## Readings -/

/-- The reading **as if that were all** that is left, with that table of strings. -/
def Reading.window (r : Reading) (rest : List Token) (strings : List String) : Reading :=
  { r with previous := none, rest := rest, strings := strings }

theorem Reading.Placed.window {source : List Char} {tokens : List Token} {r : Reading}
    (h : r.Placed source tokens) {rest : List Token} (hrest : ∀ t ∈ rest, t ∈ tokens)
    (strings : List String) : (r.window rest strings).Placed source tokens :=
  ⟨h.source, hrest, nofun, h.visible, h.vars⟩

/-- What has been declared and the reading of it have **come about from the source**. -/
structure Stands (c : CutSource) (d : Declared) (r : Reading) : Prop where
  suffix : r.rest <:+ c.tokens
  placed : r.Placed c.source c.tokens
  declared : d.Placed c.tokens r.vars.length
  read : d.Read r

theorem not_stoppedAt_stalled (c : CutSource) :
    ¬StoppedAt c.source c.tokens (.broken .stalled) := by
  rintro (⟨d, hd, -⟩ | ⟨hd, -⟩) <;> cases hd

section Stands

variable {c : CutSource} {d d' : Declared} {r r' : Reading}

/-- A round goes on from what has come about, and **takes a token**. -/
theorem Stands.again (h : Stands c d r) (hrun : (packageRound d).run r = .ok (.again d', r')) :
    r'.rest.length < r.rest.length ∧ Stands c d' r' := by
  obtain ⟨hplaced, -, hlt, hdeclared⟩ :=
    (ends_packageRound c.covers.endsAtToken h.placed h.declared).1 _ _ hrun
  obtain ⟨taken, hrest, -⟩ := spans_packageRound d _ _ hrun
  have hsuffix : r'.rest <:+ c.tokens :=
    (List.suffix_append_of_suffix (List.suffix_refl _)).trans (hrest ▸ h.suffix)
  exact ⟨hlt, hsuffix, hplaced, hdeclared, ensures_packageRound h.read _ _ hrun⟩

/-- Behind the heading of a package **nothing has been declared**. -/
theorem stands_start {t i : Token} {rest : List Token} (h : c.tokens = t :: i :: rest)
    (strings : List String) : Stands c ⟨[], []⟩
      { Reading.start c.source c.tokens with previous := some i, rest := rest, strings := strings } where
  suffix := ⟨[t, i], h.symm⟩
  placed :=
    { source := rfl
      rest := fun u hu => h ▸ List.mem_cons_of_mem t (List.mem_cons_of_mem i hu)
      previous := by
        rintro _ ⟨⟩
        exact h ▸ List.mem_cons_of_mem t List.mem_cons_self
      visible := fun _ hid => absurd hid List.not_mem_nil
      vars := fun _ hv => absurd hv List.not_mem_nil }
  declared := ⟨fun _ hf => absurd hf List.not_mem_nil, fun _ hs => absurd hs List.not_mem_nil⟩
  read := Declared.read_start
    { Reading.sound_start c.source c.tokens with named := ⟨nofun, nofun, nofun⟩ } rfl rfl

theorem Stands.not_stalled (h : Stands c d r) {rest : List Token} (hrest : ∀ t ∈ rest, t ∈ c.tokens)
    (strings : List String) :
    (packageRound d).run (r.window rest strings) ≠ .error (.broken .stalled) := fun hrun =>
  not_stoppedAt_stalled c
    ((ends_packageRound c.covers.endsAtToken (h.placed.window hrest strings) h.declared).2 _ hrun)

theorem Stands.rounds (h : Stands c d r) {a : Declared}
    (hrun : (iterate packageRound d).run r = .ok (a, r')) : Rounds packageRound d r a r' :=
  rounds_of_run (I := Stands c) (fun _ _ _ _ hs hrun => (hs.again hrun)) h hrun

end Stands

/-- The strings of a reading are kept. -/
theorem Rounds.strings {d a : Declared} {r r' : Reading} (h : Rounds packageRound d r a r') :
    r.strings <+: r'.strings := by
  have hround {d : Declared} {o : Round Declared Declared} {r r' : Reading}
      (hrun : (packageRound d).run r = .ok (o, r')) : r.strings <+: r'.strings := by
    obtain ⟨-, -, -, hstrings, -⟩ := spans_packageRound d o r' hrun
    exact hstrings
  induction h with
  | done h => exact hround h
  | again h _ _ ih => exact (hround h).trans ih

/-! ## Side by side, stretch by stretch -/

/-- Two readings stand in front of **stretches that are alike**, with anything behind them.  The left
one is taken to have the strings `strings` already, as the right one has. -/
structure Abreast (w : Comparison) (strings : List String) (behind behind' : List Token)
    (before before' : List Function) (d d' : Declared) (r r' : Reading) : Prop where
  left : Stands w.left d r
  right : Stands w.right d' r'
  parts : ∃ front front', r.rest = front ++ behind ∧ r'.rest = front' ++ behind' ∧
    Reading.Beside w (r.window (front ++ look behind) strings)
      (r'.window (front' ++ look behind') strings)
  declared : w.Declarations before before' d d'
  strings : r'.strings = strings

section Abreast

variable {w : Comparison} {strings : List String} {behind behind' : List Token}
  {before before' : List Function} {d d' : Declared} {r r' : Reading}

/-- What one of two parsers comes to beside the other. -/
theorem InStep.exists_run {α β : Type} {R : α → β → Prop} {x : Parser α} {y : Parser β}
    (h : InStep w R x y) (hr : Reading.Beside w r r') {a : α} {r₁ : Reading}
    (hrun : x.run r = .ok (a, r₁)) :
    ∃ b r₁', y.run r' = .ok (b, r₁') ∧ R a b ∧ Reading.Beside w r₁ r₁' := by
  have hagree := h r r' hr
  rw [hrun] at hagree
  cases hrun' : y.run r' with
  | error failure =>
    rw [hrun'] at hagree
    exact hagree.elim
  | ok result =>
    rw [hrun'] at hagree
    exact ⟨result.1, result.2, rfl, hagree⟩

theorem Reading.Beside.anew (h : Reading.Beside w r r') :
    Reading.Beside w { r with previous := none } { r' with previous := none } where
  left := ⟨h.left.1, fun _ ht => h.left.mem ht⟩
  right := ⟨h.right.1, fun _ ht => h.right.mem ht⟩
  previous := rfl
  spaced := by
    have hspaced := h.spaced
    have hprevious := h.previous
    cases hp : r.previous <;> cases hp' : r'.previous <;> rw [hp, hp'] at hspaced hprevious
    · exact hspaced
    · cases hprevious
    · cases hprevious
    · exact hspaced.2.2
  vars := h.vars
  fresh := h.fresh
  globals := h.globals
  scope := h.scope
  strings := h.strings

/-- **A round inside of a stretch** is made on both sides. -/
theorem Abreast.round (h : Abreast w strings behind behind' before before' d d' r r')
    (htables : w.Tables = Eq) (hcut : Cut behind) (hcut' : Cut behind')
    (hlook : (look behind).length = (look behind').length)
    (hbefore : ∀ name, name ∈ before.map (·.name) ↔ name ∈ before'.map (·.name))
    {d₁ : Declared} {r₁ : Reading} (hrun : (packageRound d).run r = .ok (.again d₁, r₁))
    (hstrings : r₁.strings <+: strings) (hne : behind = [] ∨ r.rest ≠ behind) :
    ∃ d₁' r₁', (packageRound d').run r' = .ok (.again d₁', r₁') ∧
      Abreast w strings behind behind' before before' d₁ d₁' r₁ r₁' := by
  obtain ⟨front, front', hrest, hrest', hbeside⟩ := h.parts
  -- the left reading stays inside of the stretch, and so it would read the stretch alone alike
  obtain ⟨taken, htaken, hround, -, hcomes⟩ :=
    spans_packageRound d _ _ (run_packageRound_anew hrun none)
  have hne' : behind = [] ∨ front ≠ [] := hne.imp_right fun h hnil => h (by rw [hrest, hnil]; rfl)
  obtain ⟨front₁, rfl, hrest₁⟩ :=
    hround.exists_front hcut (htaken.symm.trans hrest) hne'
  have hwindow := (hcomes (front₁ ++ look behind) strings (hrest₁ ▸ hcut.looksLike front₁)
    hstrings).resolve_left (h.left.not_stalled (fun t ht => ?_) strings)
  swap
  · rw [← List.append_assoc] at ht
    exact hbeside.left.mem ht
  rw [List.append_assoc] at hbeside
  -- so does the right one, beside it
  obtain ⟨o, r₂, hrun', ho, hbeside'⟩ :=
    (inStep_packageRound hbefore h.declared).exists_run hbeside hwindow
  cases ho with
  | again hd₁ =>
  next d₁' =>
  have hstrings₂ : r₂.strings = strings := by
    have := hbeside'.strings
    rw [htables] at this
    exact this.symm
  obtain ⟨taken', htaken', -, -, hcomes'⟩ := spans_packageRound d' _ _ hrun'
  have hlength : r₂.rest.length = front₁.length + (look behind').length := by
    have := hbeside'.rest.length_eq
    rw [← hlook, ← List.length_append]
    exact this.symm
  have hsplit : front' ++ look behind' = taken' ++ r₂.rest := htaken'
  obtain ⟨front₁', hrest₂⟩ : look behind' <:+ r₂.rest :=
    List.suffix_of_suffix_length_le (List.suffix_append front' _)
      (hsplit ▸ List.suffix_append taken' r₂.rest) (by omega)
  obtain rfl : front' = taken' ++ front₁' := by
    rw [← hrest₂, ← List.append_assoc] at hsplit
    exact List.append_cancel_right hsplit
  have hreal := (hcomes' (front₁' ++ behind') strings (hrest₂ ▸ (hcut'.looksLike front₁').symm)
    (hstrings₂ ▸ List.prefix_rfl)).resolve_left (h.right.not_stalled (fun t ht => ?_) strings)
  swap
  · rw [← List.append_assoc, ← hrest'] at ht
    exact h.right.placed.rest t ht
  have hsame : (r'.window (taken' ++ front₁' ++ look behind') strings).before
      (taken' ++ (front₁' ++ behind')) strings = { r' with previous := none } := by
    rw [← List.append_assoc, ← hrest', ← h.strings]
    rfl
  rw [hsame] at hreal
  have hdone := run_packageRound_anew hreal r'.previous
  have hstop : r₂ = r₂.before (front₁' ++ look behind') strings := by
    rw [hrest₂, ← hstrings₂]
    rfl
  rw [hstop] at hbeside'
  exact ⟨d₁', _, hdone, (h.left.again hrun).2, (h.right.again hdone).2,
    ⟨front₁, front₁', hrest₁, rfl, hbeside'.anew⟩, hd₁, rfl⟩

/-- Two readings abreast go on **up to the end of the stretch**, or of the sources. -/
theorem Abreast.reaches {Q : Declared → Reading → Prop} (htables : w.Tables = Eq)
    (hcut : Cut behind) (hcut' : Cut behind')
    (hlook : (look behind).length = (look behind').length)
    (hbefore : ∀ name, name ∈ before.map (·.name) ↔ name ∈ before'.map (·.name))
    {a : Declared} {last : Reading} (hstrings : last.strings <+: strings)
    (hstop : ∀ d d' r r', Abreast w strings behind behind' before before' d d' r r' →
      Rounds packageRound d r a last →
      (behind ≠ [] ∧ r.rest = behind ∨ (packageRound d).run r = .ok (.done a, last)) →
      ∃ a' last', Rounds packageRound d' r' a' last' ∧ Q a' last')
    (h : Abreast w strings behind behind' before before' d d' r r')
    (hrun : Rounds packageRound d r a last) :
    ∃ a' last', Rounds packageRound d' r' a' last' ∧ Q a' last' := by
  induction hrun generalizing d' r' with
  | done hdone => exact hstop _ _ _ _ h (.done hdone) (.inr hdone)
  | @again d d₁ r r₁ last a hagain hlt hrest ih =>
    by_cases hend : behind ≠ [] ∧ r.rest = behind
    · exact hstop _ _ _ _ h (.again hagain hlt hrest) (.inl hend)
    have hne := not_and_or.mp hend
    rw [not_not] at hne
    obtain ⟨d₁', r₁', hrun', habreast⟩ := h.round htables hcut hcut' hlook hbefore hagain
      (hrest.strings.trans hstrings) hne
    obtain ⟨a', last', hrounds, hQ⟩ := ih hstrings hstop habreast
    exact ⟨a', last', .again hrun' (h.right.again hrun').1 hrounds, hQ⟩

/-- Two readings abreast **come to the end** of the sources. -/
theorem Abreast.finishes (htables : w.Tables = Eq)
    (hbefore : ∀ name, name ∈ before.map (·.name) ↔ name ∈ before'.map (·.name))
    {a : Declared} {last : Reading} (hstrings : last.strings <+: strings)
    (h : Abreast w strings [] [] before before' d d' r r') (hrun : Rounds packageRound d r a last) :
    ∃ a' last', Rounds packageRound d' r' a' last' ∧
      Abreast w strings [] [] before before' a a' last last' := by
  have hcut : Cut [] := nofun
  refine h.reaches htables hcut hcut rfl hbefore hstrings (fun d d' r r' h _ hstop => ?_) hrun
  obtain ⟨hend, rfl, rfl⟩ := run_packageRound_done_iff.mp (hstop.resolve_left fun hne => hne.1 rfl)
  refine ⟨d', r', .done (run_packageRound_done_iff.mpr ⟨?_, rfl, rfl⟩), h⟩
  obtain ⟨front, front', hrest, hrest', hbeside⟩ := h.parts
  have hhead := hbeside.head?
  change Option.Rel _ (front ++ []).head? (front' ++ []).head? at hhead
  rw [← hrest, ← hrest'] at hhead
  cases hr : last.rest.head? <;> cases hr' : r'.rest.head? <;> rw [hr, hr'] at hhead
  · rfl
  · cases hhead
  · rfl
  · rw [hr] at hend
    cases hhead with
    | some ht => exact (congrArg (· == Token.Kind.eof) ht.kind).symm.trans hend

/-- **The braces tell** where a function ends. -/
theorem rest_of_function {taken : List String} {f : Function} {r₁ : Reading} {stretch : List Token}
    (hclosing : closing? 0 stretch = some []) (hrest : r.rest = stretch ++ behind)
    (hrun : (function taken).run r = .ok (f, r₁)) : r₁.rest = behind := by
  obtain ⟨tokens, htokens, hfunction, -⟩ := spans_function taken f r₁ hrun
  have hboth := hfunction.closing? r₁.rest
  rw [← htokens, hrest, closing?_append hclosing, List.nil_append] at hboth
  exact (Option.some.inj hboth).symm

/-- A function is read alike **wherever its tokens stand**. -/
theorem run_function_elsewhere {c : CutSource} {taken : List String} {f : Function} {r₁ : Reading}
    (hr : r.Placed c.source c.tokens) (hrun : (function taken).run r = .ok (f, r₁))
    (hstrings : r₁.strings <+: strings) : ∃ stretch, r.rest = stretch ++ r₁.rest ∧
      OfFunction stretch ∧ ∀ (previous : Option Token) (rest : List Token),
        (∀ t ∈ rest, t ∈ c.tokens) →
        (function taken).run
            { r with previous := previous, rest := stretch ++ rest, strings := strings } =
          .ok (f, r₁.before rest strings) := by
  obtain ⟨_, hhead, hfunction, -⟩ := spans_function taken f r₁ hrun
  obtain ⟨first, tail, rfl, hfirst, -⟩ := hfunction
  obtain ⟨stretch, hstretch, hfunction, -, hcomes⟩ :=
    spans_function taken f r₁ ((run_function_anew taken hhead hfirst none).trans hrun)
  refine ⟨stretch, hstretch, hfunction, fun previous rest hrest => ?_⟩
  have hmem : ∀ t ∈ stretch ++ rest, t ∈ c.tokens := fun t ht =>
    (List.mem_append.mp ht).elim
      (fun ht => hr.rest t (hstretch ▸ List.mem_append_left _ ht)) (hrest t)
  have hwindow := (hcomes rest strings trivial hstrings).resolve_left fun hstalled =>
    not_stoppedAt_stalled c ((takes_function c.covers.endsAtToken taken _ (hr.window hmem strings)
      (Nat.lt_succ_self _)).2 _ hstalled)
  obtain ⟨first, tail, rfl, hfirst, -⟩ := hfunction
  exact (run_function_anew (r := r.window (first :: tail ++ rest) strings) taken rfl hfirst
    previous).trans hwindow

/-- **A function** is read on both sides, whatever stands behind it. -/
theorem exists_function_beside (htables : w.Tables = Eq) {taken taken' : List String}
    (htaken : ∀ name, name ∈ taken ↔ name ∈ taken') (hleft : r.Placed w.left.source w.left.tokens)
    (hright : r'.Placed w.right.source w.right.tokens) {stretch stretch' : List Token}
    (hclosing : closing? 0 stretch = some []) (hrest : r.rest = stretch ++ behind)
    (hrest' : r'.rest = stretch' ++ behind') (hstrings' : r'.strings = strings)
    (hbeside : Reading.Beside w (r.window stretch strings) (r'.window stretch' strings))
    {f : Function} {r₁ : Reading} (hrun : (function taken).run r = .ok (f, r₁))
    (hstrings : r₁.strings <+: strings) :
    ∃ f' r₁', (function taken').run r' = .ok (f', r₁') ∧ r₁.rest = behind ∧ r₁'.rest = behind' ∧
      r₁'.strings = strings ∧ w.Functions f f' ∧
      Reading.Beside w (r₁.window [] strings) (r₁'.window [] strings) := by
  have hnil {c : CutSource} : ∀ t ∈ ([] : List Token), t ∈ c.tokens :=
    fun _ ht => absurd ht List.not_mem_nil
  -- the left reading takes the whole stretch, and would read the stretch alone alike
  obtain ⟨tokens, htokens, hfunction, hleftRun⟩ := run_function_elsewhere hleft hrun hstrings
  obtain rfl := rest_of_function hclosing hrest hrun
  obtain rfl : stretch = tokens := List.append_cancel_right (hrest.symm.trans htokens)
  have hwindow := hleftRun none [] hnil
  rw [List.append_nil] at hwindow
  -- so does the right one, beside it
  obtain ⟨f', r₂, hrun', hf, hbeside'⟩ := (inStep_function htaken).exists_run hbeside hwindow
  have hstrings₂ : r₂.strings = strings := by
    have := hbeside'.strings
    rw [htables] at this
    exact this.symm
  have hend : r₂.rest = [] := List.forall₂_nil_left_iff.mp hbeside'.rest
  have hplaced : (r'.window stretch' strings).Placed w.right.source w.right.tokens :=
    hright.window (fun t ht => hright.rest t (hrest' ▸ List.mem_append_left _ ht)) strings
  obtain ⟨tokens', htokens', -, hrightRun⟩ :=
    run_function_elsewhere hplaced hrun' (hstrings₂.symm ▸ List.prefix_rfl : r₂.strings <+: strings)
  rw [hend, List.append_nil] at htokens'
  obtain rfl : stretch' = tokens' := htokens'
  have hreal := hrightRun r'.previous behind' fun t ht =>
    hright.rest t (hrest' ▸ List.mem_append_right _ ht)
  have hsame : r'.before (stretch' ++ behind') strings = r' := by
    rw [← hrest', ← hstrings']
    rfl
  have hstop : r₂ = r₂.before [] strings := by
    rw [← hend, ← hstrings₂]
    rfl
  rw [hstop] at hbeside'
  exact ⟨f', _, (congrArg (function taken').run hsame).symm.trans hreal, rfl, rfl, rfl, hf,
    hbeside'.anew⟩

end Abreast

end StackCompiler.Grammar
