import StackCompiler.Proofs.Token.Lexemes

/-!
# Proofs/Token/Refusals — which sources have no tokens

A scan goes from lexeme to lexeme.  It is stopped at the first place behind complete lexemes where the
rest of the source is barred: what stands before that place is a source with tokens of its own, and
**no place behind it is ever reached**.  Where no barred place is reached, the source has tokens.
-/

namespace StackCompiler

open Text

/-- A scan of the two texts comes to the place between them: the first is **complete lexemes**. -/
def Reached (before rest : List Char) : Prop :=
  ∃ ls, Lexemes rest before ls

section Reached

variable {before rest before' rest' : List Char} {cause cause' : Cause}

theorem Reached.tokenize_error (h : Reached before rest) (hbarred : Lexeme.Barred rest cause) :
    tokenize (before ++ rest) = .error ⟨cause, byteLength before⟩ :=
  h.elim fun _ h => h.tokenize_error hbarred

theorem Reached.exists_tokens (h : Reached before rest) : ∃ tokens, tokenize before = .ok tokens :=
  h.elim fun _ h => ⟨_, h.tokenize_eq⟩

/-- Behind a place that is reached a scan goes on, **to the end** or to a place where it is barred. -/
theorem Reached.goesOn (h : Reached before rest) :
    ∃ passed rest', rest = passed ++ rest' ∧ Reached (before ++ passed) rest' ∧
      (passed ≠ [] → ∃ l, Lexeme.Starts rest l) ∧ (rest' = [] ∨ ∃ cause, Lexeme.Barred rest' cause) := by
  obtain ⟨ls, h⟩ := h
  obtain ⟨passed, rest', ls', rfl, hpassed, hstop⟩ := exists_lexemes rest
  refine ⟨passed, rest', rfl, ⟨_, h.append hpassed⟩, fun hne => ?_, hstop⟩
  cases hpassed with
  | nil => exact absurd rfl hne
  | cons hl _ => exact ⟨_, _, _, List.append_assoc _ _ _, hl⟩

/-- There is **one place** at most that is reached and barred. -/
theorem Reached.eq_of_barred (h : Reached before rest) (hbarred : Lexeme.Barred rest cause)
    (h' : Reached before' rest') (hbarred' : Lexeme.Barred rest' cause')
    (hsource : before' ++ rest' = before ++ rest) : before' = before := by
  have herror := h'.tokenize_error hbarred'
  rw [hsource, h.tokenize_error hbarred] at herror
  have hoffset : byteLength before = byteLength before' :=
    congrArg Diagnostic.offset (Except.error.inj herror)
  exact (append_inj_of_byteLength hsource hoffset.symm).1

end Reached

/-- A scan is stopped at the place between the two texts: it comes to it and is barred there, so **no
lexeme starts there**; it was stopped at no place before, and comes to none behind. -/
structure Stops (before rest : List Char) (cause : Cause) : Prop where
  reached : Reached before rest
  barred : Lexeme.Barred rest cause
  none : ∀ l, ¬Lexeme.Starts rest l
  accepted : ∃ tokens, tokenize before = .ok tokens
  first : ∀ before' rest', before' ++ rest' = before ++ rest → Reached before' rest' →
    before' <+: before ∧ (before' ≠ before → ∃ l, Lexeme.Starts rest' l)

theorem Reached.stops {before rest : List Char} {cause : Cause} (h : Reached before rest)
    (hbarred : Lexeme.Barred rest cause) : Stops before rest cause := by
  refine ⟨h, hbarred, hbarred.not_starts, h.exists_tokens, fun before' rest' hsource h' => ?_⟩
  obtain ⟨passed, rest'', rfl, hreached, hstarts, hstop⟩ := h'.goesOn
  rw [← List.append_assoc] at hsource
  have hbefore : before' ++ passed = before := by
    rcases hstop with rfl | ⟨cause', hbarred'⟩
    · -- a source that is lexemes up to its end has tokens, and this one has none
      obtain ⟨tokens, htokens⟩ := hreached.exists_tokens
      rw [List.append_nil] at hsource
      rw [hsource, h.tokenize_error hbarred] at htokens
      cases htokens
    · exact h.eq_of_barred hbarred hreached hbarred' hsource
  refine ⟨⟨passed, hbefore⟩, fun hne => hstarts fun hnil => hne ?_⟩
  rw [← hbefore, hnil, List.append_nil]

/-- **A source is refused where its scan is first barred**, for that bar, and it has tokens if no place
that its scan comes to is barred. -/
theorem tokenize_refuses_iff (source : List Char) :
    (∀ d, tokenize source = .error d ↔
      ∃ before rest, source = before ++ rest ∧ d.offset = byteLength before ∧
        Stops before rest d.cause) ∧
    ((∃ tokens, tokenize source = .ok tokens) ↔
      ∀ before rest cause, source = before ++ rest → Reached before rest →
        ¬Lexeme.Barred rest cause) := by
  refine ⟨fun d => ⟨fun herror => ?_, ?_⟩, ?_, fun hnone => ?_⟩
  · obtain ⟨before, rest, ls, rfl, hls, rfl | ⟨cause, hbarred⟩⟩ := exists_lexemes source
    · rw [List.append_nil, hls.tokenize_eq] at herror
      cases herror
    · cases (hls.tokenize_error hbarred).symm.trans herror
      exact ⟨before, rest, rfl, rfl, Reached.stops ⟨ls, hls⟩ hbarred⟩
  · rintro ⟨before, rest, rfl, hoffset, hstops⟩
    rw [hstops.reached.tokenize_error hstops.barred, ← hoffset]
  · rintro ⟨tokens, htokens⟩ before rest cause rfl hreached hbarred
    cases (hreached.tokenize_error hbarred).symm.trans htokens
  · obtain ⟨before, rest, ls, rfl, hls, rfl | ⟨cause, hbarred⟩⟩ := exists_lexemes source
    · exact ⟨_, (List.append_nil before).symm ▸ hls.tokenize_eq⟩
    · exact absurd hbarred (hnone before rest cause rfl ⟨ls, hls⟩)

end StackCompiler
