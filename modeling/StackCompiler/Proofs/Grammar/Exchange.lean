import StackCompiler.Proofs.Grammar.Abreast
import StackCompiler.Proofs.Stretches

/-!
# Proofs/Grammar/Exchange — two functions that change places

Where two functions that stand one behind the other change places, each is read as it was but for the
numbers of its variables: the one comes to the stretch of the arena **behind that of the other**, and
the other moves up.  All that is read before them and behind them stays as it was.
-/

namespace StackCompiler

/-! ## Numbers that are named -/

section Names

variable {vars : List Variable} {strings first last : Nat} {n m : Numbering}

/-- A tree that has been read names **variables of the arena** alone. -/
theorem Expr.ReadRule.names {own : VarId → Prop} {e : Expr} (h : e.ReadRule vars strings own) :
    e.Names (· < vars.length) := by
  cases e with
  | var id ty loc =>
    obtain ⟨v, hv, -⟩ := h.2
    exact (List.getElem?_eq_some_iff.mp hv).1
  | _ => trivial

theorem Expr.Names.mono {known known' : VarId → Prop} {e : Expr} (h : e.Names known)
    (hknown : ∀ id, known id → known' id) : e.Names known' := by
  cases e with
  | var id ty loc => exact hknown id h
  | _ => trivial

theorem Stmt.numbered_eq_of_read {own : VarId → Prop} {st : Stmt}
    (h : st.Everywhere (Expr.ReadRule vars strings own) Stmt.ReadRule)
    (hvar : ∀ id < vars.length, n.var id = m.var id) (hstring : n.string = m.string) :
    st.numbered n = st.numbered m :=
  Stmt.numbered_congr hstring (h.mono (fun _ he => he.names.mono hvar) fun _ _ => trivial)

/-- Two numberings that agree **on the arena** number alike what has been read. -/
theorem Function.Read.numbered_eq {f : Function} (h : f.Read vars strings first last)
    (hvar : ∀ id < vars.length, n.var id = m.var id) (hstring : n.string = m.string) :
    f.numbered n = f.numbered m := by
  have hlocals : ∀ id ∈ f.locals, n.var id = m.var id := fun id hid =>
    hvar id ((h.locals id hid).1.2.trans_le h.last_le)
  exact Function.numbered_congr hstring (fun id hid => hlocals id (h.params.subset hid)) hlocals
    fun st hst => (h.body st hst).mono (fun _ he => he.names.mono hvar) fun _ _ => trivial

/-- Functions that name **numbers below the stretches** keep these numbers. -/
theorem ReadInTurn.map_numbered_eq {count second : Nat} {fs : List Function}
    (h : ReadInTurn vars strings first fs last) :
    fs.map (Function.numbered ⟨exchanged vars.length count second, id⟩) =
      fs.map Function.unplaced := by
  refine List.map_congr_left fun f hf => ?_
  obtain ⟨_, _, hread⟩ := h.exists_read hf
  exact hread.numbered_eq (fun _ hid => if_pos hid) rfl

end Names

/-! ## Arenas -/

/-- What stands in the two arenas at numbers that belong together is **the same but for a place**, and so
it is with what is added to them. -/
structure Matching (var var' : Nat → Nat) (vars vars' : List Variable) : Prop where
  same : ∀ i j, var i = var' j → SameVariable vars[i]? vars'[j]?
  fresh : ∀ i j, var (vars.length + i) = var' (vars'.length + j) ↔ i = j

theorem getElem?_eq_of_prefix {α : Type} {l l' : List α} (h : l <+: l') {i : Nat}
    (hi : i < l.length) : l'[i]? = l[i]? := by
  obtain ⟨more, rfl⟩ := h
  exact List.getElem?_append_left hi

namespace Matching

variable {var var' : Nat → Nat} {vars vars' vars₁ vars₁' vars₂ vars₂' : List Variable}

theorem symm (h : Matching var var' vars vars') : Matching var' var vars' vars where
  same i j hij := (h.same j i hij.symm).symm
  fresh i j := ⟨fun hij => ((h.fresh j i).mp hij.symm).symm,
    fun hij => ((h.fresh j i).mpr hij.symm).symm⟩

theorem fresh_zero (h : Matching var var' vars vars') : var vars.length = var' vars'.length :=
  (h.fresh 0 0).mpr rfl

/-- The one arena has grown: what comes to the other one **belongs behind that**. -/
theorem shifted (h : Matching id id vars vars') (hvars : vars <+: vars₁) :
    Matching id (shifted vars'.length (vars₁.length - vars.length)) vars₁ vars' := by
  have hlen : vars.length = vars'.length := h.fresh_zero
  have hle := hvars.length_le
  constructor
  · rintro _ j rfl
    rcases lt_or_ge j vars'.length with hlt | hge
    · rw [shifted_of_lt hlt, getElem?_eq_of_prefix hvars (hlen ▸ hlt)]
      exact h.same j j rfl
    · rw [shifted_of_le hge, List.getElem?_eq_none hge, List.getElem?_eq_none (by omega)]
  · intro i j
    rw [shifted_of_le (Nat.le_add_right _ _), id_eq]
    omega

/-- Each of the two arenas has grown by both functions, **the one in the one order and the other in the
other**. -/
theorem exchanged (h : Matching id id vars vars') (hvars : vars <+: vars₁) (hvars' : vars' <+: vars₁')
    (hsecond :
      Matching id (StackCompiler.shifted vars'.length (vars₁.length - vars.length)) vars₂ vars₁')
    (hfirst :
      Matching (StackCompiler.shifted vars.length (vars₁'.length - vars'.length)) id vars₁ vars₂')
    (hvars₁ : vars₁ <+: vars₂) (hvars₁' : vars₁' <+: vars₂') :
    Matching (StackCompiler.exchanged vars.length (vars₁.length - vars.length)
      (vars₁'.length - vars'.length)) id vars₂ vars₂' := by
  have hlen : vars.length = vars'.length := h.fresh_zero
  have hle := hvars.length_le
  have hle' := hvars'.length_le
  have hlen₂ : vars₂.length = vars₁'.length + (vars₁.length - vars.length) := by
    rw [← shifted_of_le hle']
    exact hsecond.fresh_zero
  have hlen₂' : vars₁.length + (vars₁'.length - vars'.length) = vars₂'.length := by
    rw [← shifted_of_le hle]
    exact hfirst.fresh_zero
  constructor
  · rintro i _ rfl
    rcases lt_or_ge i vars₁.length with hlt | hge
    · rw [exchanged_eq_shifted (by omega), getElem?_eq_of_prefix hvars₁ hlt]
      exact hfirst.same i _ rfl
    rcases lt_or_ge i vars₂.length with hlt₂ | hge₂
    · have hi : StackCompiler.exchanged vars.length (vars₁.length - vars.length)
          (vars₁'.length - vars'.length) i = i - (vars₁.length - vars.length) := by
        unfold StackCompiler.exchanged
        split_ifs <;> omega
      rw [hi, getElem?_eq_of_prefix hvars₁' (by omega)]
      exact hsecond.same i _ (by rw [shifted_of_le (by omega), id_eq]; omega)
    · have hi : StackCompiler.exchanged vars.length (vars₁.length - vars.length)
          (vars₁'.length - vars'.length) i = i := by
        unfold StackCompiler.exchanged
        split_ifs <;> omega
      rw [hi, List.getElem?_eq_none hge₂, List.getElem?_eq_none (by omega)]
  · intro i j
    have hi : StackCompiler.exchanged vars.length (vars₁.length - vars.length)
        (vars₁'.length - vars'.length) (vars₂.length + i) = vars₂.length + i := by
      unfold StackCompiler.exchanged
      split_ifs <;> omega
    rw [hi, id_eq]
    omega

end Matching

namespace Grammar

/-! ## One function -/

/-- The tokens are those of one function **by their braces**. -/
structure IsFunction (ts : List Token) : Prop where
  head : ∃ t rest, ts = t :: rest ∧ t.is "func" = true
  closing : closing? 0 ts = some []

/-- From a package that stands as it should **a function has been read**. -/
structure Stands.Reads (c : CutSource) (d : Declared) (r : Reading) (f : Function) (r' : Reading) :
    Prop where
  run : (function (d.funcs.map (·.name))).run r = .ok (f, r')
  stands : Stands c { d with funcs := d.funcs ++ [f] } r'
  vars : r.vars <+: r'.vars
  strings : r.strings <+: r'.strings
  globals : r'.globals = r.globals
  name : f.name ∉ d.funcs.map (·.name)
  read : f.Read r'.vars r'.strings.length r.vars.length r'.vars.length

section Functions

variable {c c' : CutSource} {d d' : Declared} {r r₁ r' : Reading} {f : Function}
  {stretch stretch' behind behind' : List Token} {strings : List String}

/-- Which names are taken **matters only if it is one of them**. -/
theorem run_function_taken {taken taken' : List String} (hrun : (function taken).run r = .ok (f, r₁))
    (hname : f.name ∉ taken') : (function taken').run r = .ok (f, r₁) := by
  rw [function, StateT.run_bind] at hrun
  obtain ⟨⟨loc, r₂⟩, hexpect, hrun⟩ := bind_eq_ok_iff.mp hrun
  rw [StateT.run_bind] at hrun
  obtain ⟨⟨⟨name, nameLoc⟩, r₃⟩, hident, hrun⟩ := bind_eq_ok_iff.mp hrun
  rw [function, run_bind_of_ok hexpect, run_bind_of_ok hident]
  dsimp only at hrun ⊢
  split at hrun
  · cases hrun
  obtain rfl : f.name = name := by
    revert hrun
    refine (?_ : Ensures _ r₃ fun f _ => f.name = name) f r₁
    refine (ensures_bind _ _ _ _).mpr fun _ _ _ => (ensures_bind _ _ _ _).mpr fun _ _ _ => ?_
    refine (ensures_bind _ _ _ _).mpr fun _ _ _ => (ensures_bind _ _ _ _).mpr fun typed _ _ => ?_
    dsimp only
    split <;> simp only [ensures_bind, ensures_get, ensures_modify, ensures_pure]
    · exact fun _ _ _ _ _ _ => trivial
    · exact fun _ _ _ => trivial
  rw [if_neg hname]
  exact hrun

theorem Stands.reads (h : Stands c d r) (hstretch : IsFunction stretch)
    (hrest : r.rest = stretch ++ behind)
    (hrun : (function (d.funcs.map (·.name))).run r = .ok (f, r₁)) : Stands.Reads c d r f r₁ := by
  obtain ⟨t, rest, rfl, ht⟩ := hstretch.head
  have hround : (packageRound d).run r = .ok (.again { d with funcs := d.funcs ++ [f] }, r₁) := by
    rw [run_packageRound_function hrest ht, run_bind_of_ok hrun]
    rfl
  obtain ⟨⟨-, -, hvars, hstrings, hglobals⟩, ⟨hname, -⟩, hread, -⟩ :=
    ensures_function _ h.read.sound f r₁ hrun
  exact ⟨hrun, (h.again hround).2, hvars, hstrings, hglobals, hname, hread⟩

theorem Stands.Reads.rounds (h : Stands.Reads c d r f r₁) (hstands : Stands c d r)
    (hstretch : IsFunction stretch) (hrest : r.rest = stretch ++ behind) {a : Declared}
    {last : Reading} (hrounds : Rounds packageRound { d with funcs := d.funcs ++ [f] } r₁ a last) :
    Rounds packageRound d r a last := by
  obtain ⟨t, rest, rfl, ht⟩ := hstretch.head
  have hround : (packageRound d).run r = .ok (.again { d with funcs := d.funcs ++ [f] }, r₁) := by
    rw [run_packageRound_function hrest ht, run_bind_of_ok h.run]
    rfl
  exact .again hround (hstands.again hround).1 hrounds

theorem Stands.globals_lt (h : Stands c d r) : ∀ id ∈ r.globals, id < r.vars.length := fun id hid =>
  h.placed.visible id (List.mem_append_right _ hid)

/-- **A function is read on both sides**, wherever it comes to in the arenas. -/
theorem Stands.Reads.exists_beside {var var' : Nat → Nat} (h : Stands.Reads c d r f r₁)
    (hstands : Stands c d r) (hstands' : Stands c' d' r') (hstretch : IsFunction stretch)
    (hstretch' : IsFunction stretch') (hrest : r.rest = stretch ++ behind)
    (hrest' : r'.rest = stretch' ++ behind')
    (hspaced : SpacedWithin c.source c'.source stretch stretch')
    (hmatching : Matching var var' r.vars r'.vars)
    (hglobals : r.globals.map var = r'.globals.map var') (hname : f.name ∉ d'.funcs.map (·.name))
    (hstrings' : r'.strings = strings) (hstrings : r₁.strings <+: strings) :
    ∃ f' r₁', Stands.Reads c' d' r' f' r₁' ∧ r₁.rest = behind ∧ r₁'.rest = behind' ∧
      r₁'.strings = strings ∧ f.numbered ⟨var, id⟩ = f'.numbered ⟨var', id⟩ ∧
      Matching var var' r₁.vars r₁'.vars := by
  have hmem {c : CutSource} {d : Declared} {r : Reading} {stretch behind : List Token}
      (h : Stands c d r) (hrest : r.rest = stretch ++ behind) : ∀ t ∈ stretch, t ∈ c.tokens :=
    fun t ht => h.placed.rest t (hrest ▸ List.mem_append_left _ ht)
  have hbeside : Reading.Beside (.ofNumbers c c' var var') (r.window stretch strings)
      (r'.window stretch' strings) :=
    { left := ⟨hstands.placed.source, hmem hstands hrest⟩
      right := ⟨hstands'.placed.source, hmem hstands' hrest'⟩
      previous := rfl
      spaced := hspaced
      vars := hmatching.same
      fresh := hmatching.fresh
      globals := hglobals
      scope := by
        change Meets _ _ r.scope r'.scope
        rw [hstands.read.scope, hstands'.read.scope]
        rfl
      strings := rfl }
  obtain ⟨f', r₁', hrun', hend, hend', hstrings₁, hf, hbeside₁⟩ :=
    exists_function_beside rfl (fun _ => Iff.rfl) hstands.placed hstands'.placed hstretch.closing hrest
      hrest' hstrings' hbeside (run_function_taken h.run hname) hstrings
  exact ⟨f', r₁', hstands'.reads hstretch' hrest' hrun', hend, hend', hstrings₁, hf,
    hbeside₁.vars, hbeside₁.fresh⟩

end Functions

/-! ## Separators -/

section Separators

variable {c : CutSource} {d a : Declared} {r last : Reading} {separators rest : List Token}

theorem run_packageRound_separator {t : Token} (hr : r.rest = t :: rest) (ht : t.is ";" = true)
    (d : Declared) : (packageRound d).run r =
      .ok (.again d, { r with previous := some t, rest := rest }) := by
  rw [packageRound, run_bind_of_ok (run_accept hr ht)]
  rfl

/-- Semicolons between declarations are passed over, and **nothing else happens**. -/
theorem Stands.exists_behind (h : Stands c d r) (hseparators : ∀ t ∈ separators, t.is ";" = true)
    (hrest : r.rest = separators ++ rest) :
    ∃ r', r'.rest = rest ∧ r.SameTables r' ∧ Stands c d r' ∧
      ∀ a last, Rounds packageRound d r a last ↔ Rounds packageRound d r' a last := by
  induction separators generalizing r with
  | nil => exact ⟨r, hrest, ⟨rfl, rfl, rfl, rfl⟩, h, fun _ _ => Iff.rfl⟩
  | cons t separators ih =>
    obtain ⟨ht, hseparators⟩ := List.forall_mem_cons.mp hseparators
    have hround := run_packageRound_separator hrest ht d
    obtain ⟨hlt, hstands⟩ := h.again hround
    obtain ⟨r', hrest', hsame, hstands', hrounds⟩ := ih hstands hseparators rfl
    refine ⟨r', hrest', ⟨hsame.vars, hsame.globals, hsame.strings, hsame.scope⟩, hstands',
      fun a last => ⟨fun hrun => (hrounds a last).mp ?_, fun hrun =>
        .again hround hlt ((hrounds a last).mpr hrun)⟩⟩
    cases hrun with
    | done hdone => cases hround.symm.trans hdone
    | again hagain _ hrun =>
      cases hround.symm.trans hagain
      exact hrun

end Separators

end Grammar

/-! ## The package -/

/-- The parts of a source are two functions with nothing but semicolons between them, and what stands
before and behind these. -/
structure Parts.Sound (ts : Parts Token) : Prop where
  isFirst : Grammar.IsFunction ts.first
  isSecond : Grammar.IsFunction ts.second
  between : ∀ t ∈ ts.between, t.is ";" = true
  /-- The source does not end before the functions. -/
  unended : ∀ t ∈ ts.front, t.kind ≠ .eof

theorem Parts.Sound.exchanged {ts : Parts Token} (h : ts.Sound) : ts.exchanged.Sound :=
  ⟨h.isSecond, h.isFirst, h.between, h.unended⟩

namespace Grammar

/-- The two sources are the same, but that **two functions have changed places**. -/
structure Exchanged (c c' : CutSource) (ts ts' : Parts Token) : Prop where
  tokens : c.tokens = ts.all
  tokens' : c'.tokens = ts'.exchanged.all
  sound : ts.Sound
  sound' : ts'.Sound
  front : SpacedWithin c.source c'.source (ts.front ++ look ts.first) (ts'.front ++ look ts'.second)
  first : SpacedWithin c.source c'.source ts.first ts'.first
  second : SpacedWithin c.source c'.source ts.second ts'.second
  back : SpacedWithin c.source c'.source ts.back ts'.back

end Grammar

end StackCompiler
