import StackCompiler.Proofs.Grammar.Exchange

/-!
# Proofs/Grammar/Neighbours — a package with two functions in the other order

A package in which two neighbouring functions have changed places is read **as it was but for the
numbers** of variables and strings: all that is read before the functions and behind them stays as it
was, and what is read of them changes places.
-/

namespace StackCompiler.Grammar

section Parts

variable {c c' : CutSource} {ts ts' : Parts Token} {d d' a : Declared} {r r' last : Reading}
  {stretch behind : List Token} {f g : Function} {r₁ r₂ r₃ : Reading} {strings : List String}

theorem IsFunction.look_append (h : IsFunction stretch) (behind : List Token) :
    look (stretch ++ behind) = look stretch := by
  obtain ⟨t, rest, rfl, -⟩ := h.head
  rfl

theorem IsFunction.length_look (h : IsFunction stretch) : (look stretch).length = 1 := by
  obtain ⟨t, rest, rfl, -⟩ := h.head
  rfl

theorem IsFunction.cut (h : IsFunction stretch) (behind : List Token) : Cut (stretch ++ behind) := by
  obtain ⟨t, rest, rfl, ht⟩ := h.head
  rintro _ ⟨⟩
  exact ht

/-- Statements that name **numbers below the stretches** keep these numbers. -/
theorem map_numbered_eq_of_read {vars : List Variable} {strings first second : Nat}
    {own : VarId → Prop} {stmts : List Stmt}
    (h : ∀ st ∈ stmts, st.Everywhere (Expr.ReadRule vars strings own) Stmt.ReadRule) :
    stmts.map (Stmt.numbered ⟨exchanged vars.length first second, id⟩) =
      stmts.map (Stmt.numbered .same) :=
  List.map_congr_left fun st hst => Stmt.numbered_eq_of_read (h st hst)
    (fun _ hid => if_pos hid) rfl

/-! ## Two functions -/

/-- From a package that stands as it should **two functions have been read**, one behind the other. -/
structure Stands.ReadsBoth (c : CutSource) (d : Declared) (r : Reading) (f g : Function)
    (r₁ r₂ r₃ : Reading) : Prop where
  first : Stands.Reads c d r f r₁
  between : r₁.SameTables r₂
  passes : ∀ a last, Rounds packageRound { d with funcs := d.funcs ++ [f] } r₁ a last ↔
    Rounds packageRound { d with funcs := d.funcs ++ [f] } r₂ a last
  stands : Stands c { d with funcs := d.funcs ++ [f] } r₂
  second : Stands.Reads c { d with funcs := d.funcs ++ [f] } r₂ g r₃

/-- Where two functions come next, **both are read**, and the package goes on behind them. -/
theorem Stands.exists_readsBoth (hstands : Stands c d r) (hts : ts.Sound)
    (hrest : r.rest = ts.first ++ (ts.between ++ (ts.second ++ ts.back)))
    (hrounds : Rounds packageRound d r a last) :
    ∃ f g r₁ r₂ r₃, Stands.ReadsBoth c d r f g r₁ r₂ r₃ ∧ r₂.rest = ts.second ++ ts.back ∧
      r₃.rest = ts.back ∧ Rounds packageRound { d with funcs := d.funcs ++ [f] ++ [g] } r₃ a last := by
  obtain ⟨t, rest, hfirst, ht⟩ := hts.isFirst.head
  obtain ⟨f, r₁, hf, hrounds₁⟩ := hrounds.function (hrest.trans (by rw [hfirst]; rfl)) ht
  have hF := hstands.reads hts.isFirst hrest hf
  have hrest₁ := rest_of_function hts.isFirst.closing hrest hf
  obtain ⟨r₂, hrest₂, hsame, hstands₂, hiff⟩ := hF.stands.exists_behind hts.between hrest₁
  obtain ⟨u, rest, hsecond, hu⟩ := hts.isSecond.head
  obtain ⟨g, r₃, hg, hrounds₃⟩ :=
    ((hiff a last).mp hrounds₁).function (hrest₂.trans (by rw [hsecond]; rfl)) hu
  exact ⟨f, g, r₁, r₂, r₃,
    ⟨hF, hsame, hiff, hstands₂, hstands₂.reads hts.isSecond hrest₂ hg⟩, hrest₂,
    rest_of_function hts.isSecond.closing hrest₂ hg, hrounds₃⟩

theorem Stands.ReadsBoth.rounds (h : Stands.ReadsBoth c d r f g r₁ r₂ r₃) (hts : ts.Sound)
    (hstands : Stands c d r)
    (hrest : r.rest = ts.first ++ (ts.between ++ (ts.second ++ ts.back)))
    (hrest₂ : r₂.rest = ts.second ++ ts.back)
    (hrounds : Rounds packageRound { d with funcs := d.funcs ++ [f] ++ [g] } r₃ a last) :
    Rounds packageRound d r a last :=
  h.first.rounds hstands hts.isFirst hrest <| (h.passes a last).mpr <|
    h.second.rounds h.stands hts.isSecond hrest₂ hrounds

/-- The numbers that variables get when the second of two functions **is read before the first**: each
of the two stretches of the arena is moved by the length of the other. -/
def Stands.ReadsBoth.numbering (_ : Stands.ReadsBoth c d r f g r₁ r₂ r₃) : Numbering :=
  ⟨exchangePerm r.vars.length (r₁.vars.length - r.vars.length) (r₃.vars.length - r₂.vars.length), id⟩

/-- The first function, whose stretch is **moved behind the second one's**, gets its new numbers. -/
theorem Stands.ReadsBoth.numbered_first (hboth : Stands.ReadsBoth c d r f g r₁ r₂ r₃) :
    f.numbered hboth.numbering =
      f.numbered ⟨shifted r.vars.length (r₃.vars.length - r₂.vars.length), id⟩ := by
  have hle : r.vars.length ≤ r₁.vars.length := hboth.first.vars.length_le
  refine hboth.first.read.numbered_eq (fun i hi => exchanged_eq_shifted ?_) rfl
  omega

/-- What the second function would be **behind the first one** is what it gets its new numbers from. -/
theorem Stands.ReadsBoth.unplaced_second (hboth : Stands.ReadsBoth c d r f g r₁ r₂ r₃) {g' : Function}
    {vars : List Variable} {strings first last : Nat} (hread : g'.Read vars strings first last)
    (hlen : vars.length = r.vars.length + (r₃.vars.length - r₂.vars.length))
    (hg : g.numbered ⟨id, id⟩ =
      g'.numbered ⟨shifted r.vars.length (r₁.vars.length - r.vars.length), id⟩) :
    g'.unplaced = g.numbered hboth.numbering := by
  have hback (i : VarId) (hi : i < vars.length) :
      (hboth.numbering.after ⟨shifted r.vars.length (r₁.vars.length - r.vars.length), id⟩).var i =
        Numbering.same.var i :=
    exchanged_shifted (hi.trans_eq hlen)
  calc g'.unplaced
    _ = g'.numbered (hboth.numbering.after ⟨shifted r.vars.length _, id⟩) :=
      (hread.numbered_eq hback rfl).symm
    _ = (g.numbered ⟨id, id⟩).numbered hboth.numbering := by rw [← Function.numbered_numbered, ← hg]
    _ = g.numbered hboth.numbering := Function.numbered_numbered _ _ g

/-- **The two functions are read in the other order**, each as it was but for its numbers. -/
theorem Stands.ReadsBoth.exists_exchanged (hboth : Stands.ReadsBoth c d r f g r₁ r₂ r₃)
    (h : Exchanged c c' ts ts') (hstands : Stands c d r) (hstands' : Stands c' d' r')
    (hrest : r.rest = ts.first ++ (ts.between ++ (ts.second ++ ts.back)))
    (hrest₂ : r₂.rest = ts.second ++ ts.back)
    (hrest' : r'.rest = ts'.second ++ (ts'.between ++ (ts'.first ++ ts'.back)))
    (hmatching : Matching id id r.vars r'.vars) (hglobals : r.globals = r'.globals)
    (hnames : ∀ name, name ∈ d.funcs.map (·.name) ↔ name ∈ d'.funcs.map (·.name))
    (hstrings' : r'.strings = strings) (hstrings : r₃.strings <+: strings) :
    ∃ f' g' r₁' r₂' r₃', Stands.ReadsBoth c' d' r' g' f' r₁' r₂' r₃' ∧
      r₂'.rest = ts'.first ++ ts'.back ∧ r₃'.rest = ts'.back ∧ r₃'.strings = strings ∧
      Matching hboth.numbering.var id r₃.vars r₃'.vars ∧
      g'.unplaced = g.numbered hboth.numbering ∧ f'.unplaced = f.numbered hboth.numbering := by
  have hlen : r.vars.length = r'.vars.length := hmatching.fresh_zero
  have hkept (count : Nat) : r.globals.map (shifted r.vars.length count) = r.globals :=
    (List.map_congr_left fun id hid => shifted_of_lt (hstands.globals_lt id hid)).trans (List.map_id _)
  have hglobals₂ : r₂.globals = r.globals := hboth.between.globals.trans hboth.first.globals
  have hvars₂ : r₂.vars = r₁.vars := hboth.between.vars
  have hname : g.name ∉ d.funcs.map (·.name) ∧ g.name ≠ f.name := by
    have := hboth.second.name
    rw [List.map_append, List.mem_append, not_or] at this
    exact ⟨this.1, fun h => this.2 (h ▸ List.mem_singleton_self _)⟩
  -- the second one comes to the stretch of the first
  have hmatching₂ : Matching id (shifted r.vars.length (r₁.vars.length - r.vars.length)) r₂.vars
      r'.vars := by
    have := hmatching.shifted hboth.first.vars
    rw [← hlen] at this
    rwa [hvars₂]
  obtain ⟨g', r₁', hG', -, hrest₁', hstrings₁', hg, hsecond⟩ :=
    hboth.second.exists_beside hboth.stands hstands' h.sound.isSecond h.sound'.isSecond hrest₂ hrest'
      h.second hmatching₂ (by rw [hglobals₂, ← hglobals, hkept, List.map_id])
      (fun h => hname.1 ((hnames _).mpr h)) hstrings' hstrings
  obtain ⟨r₂', hrest₂', hsame', hstands₂', hiff'⟩ := hG'.stands.exists_behind h.sound'.between hrest₁'
  have hvars₂' : r₂'.vars = r₁'.vars := hsame'.vars
  have hname' : f.name ∉ ({ d' with funcs := d'.funcs ++ [g'] } : Declared).funcs.map (·.name) := by
    have hg' : g.name = g'.name := (congrArg Function.name hg :)
    rw [List.map_append, List.mem_append, not_or]
    refine ⟨fun h => hboth.first.name ((hnames _).mpr h), fun h => hname.2 ?_⟩
    exact hg'.trans (List.mem_singleton.mp h).symm
  -- and the first one comes behind it
  have hmatching₂' : Matching (shifted r.vars.length (r₁'.vars.length - r'.vars.length)) id r.vars
      r₂'.vars := by
    rw [hvars₂']
    exact (hmatching.symm.shifted hG'.vars).symm
  have hstrings₁ : r₁.strings <+: strings :=
    (hboth.between.strings ▸ hboth.second.strings).trans hstrings
  obtain ⟨f', r₃', hF', -, hrest₃', hstrings₃', hf, hfirst⟩ :=
    hboth.first.exists_beside hstands hstands₂' h.sound.isFirst h.sound'.isFirst hrest hrest₂' h.first
      hmatching₂' (by rw [hkept, hsame'.globals, hG'.globals, ← hglobals, List.map_id]) hname'
      (hsame'.strings.trans hstrings₁') hstrings₁
  -- the stretches are as long as on the left
  have hcount : r₁'.vars.length - r'.vars.length = r₃.vars.length - r₂.vars.length := by
    have hle := hboth.first.vars.length_le
    have hle' := hG'.vars.length_le
    have hfresh : r₃.vars.length = shifted r.vars.length (r₁.vars.length - r.vars.length)
      r₁'.vars.length := hsecond.fresh_zero
    rw [shifted_of_le (by omega)] at hfresh
    rw [hvars₂]
    omega
  have hle' : r'.vars.length ≤ r₁'.vars.length := hG'.vars.length_le
  have hexchanged := hmatching.exchanged hboth.first.vars hG'.vars (hlen ▸ hsecond) hfirst
    (hvars₂ ▸ hboth.second.vars) (hvars₂' ▸ hF'.vars)
  rw [hcount] at hexchanged hf
  exact ⟨f', g', r₁', r₂', r₃', ⟨hG', hsame', hiff', hstands₂', hF'⟩, hrest₂', hrest₃', hstrings₃',
    hexchanged, hboth.unplaced_second hG'.read (by omega) hg, hf.symm.trans hboth.numbered_first.symm⟩

/-! ## What stands behind them -/

/-- Behind the two functions the readings are **abreast again**, under the numbers that they have come
to. -/
theorem Stands.ReadsBoth.abreast {f' g' : Function} {r₁' r₂' r₃' : Reading}
    (hboth : Stands.ReadsBoth c d r f g r₁ r₂ r₃) (hboth' : Stands.ReadsBoth c' d' r' g' f' r₁' r₂' r₃')
    (h : Exchanged c c' ts ts') (hstands : Stands c d r) (hglobals : r.globals = r'.globals)
    (hinits : d.inits.map (Stmt.numbered .same) = d'.inits.map (Stmt.numbered .same))
    (hrest : r₃.rest = ts.back) (hrest' : r₃'.rest = ts'.back) (hstrings : r₃'.strings = strings)
    (hmatching : Matching hboth.numbering.var id r₃.vars r₃'.vars) :
    Abreast (.ofNumbers c c' hboth.numbering.var id) strings [] [] (d.funcs ++ [f] ++ [g])
      (d'.funcs ++ [g'] ++ [f']) { d with funcs := d.funcs ++ [f] ++ [g] }
      { d' with funcs := d'.funcs ++ [g'] ++ [f'] } r₃ r₃' where
  left := hboth.second.stands
  right := hboth'.second.stands
  parts := by
    refine ⟨ts.back, ts'.back, hrest.trans (List.append_nil _).symm,
      hrest'.trans (List.append_nil _).symm, ?_⟩
    have hglobals₃ : r₃.globals = r.globals :=
      hboth.second.globals.trans (hboth.between.globals.trans hboth.first.globals)
    have hglobals₃' : r₃'.globals = r'.globals :=
      hboth'.second.globals.trans (hboth'.between.globals.trans hboth'.first.globals)
    have hkept : r.globals.map hboth.numbering.var = r.globals :=
      (List.map_congr_left fun id hid => if_pos (hstands.globals_lt id hid)).trans (List.map_id _)
    have hmem {c : CutSource} {d : Declared} {r : Reading} {back : List Token} (h : Stands c d r)
        (hrest : r.rest = back) : ∀ t ∈ back ++ look [], t ∈ c.tokens := fun t ht =>
      h.placed.rest t (hrest ▸ (List.append_nil back ▸ ht :))
    exact
      { left := ⟨hboth.second.stands.placed.source, hmem hboth.second.stands hrest⟩
        right := ⟨hboth'.second.stands.placed.source, hmem hboth'.second.stands hrest'⟩
        previous := rfl
        spaced := by
          change SpacedWithin c.source c'.source (ts.back ++ []) (ts'.back ++ [])
          rw [List.append_nil, List.append_nil]
          exact h.back
        vars := hmatching.same
        fresh := hmatching.fresh
        globals := by
          change r₃.globals.map hboth.numbering.var = r₃'.globals.map id
          rw [hglobals₃, hglobals₃', hkept, List.map_id, hglobals]
        scope := by
          change Meets _ _ r₃.scope r₃'.scope
          rw [hboth.second.stands.read.scope, hboth'.second.stands.read.scope]
          rfl
        strings := rfl }
  declared := ⟨⟨[], [], (List.append_nil _).symm, (List.append_nil _).symm, rfl⟩,
    (map_numbered_eq_of_read hstands.read.inits).trans hinits⟩
  strings := hstrings

/-- The programs of two packages that have been read to their ends **abreast, behind functions that
have changed places**. -/
theorem Stands.ReadsBoth.exchanged {f' g' : Function} {before : List Function}
    {a' : Declared} {last' : Reading} (hboth : Stands.ReadsBoth c d r f g r₁ r₂ r₃)
    (hstands : Stands c d r)
    (habreast : Abreast (.ofNumbers c c' hboth.numbering.var id) last.strings [] []
      (d.funcs ++ [f] ++ [g]) (before ++ [g'] ++ [f']) a a' last last')
    (hbefore : d.funcs.map Function.unplaced = before.map Function.unplaced)
    (hg : g'.unplaced = g.numbered hboth.numbering) (hf : f'.unplaced = f.numbered hboth.numbering)
    (name : String) :
    (programOf name a last).Exchanged hboth.numbering (programOf name a' last') := by
  obtain ⟨front, front', -, -, hbeside⟩ := habreast.parts
  obtain ⟨fs, fs', hfuncs, hfuncs', hfs⟩ := habreast.declared.funcs
  have hentry : hboth.numbering = ⟨hboth.numbering.var, id⟩ := rfl
  refine ⟨rfl, fun i => hbeside.vars i _ rfl, ?_, fun i => ?_, implicitFunction a.inits, d.funcs, f, g,
    fs, ?_, ?_⟩
  · have hglobals : last.globals.map hboth.numbering.var = last'.globals.map id := hbeside.globals
    exact (hglobals.trans (List.map_id _)).symm
  · change last'.strings[i]? = last.strings[i]?
    rw [habreast.strings]
  · rw [programOf, hfuncs]
    simp
  · have himplicit : (implicitFunction a'.inits).unplaced =
        (implicitFunction a.inits).numbered hboth.numbering :=
      (functions_implicit habreast.declared.inits).symm
    have hkept : d.funcs.map (Function.numbered hboth.numbering) = before.map Function.unplaced :=
      hstands.read.funcs.map_numbered_eq.trans hbefore
    have hrest : fs'.map Function.unplaced = fs.map (Function.numbered hboth.numbering) := hfs.symm
    rw [programOf, hfuncs']
    simp only [List.map_cons, List.map_append, himplicit, hkept, hrest, hg, hf,
      List.cons_append, List.append_assoc, List.nil_append]

/-- **Two functions are read in the other order**, and the package goes on behind them as it did. -/
theorem Abreast.exists_exchanged (h : Exchanged c c' ts ts')
    (habreast : Abreast (.ofSources c c') last.strings
      (ts.first ++ (ts.between ++ (ts.second ++ ts.back)))
      (ts'.second ++ (ts'.between ++ (ts'.first ++ ts'.back))) [] [] d d' r r')
    (hrest : r.rest = ts.first ++ (ts.between ++ (ts.second ++ ts.back)))
    (hrounds : Rounds packageRound d r a last) (name : String) :
    ∃ a' last', Rounds packageRound d' r' a' last' ∧ ∃ var : Equiv.Perm VarId,
      (programOf name a last).Exchanged ⟨var, id⟩ (programOf name a' last') := by
  -- both readings stand right in front of the functions
  obtain ⟨front, front', hfront, hfront', hbeside⟩ := habreast.parts
  obtain rfl : front = [] := List.append_cancel_right (hfront.symm.trans hrest)
  have hrest' : r'.rest = ts'.second ++ (ts'.between ++ (ts'.first ++ ts'.back)) := by
    have hlength : (look _).length = (front' ++ look _).length := hbeside.rest.length_eq
    rw [List.length_append, h.sound.isFirst.look_append, h.sound'.isSecond.look_append,
      h.sound.isFirst.length_look, h.sound'.isSecond.length_look] at hlength
    rw [hfront', List.length_eq_zero_iff.mp (by omega : front'.length = 0), List.nil_append]
  have hmatching : Matching id id r.vars r'.vars := ⟨hbeside.vars, hbeside.fresh⟩
  have hglobals : r.globals = r'.globals :=
    (List.map_id _).symm.trans (hbeside.globals.trans (List.map_id _))
  obtain ⟨fs, fs', hfuncs, hfuncs', hfs⟩ := habreast.declared.funcs
  rw [List.nil_append] at hfuncs hfuncs'
  have hbefore : d.funcs.map Function.unplaced = d'.funcs.map Function.unplaced :=
    hfuncs ▸ hfuncs' ▸ hfs
  have hnames := habreast.declared.names fun _ => Iff.rfl
  obtain ⟨f, g, r₁, r₂, r₃, hboth, hrest₂, hrest₃, hrounds₃⟩ :=
    habreast.left.exists_readsBoth h.sound hrest hrounds
  obtain ⟨f', g', r₁', r₂', r₃', hboth', hrest₂', hrest₃', hstrings₃', hexchanged, hg, hf⟩ :=
    hboth.exists_exchanged h habreast.left habreast.right hrest hrest₂ hrest' hmatching hglobals hnames
      habreast.strings hrounds₃.strings
  have hnames₃ (name : String) : name ∈ (d.funcs ++ [f] ++ [g]).map (·.name) ↔
      name ∈ (d'.funcs ++ [g'] ++ [f']).map (·.name) := by
    have hgname : g'.name = g.name := (congrArg Function.name hg :)
    have hfname : f'.name = f.name := (congrArg Function.name hf :)
    simp only [List.map_append, List.mem_append, hnames, List.map_cons, List.map_nil,
      List.mem_singleton, hgname, hfname, or_assoc]
    exact or_congr_right or_comm
  obtain ⟨a', last', hrounds', hlast⟩ :=
    (hboth.abreast hboth' h habreast.left hglobals habreast.declared.inits hrest₃ hrest₃' hstrings₃'
      hexchanged).finishes rfl hnames₃ List.prefix_rfl hrounds₃
  exact ⟨a', last', hboth'.rounds h.sound'.exchanged habreast.right hrest' hrest₂' hrounds', _,
    hboth.exchanged habreast.left hlast hbefore hg hf name⟩

/-! ## Whole packages -/

/-- In front of two functions of a package **its heading stands**. -/
theorem exists_front_of_sound (hts : ts.Sound) {t i : Token} {rest : List Token}
    (h : ts.all = t :: i :: rest) (ht : t.is "package" = true) (hi : i.kind = .ident) :
    ∃ front, ts.front = t :: i :: front ∧
      rest = front ++ (ts.first ++ (ts.between ++ (ts.second ++ ts.back))) := by
  obtain ⟨u, tail, hfirst, hu⟩ := hts.isFirst.head
  rw [Parts.all] at h
  match hfront : ts.front with
  | [] =>
    rw [hfront, hfirst] at h
    obtain ⟨rfl, -⟩ := List.cons.inj h
    rw [Token.is_eq_false_of_is ht (by decide)] at hu
    cases hu
  | [_] =>
    rw [hfront, hfirst] at h
    obtain ⟨rfl, -⟩ := List.cons.inj (List.cons.inj h).2
    rw [(Token.is_iff.mp hu).1] at hi
    cases hi
  | t' :: i' :: front =>
    rw [hfront] at h
    obtain ⟨rfl, htail⟩ := List.cons.inj h
    obtain ⟨rfl, hrest⟩ := List.cons.inj htail
    exact ⟨front, rfl, hrest.symm⟩

/-- In front of two functions the source **has not ended**. -/
theorem Stands.not_atEnd (h : Stands c d r) (hts : ts.Sound) (htokens : c.tokens = ts.all)
    {front : List Token}
    (hrest : r.rest = front ++ (ts.first ++ (ts.between ++ (ts.second ++ ts.back)))) :
    r.rest.head?.all (·.kind == .eof) = false := by
  cases front with
  | nil =>
    obtain ⟨u, tail, hfirst, hu⟩ := hts.isFirst.head
    rw [hrest, hfirst]
    exact congrArg (· == Token.Kind.eof) (Token.is_iff.mp hu).1
  | cons u front =>
    have hsuffix : u :: front <:+ ts.front := by
      obtain ⟨more, hmore⟩ := h.suffix
      rw [hrest, htokens, Parts.all, ← List.append_assoc] at hmore
      exact ⟨more, List.append_cancel_right hmore⟩
    rw [hrest]
    exact beq_eq_false_iff_ne.mpr (hts.unended u (hsuffix.subset List.mem_cons_self))

/-- Behind headings that are alike **two readings are abreast**. -/
theorem abreast_start {t i t' i' : Token} {front front' behind behind' : List Token}
    (htokens : c.tokens = t :: i :: (front ++ behind))
    (htokens' : c'.tokens = t' :: i' :: (front' ++ behind'))
    (hspaced : SpacedWithin c.source c'.source (front ++ look behind) (front' ++ look behind'))
    (strings : List String) :
    Abreast (.ofSources c c') strings behind behind' [] [] ⟨[], []⟩ ⟨[], []⟩
      { Reading.start c.source c.tokens with previous := some i, rest := front ++ behind }
      { Reading.start c'.source c'.tokens with
        previous := some i', rest := front' ++ behind', strings := strings } := by
  have hmem {c : CutSource} {t i : Token} {front behind : List Token}
      (htokens : c.tokens = t :: i :: (front ++ behind)) :
      ∀ u ∈ front ++ look behind, u ∈ c.tokens := by
    intro u hu
    refine htokens ▸ List.mem_cons_of_mem _ (List.mem_cons_of_mem _ ?_)
    rcases List.mem_append.mp hu with hu | hu
    · exact List.mem_append_left _ hu
    · exact List.mem_append_right _ (List.mem_of_head? (Option.mem_toList.mp hu))
  exact
    { left := stands_start htokens []
      right := stands_start htokens' strings
      parts := ⟨front, front', rfl, rfl,
        { left := ⟨rfl, hmem htokens⟩
          right := ⟨rfl, hmem htokens'⟩
          previous := rfl
          spaced := hspaced
          vars := by
            rintro id _ rfl
            rfl
          fresh := fun i j => Nat.add_left_cancel_iff (n := 0)
          globals := rfl
          scope := rfl
          strings := rfl }⟩
      declared := ⟨⟨[], [], rfl, rfl, rfl⟩, rfl⟩
      strings := rfl }

/-- **A package is read with two functions in the other order**, if its strings have the numbers
already that they get in the order that they have. -/
theorem exists_package_exchanged (h : Exchanged c c' ts ts') {p : Program}
    (hrun : package.run (.start c.source c.tokens) = .ok (p, last)) :
    ∃ p' last', package.run { Reading.start c'.source c'.tokens with strings := p.strings } =
      .ok (p', last') ∧ ∃ var : Equiv.Perm VarId, p.Exchanged ⟨var, id⟩ p' := by
  obtain ⟨t, i, rest, d, htokens, ht, hi, hiterate, rfl⟩ := run_package_eq_ok_iff.mp hrun
  replace htokens : c.tokens = t :: i :: rest := htokens
  obtain ⟨front, hfront, hrest⟩ := exists_front_of_sound h.sound (h.tokens.symm.trans htokens) ht hi
  -- the right source has a heading that is alike
  obtain ⟨t', i', front', hfront', halike, halike', hspaced⟩ : ∃ t' i' front',
      ts'.front = t' :: i' :: front' ∧ t.Alike t' ∧ i.Alike i' ∧
      SpacedWithin c.source c'.source (front ++ look ts.first) (front' ++ look ts'.second) := by
    have hspaced := h.front
    have hlength := hspaced.alike.length_eq
    rw [List.length_append, List.length_append, h.sound.isFirst.length_look,
      h.sound'.isSecond.length_look, hfront] at hlength
    rw [hfront] at hspaced
    match hts' : ts'.front with
    | [] | [_] =>
      rw [hts'] at hlength
      simp at hlength
    | t' :: i' :: front' =>
      rw [hts'] at hspaced
      exact ⟨t', i', front', rfl, hspaced.1, hspaced.2.2.1, hspaced.2.2.2.2⟩
  have htokens' : c'.tokens =
      t' :: i' :: (front' ++ (ts'.second ++ (ts'.between ++ (ts'.first ++ ts'.back)))) := by
    rw [h.tokens', Parts.all, Parts.exchanged, hfront']
    rfl
  have habreast := abreast_start (hrest ▸ htokens) htokens' (by
    rwa [h.sound.isFirst.look_append, h.sound'.isSecond.look_append]) last.strings
  have hlook : (look (ts.first ++ (ts.between ++ (ts.second ++ ts.back)))).length =
      (look (ts'.second ++ (ts'.between ++ (ts'.first ++ ts'.back)))).length := by
    rw [h.sound.isFirst.look_append, h.sound'.isSecond.look_append, h.sound.isFirst.length_look,
      h.sound'.isSecond.length_look]
  obtain ⟨a', last', hrounds', var, hexchanged⟩ := habreast.reaches
    (Q := fun a' last' => ∃ var : Equiv.Perm VarId,
      (programOf i.text d last).Exchanged ⟨var, id⟩ (programOf i.text a' last')) rfl
    (h.sound.isFirst.cut _) (h.sound'.isSecond.cut _) hlook (fun _ => Iff.rfl) List.prefix_rfl
    (fun d₁ d₁' r r' hreached hrounds hstop => by
      rcases hstop with ⟨-, hrest⟩ | hdone
      · exact hreached.exists_exchanged h hrest hrounds i.text
      · obtain ⟨front, -, hrest, -⟩ := hreached.parts
        have hend := (run_packageRound_done_iff.mp hdone).1
        rw [hreached.left.not_atEnd h.sound h.tokens hrest] at hend
        cases hend)
    (habreast.left.rounds (hrest ▸ hiterate))
  refine ⟨programOf i.text a' last', last', run_package_eq_ok_iff.mpr
    ⟨t', i', _, a', htokens', halike.is_eq _ ▸ ht, halike'.kind ▸ hi, hrounds'.run, ?_⟩, var, hexchanged⟩
  rw [halike'.text]

end Parts

end StackCompiler.Grammar
