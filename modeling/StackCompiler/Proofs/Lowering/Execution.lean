import StackCompiler.Proofs.Lowering.Evaluation

/-!
# Proofs/Lowering/Execution — the listing of a function does what its body does

A statement that ends is followed by a run through its lines: from their start to their end if it
goes on, and **to the label where all returns meet** if it returns (`Arrives`).  Between statements
the stack ends with the frame, the locals hold what the store says, and the caller's `rbp` stands
where it was pushed (`Standing`).
-/

namespace StackCompiler

open Machine

namespace Lowering

/-! ## Between statements -/

/-- What a run through a body takes place in. -/
structure Scene where
  env : Environment
  program : Program
  function : Function
  listing : Listing
  /-- The label where the returns meet, and its place. -/
  exit : Label
  out : Nat
  /-- The frame's base, and the word that stands there. -/
  base : Int64
  saved : Int64

/-- The listing leads jumps to **one place**, and has room for all that it pushes. -/
structure Scene.Sound (s : Scene) : Prop where
  frame : IntFrame s.program s.function
  nodup : s.listing.labels.Nodup
  exit : s.listing.place? s.exit = some s.out
  room : s.function.frame + 8 * s.listing.pushes + 8 ≤ 2 ^ 64

/-- The machine has the function's frame, and under it what the caller will want back. -/
structure Framed (s : Scene) (m : Machine) : Prop where
  base : m.regs .rbp = s.base
  saved : m.cell 0 = s.saved

/-- The machine stands between two statements, with the store in its frame. -/
structure Standing (s : Scene) (σ : Store) (m : Machine) : Prop extends Framed s m where
  down : m.IsDown s.function.frame
  shows : m.Shows s.program s.function σ

/-- The moment leads to where such an ending does: to the line after the statement, or to where the
returns meet. -/
def Arrives (s : Scene) (stop : Nat) (start : Moment) : Ending → Prop
  | .next σ => ∃ m, Runs s.env s.listing start ⟨stop, m⟩ ∧ Standing s σ m
  | .returned v => ∃ m, Runs s.env s.listing start ⟨s.out, m⟩ ∧ Framed s m ∧ m.regs .rax = v

/-- Wherever the code stands in the listing, a run through it ends as the statement does. -/
def Simulates (s : Scene) (code : Code) (run : Store → Option Ending) : Prop :=
  ∀ ⦃pre seg : Listing⦄, code.Gives seg → pre ++ seg <+: s.listing →
    ∀ ⦃σ : Store⦄ ⦃m : Machine⦄ ⦃ending : Ending⦄, Standing s σ m → run σ = some ending →
      Arrives s (pre ++ seg).length ⟨pre.length, m⟩ ending

section Scenes

variable {s : Scene} {stop : Nat} {start start' : Moment} {ending : Ending} {σ : Store}
  {m m' : Machine} {pre seg : Listing}

theorem Arrives.of_runs (hruns : Runs s.env s.listing start start')
    (h : Arrives s stop start' ending) : Arrives s stop start ending := by
  cases ending with
  | next σ =>
    obtain ⟨m, hm, hstanding⟩ := h
    exact ⟨m, hruns.trans hm, hstanding⟩
  | returned v =>
    obtain ⟨m, hm, hframed⟩ := h
    exact ⟨m, hruns.trans hm, hframed⟩

theorem andThen_eq_some {x : Option Ending} {k : Store → Option Ending}
    (h : Ending.andThen x k = some ending) :
    (∃ σ, x = some (.next σ) ∧ k σ = some ending) ∨
      ∃ v, x = some (.returned v) ∧ ending = .returned v := by
  cases x with
  | none => cases h
  | some e =>
    cases e with
    | next σ => exact .inl ⟨σ, rfl, h⟩
    | returned v => cases h; exact .inr ⟨v, rfl, rfl⟩

/-- **One after the other**: what returns does not go on. -/
theorem Arrives.andThen {mid : Nat} {x : Option Ending} {k : Store → Option Ending}
    (h : Ending.andThen x k = some ending) (hx : ∀ e, x = some e → Arrives s mid start e)
    (hk : ∀ σ m, Standing s σ m → k σ = some ending → Arrives s stop ⟨mid, m⟩ ending) :
    Arrives s stop start ending := by
  rcases andThen_eq_some h with ⟨σ, rfl, hrest⟩ | ⟨v, rfl, rfl⟩
  · obtain ⟨m, hm, hstanding⟩ := hx _ rfl
    exact Arrives.of_runs hm (hk σ m hstanding hrest)
  · exact hx _ rfl

/-- What stands there is a part of the listing, so **there is room for it**. -/
theorem Scene.Sound.room_for (hs : s.Sound) (hl : pre ++ seg <+: s.listing) :
    s.function.frame + 8 * seg.pushes + 8 ≤ 2 ^ 64 := by
  have hroom := hs.room
  obtain ⟨post, hl⟩ := hl
  rw [← hl, Listing.pushes_append, Listing.pushes_append] at hroom
  omega

theorem Standing.keeps (hs : s.Sound) (h : Standing s σ m)
    (hkeeps : Keeps s.function.frame m m') (hdown : m'.IsDown s.function.frame) :
    Standing s σ m' :=
  ⟨⟨hkeeps.base.trans h.base, (hkeeps.cell 0 le_rfl hs.frame.frame.1).trans h.saved⟩, hdown,
    h.shows.keeps hs.frame hkeeps le_rfl⟩

/-! ## Straight code -/

variable {own : VarId → Prop} {signatures : List Typing.Signature} {e : Expr} {v : Int64}

/-- An expression is evaluated **on top of the frame**. -/
theorem Standing.value (hs : s.Sound) (h : Standing s σ m)
    (he : TypedIn s.program own signatures e) (hint : e.isArithmetic s.function.locals = true)
    (hseg : (exprCode s.program .value e).Gives seg) (hl : pre ++ seg <+: s.listing)
    (hv : e.value σ = some v) :
    ∃ m', seg.Leads s.env m m' ∧ Pushed s.function.frame v m m' :=
  leads_exprCode s.env hs.frame he hint hseg h.down le_rfl (hs.room_for hl) h.shows hv

/-- What pops the value is back **between statements**. -/
theorem Standing.popped (hs : s.Sound) (h : Standing s σ m) {m₁ : Machine}
    (hpushed : Pushed s.function.frame v m m₁) :
    ∃ m₂, (Instr.pop .rax).exec s.env m₁ = some m₂ ∧ m₂.regs .rax = v ∧ Standing s σ m₂ := by
  obtain ⟨m₂, hm₂, hpop⟩ := exec_pop (r := .rax) s.env hpushed.down (by decide)
  exact ⟨m₂, hm₂, hpop.value.trans hpushed.top,
    h.keeps hs (hpushed.toKeeps.trans hpop.keeps) hpop.down⟩

theorem Simulates.nothing : Simulates s .nothing fun σ => some (.next σ) := by
  intro pre seg hseg _ σ m ending hm hrun
  cases hrun
  rw [hseg.nothing, List.append_nil]
  exact ⟨m, .refl, hm⟩

theorem Simulates.append {first second : Code} {run next : Store → Option Ending}
    (h : Simulates s first run) (h' : Simulates s second next) :
    Simulates s (first ++ second) fun σ => Ending.andThen (run σ) next := by
  intro pre seg hseg hl σ m ending hm hrun
  obtain ⟨a, b, ha, hb, rfl⟩ := hseg.append
  rw [← List.append_assoc] at hl ⊢
  exact .andThen hrun (fun e he => h ha (.trans (by simp) hl) hm he)
    fun σ m hm hrest => h' hb hl hm hrest

/-- The value of a statement that is an expression is dropped. -/
theorem simulates_expr (hs : s.Sound) (he : TypedIn s.program own signatures e)
    (hint : e.isArithmetic s.function.locals = true) (hwords : e.ty.words = 1) :
    Simulates s (exprCode s.program .value e ++ .discard e.ty.words)
      fun σ => (e.value σ).map fun _ => .next σ := by
  intro pre seg hseg hl σ m ending hm hrun
  obtain ⟨v, hv, rfl⟩ := Option.map_eq_some_iff.mp hrun
  obtain ⟨a, b, ha, hb, rfl⟩ := hseg.append
  have hla : pre ++ a <+: s.listing := .trans (by simp) hl
  obtain ⟨m₁, hm₁, hpushed⟩ := hm.value hs he hint ha hla hv
  obtain ⟨m₂, hm₂, hdown, hkeeps⟩ := exec_discard s.env hpushed.down
  rw [hwords] at hb
  have hleads : (a ++ b).Leads s.env m m₂ :=
    hm₁.append ⟨_, hb.ofInstrs, congrArg (Option.bind · some) hm₂⟩
  exact ⟨m₂, hleads.runs hl, hm.keeps hs (hpushed.toKeeps.trans (hkeeps _)) hdown⟩

/-- A return leaves its value in `rax` and goes to where the returns meet. -/
theorem simulates_ret (hs : s.Sound) (he : TypedIn s.program own signatures e)
    (hint : e.isArithmetic s.function.locals = true) :
    Simulates s (returnCode s.program s.exit (some e)) fun σ => (e.value σ).map .returned := by
  intro pre seg hseg hl σ m ending hm hrun
  obtain ⟨v, hv, rfl⟩ := Option.map_eq_some_iff.mp hrun
  rw [returnCode, isString_of_arithmetic hs.frame he hint] at hseg
  obtain ⟨a, b, ha, hb, rfl⟩ := hseg.append
  have hla : pre ++ a <+: s.listing := .trans (by simp) hl
  obtain ⟨m₁, hm₁, hpushed⟩ := hm.value hs he hint ha hla hv
  obtain ⟨m₂, hm₂, hrax, hm₂'⟩ := hm.popped hs hpushed
  have hb := hb.ofInstrs
  subst hb
  have hleads : (a ++ [Line.instr (.pop .rax)]).Leads s.env m m₂ :=
    hm₁.append ⟨[.pop .rax], rfl, congrArg (Option.bind · some) hm₂⟩
  exact ⟨m₂, (hleads.runs (.trans (by simp [Listing.ofInstrs]) hl)).trans
    (Runs.jump (.trans (by simp [Listing.ofInstrs]) hl) hs.exit m₂), hm₂'.toFramed, hrax⟩

theorem length_of_mapM {α β : Type} {g : α → Option β} : ∀ {as : List α} {bs : List β},
    as.mapM g = some bs → bs.length = as.length
  | [], _, h => by cases h; rfl
  | a :: as, bs, h => by
    rw [List.mapM_cons] at h
    obtain ⟨b, -, h⟩ := Option.bind_eq_some_iff.mp h
    obtain ⟨rest, hrest, hcons⟩ := Option.bind_eq_some_iff.mp h
    cases hcons
    rw [List.length_cons, List.length_cons, length_of_mapM hrest]

/-- Assignments store **the values that the variables had before**. -/
theorem simulates_assign (hs : s.Sound) {targets values : List Expr} {ids : List VarId}
    (htargets : List.Forall₂ (fun target id => ∃ loc, target = .var id .int loc) targets ids)
    (hids : ∀ id ∈ ids, id ∈ s.function.locals) (hnodup : ids.Nodup)
    (hlen : values.length = ids.length) (hv : ∀ e ∈ values, TypedIn s.program own signatures e)
    (hint : ∀ e ∈ values, e.isArithmetic s.function.locals = true) :
    Simulates s (exprsCode s.program values ++ storesCode s.program targets)
      fun σ => (values.mapM (Expr.value σ)).map fun vs => .next (σ.assign (ids.zip vs)) := by
  intro pre seg hseg hl σ m ending hm hrun
  obtain ⟨vs, hvs, rfl⟩ := Option.map_eq_some_iff.mp hrun
  obtain ⟨a, b, ha, hb, rfl⟩ := hseg.append
  have hla : pre ++ a <+: s.listing := .trans (by simp) hl
  have hlb : pre ++ a ++ b <+: s.listing := by simpa using hl
  have hvslen := length_of_mapM hvs
  obtain ⟨m₁, hm₁, hdown, hholds, hkeeps⟩ :=
    leads_exprsCode s.env hs.frame hv hint ha hm.down le_rfl (hs.room_for hla) hm.shows hvs
  obtain ⟨m₂, hm₂, hdown, hshows, hspares⟩ := leads_storesCode s.env hs.frame htargets hids
    hnodup (hvslen.trans hlen) hb hdown hholds le_rfl (hs.room_for hlb) (hm.shows.keeps hs.frame hkeeps le_rfl)
  refine ⟨m₂, (hm₁.append hm₂).runs hl, ⟨hspares.base.trans (hkeeps.base.trans hm.base), ?_⟩, hdown,
    hshows⟩
  rw [hspares.saved, hkeeps.cell 0 le_rfl hs.frame.frame.1, hm.saved]

/-! ## Branches and loops -/

/-- Where a statement goes on, what follows it **may go on further**. -/
theorem Arrives.pass {mid : Nat} (h : Arrives s mid start ending)
    (hpass : ∀ m, Runs s.env s.listing ⟨mid, m⟩ ⟨stop, m⟩) : Arrives s stop start ending := by
  cases ending with
  | next σ =>
    obtain ⟨m, hm, hstanding⟩ := h
    exact ⟨m, hm.trans (hpass m), hstanding⟩
  | returned v => exact h

/-- A condition **that is zero** leads to the target. -/
theorem Standing.unless (hs : s.Sound) (hm : Standing s σ m)
    (he : TypedIn s.program own signatures e) (hint : e.isArithmetic s.function.locals = true)
    {target : Label} {pos : Nat} (hseg : (unlessCode s.program e target).Gives seg)
    (hl : pre ++ seg <+: s.listing) (hpos : s.listing.place? target = some pos)
    (hv : e.value σ = some v) :
    ∃ m', Standing s σ m' ∧ Runs s.env s.listing ⟨pre.length, m⟩
      ⟨if v = 0 then pos else (pre ++ seg).length, m'⟩ := by
  obtain ⟨a, b, ha, hb, rfl⟩ := hseg.append
  have hla : pre ++ a <+: s.listing := .trans (by simp) hl
  obtain ⟨m₁, hm₁, hpushed⟩ := hm.value hs he hint ha hla hv
  obtain ⟨m₂, hm₂, hrax, hstanding⟩ := hm.popped hs hpushed
  have hb := hb.ofInstrs
  subst hb
  have hsame : SameStack m₂ (m₂.flagged (some (.ofSub v 0))) := .flagged _ _
  have hleads : (a ++ [Line.instr (.pop .rax), .instr (.compareConst .rax 0)]).Leads s.env m
      (m₂.flagged (some (.ofSub v 0))) := by
    refine hm₁.append ⟨[.pop .rax, .compareConst .rax 0], rfl, ?_⟩
    rw [execAll, hm₂, Option.bind_some, ← hrax]
    rfl
  have hflags : (m₂.flagged (some (.ofSub v 0))).flags = some (.ofSub v 0) := rfl
  have hfront : pre ++ (a ++ [Line.instr (.pop .rax), .instr (.compareConst .rax 0)]) ++
      [.instr (.jumpIf .equal target)] <+: s.listing := .trans (by simp [Listing.ofInstrs]) hl
  have hjump : Runs s.env s.listing _ _ := Runs.jumpIf hfront hpos hflags
  refine ⟨_, hstanding.keeps hs hsame.keeps (hsame.isDown hstanding.down),
    (hleads.runs (.trans (by simp) hfront)).trans ?_⟩
  have hzero : (Flags.ofSub v 0).allows .equal = decide (v = 0) := by
    rw [Bool.eq_iff_iff, decide_eq_true_iff]
    exact beq_iff_eq.trans (sub_eq_zero_iff v 0)
  rw [hzero] at hjump
  simpa [Listing.ofInstrs, add_assoc] using hjump

variable {init otherwise body next : Store → Option Ending} {exit : Label} {base : Nat}

/-- A branch runs **one of its two sides**, and goes on behind both. -/
theorem simulates_branch (hs : s.Sound) {first other : Stmt} {cond : Expr} {stmts : List Stmt}
    (hinit : Simulates s (stmtCode s.program exit base first) init)
    (he : TypedIn s.program own signatures cond)
    (hint : cond.isArithmetic s.function.locals = true)
    (hbody : Simulates s (stmtsCode s.program exit (base + first.labelCount + 1) stmts) body)
    (hotherwise : Simulates s (stmtCode s.program exit
      (base + first.labelCount + 1 + Stmt.labelCounts stmts) other) otherwise) :
    Simulates s (stmtCode s.program exit base (.branch first cond stmts other))
      fun σ => Ending.andThen (init σ) fun σ => (cond.value σ).bind fun v =>
        if v = 0 then otherwise σ else body σ := by
  intro pre seg hseg hl σ m ending hm hrun
  obtain ⟨a, b, c, d, ha, hb, hc, hd, rfl⟩ := branchCode_gives hseg
  generalize base + first.labelCount + 1 = own at *
  simp only [← List.append_assoc] at hl ⊢
  have helse : pre ++ a ++ b ++ c ++ [.instr (.jump (.endOf own))] ++ [.label (.elseOf own)] <+:
      s.listing := .trans (by simp) hl
  refine .andThen hrun (fun e he => hinit ha (.trans (by simp) hl) hm he) fun σ m hm hrest => ?_
  obtain ⟨v, hv, hrest⟩ := Option.bind_eq_some_iff.mp hrest
  have hlb : pre ++ a ++ b <+: s.listing := .trans (by simp) hl
  obtain ⟨m₁, hm₁, hruns⟩ := hm.unless hs he hint hb hlb
    (Listing.place?_of_nodup hs.nodup helse) hv
  refine .of_runs hruns ?_
  split at hrest
  · next hzero =>
    rw [if_pos hzero]
    exact .of_runs (Runs.label helse m₁)
      ((hotherwise hd (.trans (by simp) hl) hm₁ hrest).pass fun m => Runs.label hl m)
  · next hzero =>
    rw [if_neg hzero]
    refine (hbody hc (.trans (by simp) hl) hm₁ hrest).pass fun m => ?_
    exact (Runs.jump (.trans (by simp) hl) (Listing.place?_of_nodup hs.nodup hl) m).trans
      (Runs.label hl m)

/-- **A loop takes its turns**: each starts at the one label and ends in front of it, and the test
that fails leads behind the other. -/
theorem simulates_loop (hs : s.Sound) {first post : Stmt} {cond : Option Expr} {stmts : List Stmt}
    {loc turns : Nat} (hinit : Simulates s (stmtCode s.program exit base first) init)
    (he : ∀ e ∈ cond, TypedIn s.program own signatures e)
    (hint : ∀ e ∈ cond, e.isArithmetic s.function.locals = true)
    (hbody : Simulates s (stmtsCode s.program exit (base + first.labelCount + 1) stmts) body)
    (hpost : Simulates s (stmtCode s.program exit
      (base + first.labelCount + 1 + Stmt.labelCounts stmts) post) next) :
    Simulates s (stmtCode s.program exit base (.loop first cond post stmts loc))
      fun σ => Ending.andThen (init σ) (takeTurns (fun σ => cond.elim (some 1) (Expr.value σ))
        (fun σ => Ending.andThen (body σ) next) turns) := by
  intro pre seg hseg hl σ m ending hm hrun
  obtain ⟨a, b, c, d, ha, hb, hc, hd, rfl⟩ := loopCode_gives hseg
  generalize base + first.labelCount + 1 = own at *
  simp only [← List.append_assoc] at hl ⊢
  have hbegin : pre ++ a ++ [.label (.beginOf own)] <+: s.listing := .trans (by simp) hl
  refine .andThen hrun (fun e he => hinit ha (.trans (by simp) hl) hm he) fun σ m hm hrest => ?_
  -- by induction on the turns, from the label where each of them starts
  clear hrun
  induction turns generalizing σ m with
  | zero => cases hrest
  | succ turns ih =>
    obtain ⟨v, hv, hrest⟩ := Option.bind_eq_some_iff.mp hrest
    have htest : ∃ m', Standing s σ m' ∧ Runs s.env s.listing
        ⟨(pre ++ a ++ [Line.label (.beginOf own)]).length, m⟩
        ⟨if v = 0 then (pre ++ a ++ [Line.label (.beginOf own)] ++ b ++ c ++ d ++
          [Line.instr (.jump (.beginOf own))]).length
          else (pre ++ a ++ [Line.label (.beginOf own)] ++ b).length, m'⟩ := by
      cases cond with
      | none =>
        cases hv
        rw [hb.nothing, List.append_nil]
        exact ⟨m, hm, .refl⟩
      | some e =>
        exact hm.unless hs (he e rfl) (hint e rfl) hb (.trans (by simp) hl)
          (Listing.place?_of_nodup hs.nodup hl) hv
    obtain ⟨m₁, hm₁, hruns⟩ := htest
    refine .of_runs ((Runs.label hbegin m).trans hruns) ?_
    split at hrest
    · next hzero =>
      cases hrest
      rw [if_pos hzero]
      exact ⟨m₁, Runs.label hl m₁, hm₁⟩
    · next hzero =>
      rw [if_neg hzero]
      have hturn (e : Ending) (h : Ending.andThen (body σ) next = some e) :
          Arrives s (pre ++ a ++ [Line.label (.beginOf own)] ++ b ++ c ++ d).length
            ⟨(pre ++ a ++ [Line.label (.beginOf own)] ++ b).length, m₁⟩ e :=
        .andThen h (fun e he => hbody hc (.trans (by simp) hl) hm₁ he)
          fun σ m hm hrun => hpost hd (.trans (by simp) hl) hm hrun
      refine .andThen hrest hturn fun σ m hm hrest => ?_
      exact .of_runs (Runs.jump (.trans (by simp) hl) (Listing.place?_of_nodup hs.nodup hbegin) m)
        (ih σ m hm hrest)

/-! ## Statements -/

/-- The targets of an assignment of words are locals **of type `int`**. -/
theorem targets_of_arithmetic {p : Program} {f : Function} (hframe : IntFrame p f)
    {targets values : List Expr} (hfit : List.Forall₂ Fitting targets values)
    (ht : ∀ e ∈ targets, TypedIn p own signatures e)
    (hv : ∀ e ∈ values, TypedIn p own signatures e)
    (hintt : ∀ e ∈ targets, e.ownVariable.any f.locals.contains = true)
    (hintv : ∀ e ∈ values, e.isArithmetic f.locals = true) :
    List.Forall₂ (fun target id => ∃ loc, target = .var id .int loc) targets
        (targets.filterMap Expr.ownVariable) ∧
      (∀ id ∈ targets.filterMap Expr.ownVariable, id ∈ f.locals) ∧
      values.length = (targets.filterMap Expr.ownVariable).length := by
  induction hfit with
  | nil => exact ⟨.nil, fun _ h => absurd h List.not_mem_nil, rfl⟩
  | @cons target value targets values hfit _ ih =>
    obtain ⟨ht, hts⟩ := List.forall_mem_cons.mp ht
    obtain ⟨hv, hvs⟩ := List.forall_mem_cons.mp hv
    obtain ⟨hintt, hintts⟩ := List.forall_mem_cons.mp hintt
    obtain ⟨hintv, hintvs⟩ := List.forall_mem_cons.mp hintv
    obtain ⟨htargets, hids, hlen⟩ := ih hts hvs hintts hintvs
    cases target with
    | var id ty loc =>
      have hid : id ∈ f.locals := List.elem_iff.mp hintt
      have hwords := hfit.words.trans
        (Ty.words_eq_one hfit.resolved (isString_of_arithmetic hframe hv hintv))
      rcases ty_of_local hframe hid ht with rfl | rfl
      · cases hwords
      · exact ⟨.cons ⟨loc, rfl⟩ htargets, List.forall_mem_cons.mpr ⟨hid, hids⟩,
          congrArg Nat.succ hlen⟩
    | _ => cases hintt

theorem simulates_stmtsCode {turns : Nat} : ∀ (ss : List Stmt),
    (∀ st ∈ ss, st.isArithmetic s.function.locals = true → st.leftovers = 0 →
      ∀ base, Simulates s (stmtCode s.program exit base st) (Stmt.run turns st)) →
    Stmt.areArithmetic s.function.locals ss = true → Stmt.leftoversOf ss = 0 →
    ∀ base, Simulates s (stmtsCode s.program exit base ss) (Stmt.runAll turns ss)
  | [], _, _, _, base => by
    rw [stmtsCode]
    exact Simulates.nothing
  | st :: ss, h, hint, hleft, base => by
    obtain ⟨hst, hss⟩ := List.forall_mem_cons.mp h
    obtain ⟨hint, hints⟩ := Bool.and_eq_true_iff.mp hint
    rw [Stmt.leftoversOf_cons] at hleft
    rw [stmtsCode]
    exact (hst hint (by omega) base).append (simulates_stmtsCode ss hss hints (by omega) _)

/-- **The code of a statement does what the statement does.** -/
theorem simulates_stmtCode (hs : s.Sound) {turns : Nat} {st : Stmt}
    (hst : Typing.TypedStmt own s.program.vars s.program.strings.length signatures st)
    (hint : st.isArithmetic s.function.locals = true) (hleft : st.leftovers = 0) :
    ∀ base, Simulates s (stmtCode s.program s.exit base st) (Stmt.run turns st) := by
  induction hst with
  | @expr value _ he =>
    intro base
    rw [Stmt.leftovers_expr] at hleft
    have hr : value.ty.isResolved = true := by
      cases h : value.ty.isResolved with
      | true => rfl
      | false => rw [h] at hleft; simp at hleft
    rw [stmtCode]
    exact simulates_expr hs he hint
      (Ty.words_eq_one hr (isString_of_arithmetic hs.frame he hint))
  | @ret value loc _ he =>
    intro base
    cases value with
    | none => cases hint
    | some value => exact simulates_ret hs (he value rfl) hint
  | @block body _ hb ih =>
    intro base
    rw [Stmt.leftovers_block] at hleft
    rw [stmtCode]
    exact simulates_stmtsCode body ih hint hleft base
  | @branch init cond body otherwise _ hi hc hb ho ihi ihb iho =>
    intro base
    rw [Stmt.leftovers_branch] at hleft
    simp only [Stmt.isArithmetic, Bool.and_eq_true] at hint
    exact simulates_branch hs (ihi hint.1.1.1 (by omega) base) hc hint.1.1.2
      (simulates_stmtsCode body ihb hint.1.2 (by omega) _) (iho hint.2 (by omega) _)
  | @loop init cond post body loc _ hi hc hp hb ihi ihp ihb =>
    intro base
    rw [Stmt.leftovers_loop] at hleft
    simp only [Stmt.isArithmetic, Bool.and_eq_true] at hint
    exact simulates_loop hs (ihi hint.1.1.1 (by omega) base) hc
      (fun e he => by cases he; exact hint.1.1.2) (simulates_stmtsCode body ihb hint.1.2 (by omega) _)
      (ihp hint.2 (by omega) _)
  | @assign targets values _ hfit ht hv =>
    intro base
    simp only [Stmt.isArithmetic, Bool.and_eq_true, List.all_eq_true, decide_eq_true_eq] at hint
    obtain ⟨htargets, hids, hlen⟩ :=
      targets_of_arithmetic hs.frame hfit ht hv hint.1.1 hint.2
    exact simulates_assign hs htargets hids hint.1.2 hlen hv hint.2
  | print => cases hint
  | empty => exact fun base => Simulates.nothing

end Scenes

end Lowering

end StackCompiler
