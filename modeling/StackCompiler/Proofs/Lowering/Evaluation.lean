import StackCompiler.Proofs.Lowering.Operations
import StackCompiler.Proofs.Lowering.Package

/-!
# Proofs/Lowering/Evaluation — the code of an expression computes its value

Over a frame whose locals are words that **lie apart** (`IntFrame`), the code of an expression leaves
its value on the stack and changes nothing below that (`leads_exprCode`); storing a value in a local
changes the one cell that it has.  The stack may grow by as many words as the code pushes, so long as
its addresses do not go around.
-/

namespace StackCompiler

open Machine

/-- How far below the frame's base the slot of a variable ends. -/
def Program.slot (p : Program) (id : VarId) : Int :=
  p.vars[id]?.elim 0 (·.offset)

/-- The locals of the function are words inside its frame, and **none overlaps another**. -/
structure IntFrame (p : Program) (f : Function) : Prop where
  locals : ∀ id ∈ f.locals, ∃ v, p.vars[id]? = some v ∧ v.isLocal = true ∧ v.ty = .int
  inside : ∀ id ∈ f.locals, 8 ≤ p.slot id ∧ p.slot id ≤ f.frame
  apart : ∀ id ∈ f.locals, ∀ id' ∈ f.locals, id ≠ id' →
    p.slot id + 8 ≤ p.slot id' ∨ p.slot id' + 8 ≤ p.slot id
  frame : 0 ≤ f.frame ∧ f.frame ≤ Word.greatest

/-- What the locals hold is what the store says. -/
def Machine.Shows (m : Machine) (p : Program) (f : Function) (σ : Store) : Prop :=
  ∀ id ∈ f.locals, m.cell (p.slot id) = σ id

theorem Machine.Shows.keeps {p : Program} {f : Function} {σ : Store} {m m' : Machine} {d : Int}
    (hm : m.Shows p f σ) (hframe : IntFrame p f) (h : Keeps d m m') (hd : f.frame ≤ d) :
    m'.Shows p f σ := fun id hid => by
  obtain ⟨hlow, hhigh⟩ := hframe.inside id hid
  rw [h.cell _ (by omega) (by omega)]
  exact hm id hid

namespace Lowering

variable (env : Environment) {p : Program} {f : Function} {m : Machine} {d : Int} {σ : Store}
  {l : Listing} {own : VarId → Prop} {signatures : List Typing.Signature}

/-! ## Locals -/

theorem slot_eq {id : VarId} {v : Variable} (h : p.vars[id]? = some v) : p.slot id = v.offset := by
  rw [Program.slot, h]
  rfl

/-- The locals of a typed function of words **lie apart**. -/
theorem intFrame_of_typed {strings : Nat} (hf : f.Typed p.vars strings signatures)
    (hint : f.isArithmetic p = true) : IntFrame p f := by
  have hlocal : ∀ id ∈ f.locals, ∃ v, p.vars[id]? = some v ∧ v.isLocal = true ∧ v.ty = .int ∧
      8 ≤ v.offset ∧ v.offset ≤ f.frame := fun id hid => by
    obtain ⟨v, hv, hl, -, -, hsize, hframe⟩ := hf.locals id hid
    have hty : v.ty = .int := by
      have hall := (Bool.and_eq_true_iff.mp hint).1
      have := List.all_eq_true.mp hall id hid
      rw [Typing.tyOf, hv] at this
      exact beq_iff_eq.mp this
    exact ⟨v, hv, hl, hty, by rw [hty] at hsize; exact hsize, hframe⟩
  refine ⟨fun id hid => ?_, fun id hid => ?_, fun id hid id' hid' hne => ?_, hf.frame.2⟩
  · obtain ⟨v, hv, hl, hty, -⟩ := hlocal id hid
    exact ⟨v, hv, hl, hty⟩
  · obtain ⟨v, hv, -, -, hbounds⟩ := hlocal id hid
    rwa [slot_eq hv]
  · obtain ⟨v, hv, -, hty, -⟩ := hlocal id hid
    obtain ⟨v', hv', -, hty', -⟩ := hlocal id' hid'
    have hapart := hf.apart id hid id' hid' hne v v' hv hv'
    rw [Typing.Apart, hty, hty'] at hapart
    rw [slot_eq hv, slot_eq hv']
    exact hapart

/-- A node for a local of type `int` has that type, or none. -/
theorem ty_of_local (hframe : IntFrame p f) {id : VarId} {ty : Ty} {loc : Nat}
    (hid : id ∈ f.locals) (h : TypedIn p own signatures (.var id ty loc)) :
    ty = .unknown ∨ ty = .int := by
  obtain ⟨v, hv, -, hty⟩ := hframe.locals id hid
  cases hr : ty.isResolved with
  | true => exact .inr (((h.here.2 v hv).2 hr).trans hty)
  | false => exact .inl (not_not.mp (mt Ty.isResolved_iff.mpr (by rw [hr]; exact Bool.false_ne_true)))

/-- What computes with words is **no string**. -/
theorem isString_of_arithmetic (hframe : IntFrame p f) {e : Expr} (he : TypedIn p own signatures e)
    (hint : e.isArithmetic f.locals = true) : e.ty.isString = false := by
  cases he with
  | num h => exact h.2.1
  | var h =>
    rcases ty_of_local hframe (List.elem_iff.mp hint) (.var h) with rfl | rfl <;> rfl
  | binary h _ _ =>
    rw [Expr.ty, h.2.2.2.2]
    split
    · rfl
    · exact h.2.2.1
  | _ => cases hint

/-! ## Addresses and words -/

/-- An address is put on the stack. -/
theorem leads_pushAddress {a : Address} (hm : m.IsDown d) (hd : 0 ≤ d ∧ d + 16 ≤ 2 ^ 64)
    (hl : (pushAddress a).Gives l) : ∃ m', l.Leads env m m' ∧ Pushed d (m.locate env a) m m' := by
  have hsame : SameStack m (m.put .rax (m.locate env a)) := .put (by decide) _ _
  have hpushed := pushed_pushWord (hsame.isDown hm) hd (m.locate env a)
  refine ⟨_, ⟨_, hl.ofInstrs, ?_⟩, hpushed.of_keeps hsame.keeps⟩
  change some ((m.put .rax _).pushWord ((m.put .rax _).regs .rax)) = _
  rw [regs_put_self]

/-- The address of a local is the place **of its cell**. -/
theorem variableAddress_local (hframe : IntFrame p f) {id : VarId} (hid : id ∈ f.locals) :
    variableAddress p id = pushAddress (.frame (p.slot id)) := by
  obtain ⟨v, hv, hlocal, -⟩ := hframe.locals id hid
  rw [variableAddress, hv, slot_eq hv]
  exact if_pos hlocal

/-- The word at the address on the stack is put **in its place**. -/
theorem leads_loadWord {a : Int64} (hm : m.IsDown (d + 8)) (ha : m.cell (d + 8) = a)
    (hd : 0 ≤ d ∧ d + 16 ≤ 2 ^ 64)
    (hl : (Code.ofInstrs [.pop .rax, .load .rax (.above .rax 0), .push .rax]).Gives l) :
    ∃ m', l.Leads env m m' ∧ Pushed d (m.memory.word a) m m' := by
  obtain ⟨m₁, hm₁, hpop⟩ := exec_pop (r := .rax) env hm (by decide)
  have hplace : m₁.locate env (.above .rax 0) = a := by
    change m₁.regs .rax + 0 = a
    rw [Int64.add_zero, hpop.value, ha]
  have hsame : SameStack m₁ (m₁.put .rax (m.memory.word a)) := .put (by decide) _ _
  have hpushed := pushed_pushWord (hsame.isDown hpop.down) hd (m.memory.word a)
  refine ⟨_, ⟨_, hl.ofInstrs, ?_⟩, hpushed.of_keeps (hpop.keeps.trans hsame.keeps)⟩
  rw [execAll, hm₁, Option.bind_some]
  change some ((m₁.put .rax _).pushWord ((m₁.put .rax _).regs .rax)) = _
  rw [regs_put_self, hplace, hpop.memory]

/-! ## Values -/

/-- The value of a local is put on the stack. -/
theorem leads_local (hframe : IntFrame p f) {id : VarId} {ty : Ty} {loc : Nat}
    (hid : id ∈ f.locals) (hty : ty = .unknown ∨ ty = .int) (hm : m.IsDown d)
    (hd : f.frame ≤ d) (hroom : d + 8 * l.pushes + 8 ≤ 2 ^ 64) (hσ : m.Shows p f σ)
    (hl : (exprCode p .value (.var id ty loc)).Gives l) :
    ∃ m', l.Leads env m m' ∧ Pushed d (σ id) m m' := by
  obtain ⟨hlow, hhigh⟩ := hframe.inside id hid
  rw [exprCode, variableAddress_local hframe hid] at hl
  obtain ⟨a, b, ha, hb, rfl⟩ := hl.append
  have hpush : a.pushes = 1 := by rw [ha.ofInstrs]; rfl
  rw [Listing.pushes_append] at hroom
  obtain ⟨m₁, hm₁, haddress⟩ := leads_pushAddress env hm (by omega) ha
  have hload : fromAddress ty .value = .ofInstrs [.pop .rax, .load .rax (.above .rax 0), .push .rax] := by
    rcases hty with rfl | rfl <;> rfl
  rw [hload] at hb
  obtain ⟨m₂, hm₂, hword⟩ := leads_loadWord env haddress.down haddress.top (by omega) hb
  have hcell : m₁.memory.word (m.locate env (.frame (p.slot id))) = σ id := by
    rw [← hσ id hid, ← haddress.cell _ (by omega) (hhigh.trans hd), cell, haddress.base]
    rfl
  exact ⟨m₂, hm₁.append hm₂, (hcell ▸ hword).of_keeps haddress.toKeeps⟩

/-- **The code of an expression leaves its value on the stack**, and below that all as it was. -/
theorem leads_exprCode (hframe : IntFrame p f) {e : Expr} (he : TypedIn p own signatures e)
    (hint : e.isArithmetic f.locals = true) : ∀ {l : Listing} {m : Machine} {d : Int} {v : Int64},
      (exprCode p .value e).Gives l → m.IsDown d → f.frame ≤ d →
      d + 8 * l.pushes + 8 ≤ 2 ^ 64 → m.Shows p f σ → e.value σ = some v →
      ∃ m', l.Leads env m m' ∧ Pushed d v m m' := by
  have hpos := hframe.frame.1
  induction he with
  | @num value ty loc h =>
    intro l m d v hl hm hd hroom hσ hv
    rw [exprCode] at hl
    have hl := hl.ofInstrs
    subst hl
    cases hv
    have hpush : (Listing.ofInstrs [.set .rax value, .push .rax]).pushes = 1 := rfl
    have hsame : SameStack m (m.put .rax value) := .put (by decide) _ _
    have hpushed := pushed_pushWord (hsame.isDown hm) (by omega) value
    refine ⟨_, ⟨_, rfl, ?_⟩, hpushed.of_keeps hsame.keeps⟩
    change some ((m.put .rax _).pushWord ((m.put .rax _).regs .rax)) = _
    rw [regs_put_self]
  | @var id ty loc h =>
    intro l m d v hl hm hd hroom hσ hv
    cases hv
    have hid := List.elem_iff.mp hint
    exact leads_local env hframe hid (ty_of_local hframe hid (.var h)) hm hd hroom hσ hl
  | @binary op lhs rhs ty loc h hlhs hrhs ihl ihr =>
    intro l m d v hl hm hd hroom hσ hv
    obtain ⟨hintl, hintr⟩ := Bool.and_eq_true_iff.mp hint
    obtain ⟨a, ha, hv⟩ := Option.bind_eq_some_iff.mp hv
    obtain ⟨b, hb, hv⟩ := Option.bind_eq_some_iff.mp hv
    rw [exprCode] at hl
    obtain ⟨_, lop, hl', hlop, rfl⟩ := Code.Gives.append hl
    obtain ⟨la, lb, hla, hlb, rfl⟩ := hl'.append
    have hpush : 1 ≤ lop.pushes := by rw [hlop.ofInstrs]; cases op <;> decide
    rw [Listing.pushes_append, Listing.pushes_append] at hroom
    obtain ⟨m₁, hm₁, hleft⟩ := ihl hintl hla hm hd (by omega) hσ ha
    obtain ⟨m₂, hm₂, hright⟩ := ihr hintr hlb hleft.down (by omega) (by omega)
      (hσ.keeps hframe hleft.toKeeps hd) hb
    have hcell : m₂.cell (d + 8) = a := by
      rw [hright.cell _ (by omega) le_rfl, hleft.top]
    obtain ⟨m₃, hm₃, hresult⟩ := leads_operate env (v := v)
      (by rw [hcell, hright.top]; exact hv) hright.down (by omega) hlop
    refine ⟨m₃, (hm₁.append hm₂).append hm₃, hresult.of_keeps ?_⟩
    exact hleft.toKeeps.trans (hright.toKeeps.mono (by omega))
  | _ => cases hint

/-- The code of an expression that computes with words **pushes a word** at least. -/
theorem pushes_exprCode {e : Expr} {locals : List VarId} (hint : e.isArithmetic locals = true)
    (hl : (exprCode p .value e).Gives l) : 1 ≤ l.pushes := by
  cases e with
  | num value ty loc =>
    rw [exprCode] at hl
    rw [Code.Gives.ofInstrs hl]
    exact le_rfl
  | var id ty loc =>
    rw [exprCode] at hl
    obtain ⟨a, b, ha, -, rfl⟩ := hl.append
    have hpush : 1 ≤ a.pushes := by
      unfold variableAddress at ha
      split at ha
      · exact ha.not_broken.elim
      · split at ha <;> rw [ha.ofInstrs] <;> exact le_rfl
    rw [Listing.pushes_append]
    omega
  | binary op lhs rhs ty loc =>
    rw [exprCode] at hl
    obtain ⟨a, b, -, hb, rfl⟩ := Code.Gives.append hl
    have hpush : 1 ≤ b.pushes := by rw [hb.ofInstrs]; cases op <;> decide
    rw [Listing.pushes_append]
    omega
  | _ => cases hint

/-- The code of expressions leaves their values, **the first at the bottom**. -/
theorem leads_exprsCode (hframe : IntFrame p f) {es : List Expr} :
    ∀ {l : Listing} {m : Machine} {d : Int} {vs : List Int64},
      (∀ e ∈ es, TypedIn p own signatures e) → (∀ e ∈ es, e.isArithmetic f.locals = true) →
      (exprsCode p es).Gives l → m.IsDown d → f.frame ≤ d → d + 8 * l.pushes + 8 ≤ 2 ^ 64 →
      m.Shows p f σ → es.mapM (Expr.value σ) = some vs →
      ∃ m', l.Leads env m m' ∧ m'.IsDown (d + 8 * vs.length) ∧ m'.Holds d vs ∧ Keeps d m m' := by
  have hpos := hframe.frame.1
  induction es with
  | nil =>
    intro l m d vs _ _ hl hm _ _ _ hvs
    cases hvs
    rw [exprsCode] at hl
    rw [hl.nothing]
    exact ⟨m, .nil m, by simpa using hm, trivial, .refl d m⟩
  | cons e es ih =>
    intro l m d vs he hint hl hm hd hroom hσ hvs
    obtain ⟨he, hes⟩ := List.forall_mem_cons.mp he
    obtain ⟨hint, hints⟩ := List.forall_mem_cons.mp hint
    rw [List.mapM_cons] at hvs
    obtain ⟨v, hv, htail⟩ := Option.bind_eq_some_iff.mp hvs
    obtain ⟨rest, hrest, hcons⟩ := Option.bind_eq_some_iff.mp htail
    cases hcons
    rw [exprsCode] at hl
    obtain ⟨a, b, ha, hb, rfl⟩ := hl.append
    have hpush := pushes_exprCode hint ha
    rw [Listing.pushes_append] at hroom
    obtain ⟨m₁, hm₁, hfirst⟩ :=
      leads_exprCode env hframe he hint ha hm hd (by omega) hσ hv
    obtain ⟨m₂, hm₂, hdown, hholds, hkeeps⟩ := ih hes hints hb hfirst.down (by omega) (by omega)
      (hσ.keeps hframe hfirst.toKeeps hd) hrest
    refine ⟨m₂, hm₁.append hm₂, ?_, ⟨?_, hholds⟩, hfirst.toKeeps.trans (hkeeps.mono (by omega))⟩
    · rw [List.length_cons]
      convert hdown using 1
      omega
    · rw [hkeeps.cell _ (by omega) le_rfl, hfirst.top]

/-! ## Storing -/

/-- The later machine has the frame's base, the word under it, and **the words above the frame** of
the earlier one. -/
structure Spares (frame d : Int) (m m' : Machine) : Prop where
  base : m'.regs .rbp = m.regs .rbp
  saved : m'.cell 0 = m.cell 0
  above : ∀ x, frame + 8 ≤ x → x ≤ d → m'.cell x = m.cell x

theorem Spares.of_keeps {m' : Machine} {frame : Int} (h : Keeps d m m') (hd : 0 ≤ frame ∧ frame ≤ d) :
    Spares frame d m m' :=
  ⟨h.base, h.cell 0 le_rfl (by omega), fun x _ _ => h.cell x (by omega) (by omega)⟩

theorem Spares.trans {m' m'' : Machine} {frame : Int} (h : Spares frame d m m')
    (h' : Spares frame d m' m'') : Spares frame d m m'' :=
  ⟨h'.base.trans h.base, h'.saved.trans h.saved,
    fun x hlow hhigh => (h'.above x hlow hhigh).trans (h.above x hlow hhigh)⟩

theorem Spares.mono {m' : Machine} {frame x : Int} (h : Spares frame d m m') (hx : x ≤ d) :
    Spares frame x m m' :=
  ⟨h.base, h.saved, fun y hlow hhigh => h.above y hlow (hhigh.trans hx)⟩

/-- Words on the stack above the frame are spared. -/
theorem Spares.holds {m' : Machine} {frame : Int} {vs : List Int64} (h : Spares frame d m m') :
    ∀ {x : Int}, frame ≤ x → x + 8 * vs.length ≤ d → m.Holds x vs → m'.Holds x vs := by
  induction vs with
  | nil => exact fun _ _ _ => trivial
  | cons v vs ih =>
    intro x hlow hhigh hholds
    rw [List.length_cons] at hhigh
    exact ⟨(h.above _ (by omega) (by omega)).trans hholds.1, ih (by omega) (by omega) hholds.2⟩

/-- A word stored in the slot of a local **is what the local holds**, and no other local changes. -/
theorem shows_setWord (hframe : IntFrame p f) {id : VarId} (hid : id ∈ f.locals) (v : Int64)
    (hσ : m.Shows p f σ) :
    (m.setWord (m.regs .rbp - Int64.ofInt (p.slot id)) v).Shows p f (Function.update σ id v) ∧
      (d + 8 ≤ 2 ^ 64 → Spares f.frame d m (m.setWord (m.regs .rbp - Int64.ofInt (p.slot id)) v)) := by
  obtain ⟨hlow, hhigh⟩ := hframe.inside id hid
  obtain ⟨hpos, hfits⟩ := hframe.frame
  unfold Word.greatest at hfits
  refine ⟨fun id' hid' => ?_, fun hd => ⟨rfl, ?_, fun x hx hxd => ?_⟩⟩
  · by_cases hne : id = id'
    · subst hne
      rw [cell_setWord, Function.update_self]
    · obtain ⟨hlow', hhigh'⟩ := hframe.inside id' hid'
      rw [cell_setWord_apart (hframe.apart id hid id' hid' hne) (by omega) (by omega),
        Function.update_of_ne (Ne.symm hne)]
      exact hσ id' hid'
  · exact cell_setWord_apart (.inr (by omega)) (by omega) (by omega) m v
  · exact cell_setWord_apart (.inl (by omega)) (by omega) (by omega) m v

/-- **The value on the stack is stored in the local** and taken off. -/
theorem leads_storeCode (hframe : IntFrame p f) {id : VarId} {loc : Nat} (hid : id ∈ f.locals)
    {v : Int64} (hm : m.IsDown (d + 8)) (hv : m.cell (d + 8) = v)
    (hd : f.frame ≤ d ∧ d + 24 ≤ 2 ^ 64) (hσ : m.Shows p f σ)
    (hl : (storeCode p (.var id .int loc)).Gives l) :
    ∃ m', l.Leads env m m' ∧ m'.IsDown d ∧ m'.Shows p f (Function.update σ id v) ∧
      Spares f.frame d m m' := by
  have hpos := hframe.frame.1
  obtain ⟨_, c, hl', hc, rfl⟩ := Code.Gives.append hl
  obtain ⟨_, b, hplace, hb, rfl⟩ := hl'.append
  rw [exprCode, variableAddress_local hframe hid] at hplace
  obtain ⟨a, _, ha, hnothing, rfl⟩ := hplace.append
  rw [hnothing.nothing, List.append_nil]
  -- the address is pushed on the value, and both are taken off
  obtain ⟨m₁, hm₁, haddress⟩ := leads_pushAddress env hm (by omega) ha
  obtain ⟨m₂, hm₂, hrax⟩ := exec_pop (r := .rax) env haddress.down (by decide)
  obtain ⟨m₃, hm₃, hrdi⟩ := exec_pop (r := .rdi) env hrax.down (by decide)
  have hkeeps : Keeps (d + 8) m m₃ := (haddress.toKeeps.trans hrax.keeps).trans hrdi.keeps
  have hvalue : m₃.regs .rdi = v := by
    rw [hrdi.value, hrax.keeps.cell (x := d + 8) (by omega) le_rfl,
      haddress.cell _ (by omega) le_rfl, hv]
  have hplace : m₃.locate env (.above .rax 0) = m₃.regs .rbp - Int64.ofInt (p.slot id) := by
    change m₃.regs .rax + 0 = _
    rw [Int64.add_zero, hrdi.regs .rax (by decide) (by decide), hrax.value, haddress.top, hkeeps.base]
    rfl
  -- between that the word is stored
  obtain ⟨hshows, hspares⟩ := shows_setWord (d := d) hframe hid v (hσ.keeps hframe hkeeps (by omega))
  have hpushed := pushed_pushWord (m := m₃.setWord (m₃.regs .rbp - Int64.ofInt (p.slot id)) v)
    (d := d) hrdi.down (by omega) v
  obtain ⟨m₄, hm₄, hdown, hdiscard⟩ := exec_discard env hpushed.down
  have hstore : execAll env [.pop .rax, .pop .rdi, .store (.above .rax 0) .rdi, .push .rdi] m₁ =
      some ((m₃.setWord (m₃.regs .rbp - Int64.ofInt (p.slot id)) v).pushWord v) := by
    rw [execAll, hm₂, Option.bind_some, execAll, hm₃, Option.bind_some]
    change some ((m₃.setWord (m₃.locate env _) (m₃.regs .rdi)).pushWord (m₃.regs .rdi)) = _
    rw [hplace, hvalue]
  refine ⟨m₄, (hm₁.append ⟨_, hb.ofInstrs, hstore⟩).append ⟨_, hc.ofInstrs, ?_⟩, hdown, ?_, ?_⟩
  · exact congrArg (Option.bind · some) hm₄
  · exact hshows.keeps hframe (hpushed.toKeeps.trans (hdiscard d)) hd.1
  · exact ((Spares.of_keeps (hkeeps.mono (by omega)) (by omega)).trans (hspares (by omega))).trans
      (Spares.of_keeps (hpushed.toKeeps.trans (hdiscard d)) (by omega))

/-- The address of the local and the value are pushed on the way. -/
theorem pushes_storeCode (hframe : IntFrame p f) {id : VarId} {loc : Nat} (hid : id ∈ f.locals)
    (hl : (storeCode p (.var id .int loc)).Gives l) : 2 ≤ l.pushes := by
  obtain ⟨_, c, hl', -, rfl⟩ := Code.Gives.append hl
  obtain ⟨_, b, hplace, hb, rfl⟩ := hl'.append
  rw [exprCode, variableAddress_local hframe hid] at hplace
  obtain ⟨a, _, ha, -, rfl⟩ := hplace.append
  have hpusha : a.pushes = 1 := by rw [ha.ofInstrs]; rfl
  have hpushb : b.pushes = 1 := by rw [Code.Gives.ofInstrs hb]; rfl
  simp only [Listing.pushes_append]
  omega

/-- **The values on the stack are stored**, the last one first, in distinct locals. -/
theorem leads_storesCode (hframe : IntFrame p f) {targets : List Expr} {ids : List VarId}
    (htargets : List.Forall₂ (fun target id => ∃ loc, target = .var id .int loc) targets ids) :
    ∀ {l : Listing} {m : Machine} {d : Int} {vs : List Int64}, (∀ id ∈ ids, id ∈ f.locals) →
      ids.Nodup → vs.length = ids.length → (storesCode p targets).Gives l →
      m.IsDown (d + 8 * vs.length) → m.Holds d vs → f.frame ≤ d →
      d + 8 * l.pushes + 8 ≤ 2 ^ 64 → m.Shows p f σ →
      ∃ m', l.Leads env m m' ∧ m'.IsDown d ∧ m'.Shows p f (σ.assign (ids.zip vs)) ∧
        Spares f.frame d m m' := by
  have hpos := hframe.frame.1
  induction htargets with
  | nil =>
    intro l m d vs _ _ hlen hl hm _ hd _ hσ
    obtain rfl := List.eq_nil_of_length_eq_zero hlen
    rw [storesCode] at hl
    rw [hl.nothing]
    exact ⟨m, .nil m, by simpa using hm, hσ, .of_keeps (.refl d m) ⟨hpos, hd⟩⟩
  | @cons target id targets ids htarget htargets ih =>
    intro l m d vs hids hnodup hlen hl hm hholds hd hroom hσ
    obtain ⟨loc, rfl⟩ := htarget
    obtain ⟨hid, hids⟩ := List.forall_mem_cons.mp hids
    obtain ⟨hnot, hnodup⟩ := List.nodup_cons.mp hnodup
    cases vs with
    | nil => cases hlen
    | cons v vs =>
    rw [storesCode] at hl
    obtain ⟨a, b, ha, hb, rfl⟩ := hl.append
    have hpush := pushes_storeCode hframe hid hb
    rw [Listing.pushes_append] at hroom
    rw [List.length_cons] at hm
    obtain ⟨m₁, hm₁, hdown, hshows, hspares⟩ := ih (d := d + 8) hids hnodup (Nat.succ.inj hlen) ha
      (by convert hm using 1; push_cast; omega) hholds.2 (by omega) (by omega) hσ
    obtain ⟨m₂, hm₂, hdown, hshows, hspares'⟩ := leads_storeCode env hframe hid hdown
      ((hspares.above _ (by omega) le_rfl).trans hholds.1) ⟨hd, by omega⟩ hshows hb
    refine ⟨m₂, hm₁.append hm₂, hdown, ?_, (hspares.mono (by omega)).trans hspares'⟩
    rw [List.zip_cons_cons, Store.assign_cons_of_notMem]
    · exact hshows
    · rwa [List.map_fst_zip (Nat.succ.inj hlen).ge]

end Lowering

end StackCompiler
