import Mathlib.Data.List.Find
import StackCompiler.Proofs.Agree
import StackCompiler.Proofs.Syntax.Numbered
import StackCompiler.Typing.Package

/-!
# Proofs/Typing/Numbered — types do not depend on numbers and places

A function may ask for some variables of the arena, and changes some of these alone: its own.  Typed
in another arena, where what it may ask for stands at **other numbers and places**, it comes to the
same types and the same frame under these numbers, or is refused for one reason (`Pairing`); and no
variable but its own is touched in either arena.
-/

namespace StackCompiler

open Typing

namespace Typing

/-- The variable is package-level and has its type, so that **nothing changes it**. -/
def Fixed (vars : List Variable) (id : VarId) : Prop :=
  ∃ v, vars[id]? = some v ∧ v.isLocal = false ∧ v.ty.isResolved = true

/-- Two arenas as they are before something is typed in both of them. -/
structure Pairing where
  numbers : Numbering
  injective : numbers.var.Injective
  /-- What may be asked for. -/
  known : VarId → Prop
  /-- What may be changed. -/
  own : VarId → Prop
  base : List Variable
  base' : List Variable
  fixed : ∀ (id : VarId) (v : Variable), known id → base[id]? = some v →
    v.isPlaceholder = false → own id ∨ Fixed base id

namespace Pairing

variable (w : Pairing)

/-- What a name may be bound to. -/
def Bound (id : VarId) : Prop :=
  w.known id ∧ (w.own id ∨ Fixed w.base id)

/-- How the arenas stand on the way: alike where they may be asked, and **untouched** but for what may
be changed. -/
structure Arenas (vars vars' : List Variable) : Prop where
  same : ∀ id, w.known id → SameVariable vars[id]? vars'[w.numbers.var id]?
  left : ∀ id, ¬w.own id → vars[id]? = w.base[id]?
  right : ∀ id, ¬w.own id → vars'[w.numbers.var id]? = w.base'[w.numbers.var id]?

/-- The same surroundings under other numbers, in which every name is one that **may be bound**. -/
structure Around (s s' : Surroundings) : Prop where
  locals : s'.locals = s.locals.map w.numbers.var
  globals : s'.globals = s.globals.map w.numbers.var
  bound : ∀ id ∈ s.locals ++ s.globals, w.Bound id
  signatures : ∀ name, s'.signature? name = s.signature? name

/-- The node names what may be asked for; if it has a type, **its variable is bound**. -/
def Sees (e : Expr) : Prop :=
  e.Names w.known ∧ (e.ty.isResolved = true → ∀ id ∈ e.root?, w.Bound id)

/-- One expression under other numbers; the variable in it is **bound**. -/
def Exprs (e e' : Expr) : Prop :=
  e' = e.numbered w.numbers ∧ ∀ id ∈ e.root?, w.Bound id

theorem bound_of_root?_eq_none {e : Expr} (h : e.root? = none) : ∀ id ∈ e.root?, w.Bound id :=
  fun _ hid => absurd (h.symm.trans hid) (Option.some_ne_none _).symm

end Pairing

variable {w : Pairing} {s s' : Surroundings} {vars vars' : List Variable}

theorem agree_refuse {α β : Type} {Q : α → β → Prop} (cause : Cause) (loc loc' : Nat) :
    Agree (refuse cause loc) (refuse cause loc') Q :=
  agree_refused cause loc loc'

/-! ## Variables -/

namespace Pairing

theorem Arenas.exists_variable (h : w.Arenas vars vars') {id : VarId} (hid : w.known id)
    {v : Variable} (hv : vars[id]? = some v) :
    ∃ v', vars'[w.numbers.var id]? = some v' ∧ v'.unplaced = v.unplaced := by
  have hsame := h.same id hid
  rw [SameVariable, hv] at hsame
  exact Option.map_eq_some_iff.mp hsame.symm

theorem agree_variableOf (h : w.Arenas vars vars') {id : VarId} (hid : w.known id) :
    Agree (variableOf vars id) (variableOf vars' (w.numbers.var id)) fun v v' =>
      vars[id]? = some v ∧ v'.unplaced = v.unplaced := by
  unfold variableOf
  cases hv : vars[id]? with
  | none =>
    have hsame := h.same id hid
    rw [SameVariable, hv] at hsame
    rw [Option.map_eq_none_iff.mp hsame.symm]
    exact rfl
  | some v =>
    obtain ⟨v', hv', hsame⟩ := h.exists_variable hid hv
    rw [hv']
    exact ⟨rfl, hsame⟩

theorem Arenas.isNamed_eq (h : w.Arenas vars vars') {id : VarId} (hid : w.known id) (name : String) :
    isNamed vars' name (w.numbers.var id) = isNamed vars name id := by
  have hname : ∀ v : Option Variable, v.any (·.name == name) =
      (v.map Variable.unplaced).any (·.name == name) := fun v => by cases v <;> rfl
  rw [isNamed, isNamed, hname, hname vars[id]?, h.same id hid]

theorem Around.find?_eq (hs : w.Around s s') (h : w.Arenas vars vars') (name : String) :
    s'.find? vars' name = (s.find? vars name).map w.numbers.var := by
  rw [Surroundings.find?, Surroundings.find?, hs.locals, hs.globals, ← List.map_append,
    List.find?_map]
  exact congrArg _ (List.find?_congr fun id hid => h.isNamed_eq (hs.bound id hid).1 name)

/-- A name is bound to **the same variable** in both arenas. -/
theorem agree_bind (hs : w.Around s s') (h : w.Arenas vars vars') {id : VarId} (hid : w.known id)
    (loc loc' : Nat) :
    Agree (s.bind vars id loc) (s'.bind vars' (w.numbers.var id) loc') fun id id' =>
      id' = w.numbers.var id ∧ w.Bound id := by
  refine (agree_variableOf h hid).bind ?_
  rintro v v' ⟨hv, hsame⟩
  have hplaceholder : v'.isPlaceholder = v.isPlaceholder := (congrArg Variable.isPlaceholder hsame :)
  have hname : v'.name = v.name := (congrArg Variable.name hsame :)
  rw [hplaceholder, hname, hs.find?_eq h]
  refine agree_ite (fun _ => ?_) fun hdeclared => ⟨rfl, hid, ?_⟩
  · cases hfound : s.find? vars v.name with
    | none => exact agree_refuse _ _ _
    | some bound => exact ⟨rfl, hs.bound bound (List.mem_of_find?_eq_some hfound)⟩
  · by_cases hown : w.own id
    · exact .inl hown
    · exact w.fixed id v hid (h.left id hown ▸ hv) (by simpa using hdeclared)

/-! ## Expressions -/

theorem agree_operationTy (op : BinaryOp) (lhs rhs : Ty) (loc loc' : Nat) :
    Agree (operationTy op lhs rhs loc) (operationTy op lhs rhs loc') Eq :=
  agree_ite (fun _ => agree_refuse _ _ _) fun _ =>
    agree_ite (fun _ => agree_refuse _ _ _) fun _ => rfl

theorem agree_checkArguments (n : Numbering) (name : String) (args : List Expr) (params : List Ty) :
    Agree (checkArguments name args params)
      (checkArguments name (args.map (Expr.numbered n)) params) Eq := by
  induction args generalizing params with
  | nil => exact rfl
  | cons arg args ih =>
    cases params with
    | nil => exact rfl
    | cons param params =>
      rw [List.map_cons, checkArguments, checkArguments, Expr.ty_numbered]
      exact agree_ite (fun _ => agree_refuse _ _ _) fun _ => ih params

theorem agree_checkCall (hs : w.Around s s') (name : String) (args : List Expr) (loc loc' : Nat) :
    Agree (checkCall s name args loc)
      (checkCall s' name (args.map (Expr.numbered w.numbers)) loc') Eq := by
  rw [checkCall, checkCall, hs.signatures]
  cases s.signature? name with
  | none => exact agree_refuse _ _ _
  | some signature =>
    dsimp only
    rw [List.length_map]
    exact agree_ite (fun _ => agree_refuse _ _ _) fun _ => agree_checkArguments _ _ _ _

theorem agree_typedAll {es : List Expr}
    (h : ∀ e ∈ es, Agree (typed s vars e) (typed s' vars' (e.numbered w.numbers)) w.Exprs) :
    Agree (typedAll s vars es) (typedAll s' vars' (es.map (Expr.numbered w.numbers)))
      (MadeBy (List.map (Expr.numbered w.numbers))) := by
  induction es with
  | nil => exact rfl
  | cons e es ih =>
    rw [List.map_cons, typedAll, typedAll]
    refine (h e List.mem_cons_self).bind ?_
    rintro e' _ ⟨rfl, -⟩
    refine (ih fun e he => h e (List.mem_cons_of_mem _ he)).bind ?_
    rintro es' _ rfl
    exact rfl

/-- **An expression gets its type whatever its numbers and places are.** -/
theorem agree_typed (hs : w.Around s s') (h : w.Arenas vars vars') {e : Expr}
    (he : e.Everywhere w.Sees) :
    Agree (typed s vars e) (typed s' vars' (e.numbered w.numbers)) w.Exprs := by
  induction he with
  | num he | str he =>
    rw [Expr.numbered, typed, typed]
    exact agree_ite (fun _ => ⟨rfl, w.bound_of_root?_eq_none rfl⟩) fun _ =>
      ⟨rfl, w.bound_of_root?_eq_none rfl⟩
  | @var id ty loc he =>
    rw [Expr.numbered, typed, typed]
    refine agree_ite (fun hr => ⟨rfl, he.2 hr⟩) fun _ => (agree_bind hs h he.1 loc 0).bind ?_
    rintro id _ ⟨rfl, hid⟩
    refine (agree_variableOf h hid.1).bind ?_
    rintro v v' ⟨-, hsame⟩
    have hty : v'.ty = v.ty := (congrArg Variable.ty hsame :)
    rw [hty]
    exact ⟨rfl, fun _ hroot => Option.some.inj hroot ▸ hid⟩
  | addr he _ ih | deref he _ ih =>
    rw [Expr.numbered, typed, typed]
    refine agree_ite (fun _ => ⟨rfl, w.bound_of_root?_eq_none rfl⟩) fun _ => ih.bind ?_
    rintro operand _ ⟨rfl, -⟩
    rw [Expr.ty_numbered]
    exact ⟨rfl, w.bound_of_root?_eq_none rfl⟩
  | @binary op lhs rhs ty loc he _ _ ihl ihr =>
    rw [Expr.numbered, typed, typed]
    refine agree_ite (fun _ => ⟨rfl, w.bound_of_root?_eq_none rfl⟩) fun _ => ihr.bind ?_
    rintro rhs _ ⟨rfl, -⟩
    refine ihl.bind ?_
    rintro lhs _ ⟨rfl, -⟩
    rw [Expr.ty_numbered, Expr.ty_numbered]
    refine (agree_operationTy op lhs.ty rhs.ty loc 0).bind ?_
    rintro ty _ rfl
    exact ⟨rfl, w.bound_of_root?_eq_none rfl⟩
  | index he _ _ ihb ihp =>
    rw [Expr.numbered, typed, typed]
    refine agree_ite (fun hr => ⟨rfl, he.2 hr⟩) fun _ => ihb.bind ?_
    rintro base _ ⟨rfl, hbase⟩
    refine ihp.bind ?_
    rintro position _ ⟨rfl, -⟩
    rw [Expr.ty_numbered]
    exact ⟨rfl, hbase⟩
  | @call name args ty loc he _ ih =>
    have hcall (args : List Expr) (ty : Ty) : w.Exprs (.call name args ty loc)
        (.call name (args.map (Expr.numbered w.numbers)) ty 0) :=
      ⟨(Expr.numbered_call w.numbers name args ty loc).symm, w.bound_of_root?_eq_none rfl⟩
    rw [Expr.numbered_call, typed, typed]
    refine agree_ite (fun _ => hcall args ty) fun _ => (agree_typedAll ih).bind ?_
    rintro args _ rfl
    refine (agree_checkCall hs name args loc 0).bind ?_
    rintro _ _ rfl
    exact hcall args .int

/-! ## Slots -/

variable (w) in
/-- The arenas stand as they should, and **as many bytes** are taken. -/
def Level (slots slots' : Slots) : Prop :=
  w.Arenas slots.vars slots'.vars ∧ slots'.taken = slots.taken

variable (w) in
/-- The steps agree from slots that belong together. -/
abbrev Steps {α β : Type} (R : α → β → Prop) (x : Layout α) (y : Layout β) : Prop :=
  Parallel w.Level R x y

theorem steps_refuse_bind {α β γ δ : Type} {R : α → β → Prop} (cause : Cause) (loc loc' : Nat)
    {f : γ → Layout α} {g : δ → Layout β} :
    w.Steps R (liftM (refuse (α := γ) cause loc) >>= f)
      (liftM (refuse (α := δ) cause loc') >>= g) :=
  (parallel_lift (R := fun _ _ => False) (agree_refuse cause loc loc')).bind nofun

theorem parallel_mapM {α β γ δ : Type} {T : Slots → Slots → Prop} {u : α → β} {v : γ → δ}
    {f : α → Layout γ} {g : β → Layout δ} {as : List α}
    (h : ∀ a ∈ as, Parallel T (MadeBy v) (f a) (g (u a))) :
    Parallel T (MadeBy (List.map v)) (as.mapM f) ((as.map u).mapM g) := by
  induction as with
  | nil => exact parallel_pure rfl
  | cons a as ih =>
    rw [List.map_cons, List.mapM_cons, List.mapM_cons]
    refine (h a List.mem_cons_self).bind ?_
    rintro c _ rfl
    refine (ih fun a ha => h a (List.mem_cons_of_mem _ ha)).bind ?_
    rintro cs _ rfl
    exact parallel_pure rfl

theorem steps_optional {α β γ δ : Type} {u : α → β} {v : γ → δ} {f : α → Layout γ}
    {g : β → Layout δ} {a : Option α} (h : ∀ b ∈ a, w.Steps (MadeBy v) (f b) (g (u b))) :
    w.Steps (MadeBy (Option.map v)) (a.mapM f) ((a.map u).mapM g) := by
  cases a with
  | none => exact parallel_pure rfl
  | some a => exact (h a rfl).map fun c _ hd => congrArg some hd

theorem steps_forM {f g : VarId → Layout PUnit} {ids : List VarId}
    (h : ∀ id ∈ ids, w.Steps Eq (f id) (g (w.numbers.var id))) :
    w.Steps Eq (ids.forM f) ((ids.map w.numbers.var).forM g) := by
  induction ids with
  | nil => exact parallel_pure rfl
  | cons id ids ih =>
    exact (h id List.mem_cons_self).bind fun _ _ _ => ih fun id hid => h id (List.mem_cons_of_mem _ hid)

theorem modify_eq_self {id : VarId} {f : Variable → Variable}
    (h : ∀ v, vars[id]? = some v → f v = v) : vars.modify id f = vars := by
  refine List.ext_getElem? fun i => ?_
  by_cases heq : id = i
  · subst heq
    rw [List.getElem?_modify_eq]
    cases hv : vars[id]? with
    | none => rfl
    | some v => exact congrArg some (h v hv)
  · exact List.getElem?_modify_ne f vars heq

/-- To change a variable that a name may be bound to **touches none but those that may be changed**. -/
theorem Arenas.modify (h : w.Arenas vars vars') {id : VarId} (hid : w.Bound id)
    {f : Variable → Variable} (hf : ∀ v, (f v).unplaced = f v.unplaced)
    (hkept : ¬w.own id → ∀ v : Variable, v.isLocal = false → v.ty.isResolved = true → f v = v) :
    w.Arenas (vars.modify id f) (vars'.modify (w.numbers.var id) f) := by
  by_cases hown : w.own id
  · have hne {i : VarId} (hi : ¬w.own i) : id ≠ i := fun heq => hi (heq ▸ hown)
    refine ⟨fun i hi => ?_, fun i hi => ?_, fun i hi => ?_⟩
    · by_cases heq : id = i
      · subst heq
        have hmap (v : Option Variable) : (v.map f).map Variable.unplaced =
            (v.map Variable.unplaced).map f := by cases v <;> simp [hf]
        rw [List.getElem?_modify_eq, List.getElem?_modify_eq]
        exact (hmap _).trans ((congrArg (Option.map f) (h.same id hi)).trans (hmap _).symm)
      · rw [List.getElem?_modify_ne f vars heq, List.getElem?_modify_ne f vars' (w.injective.ne heq)]
        exact h.same i hi
    · exact (List.getElem?_modify_ne f vars (hne hi)).trans (h.left i hi)
    · exact (List.getElem?_modify_ne f vars' (w.injective.ne (hne hi))).trans (h.right i hi)
  · -- what may not be changed is fixed, in both arenas
    obtain ⟨v, hv, hglobal, hr⟩ := hid.2.resolve_left hown
    obtain ⟨v', hv', hsame⟩ := h.exists_variable hid.1 ((h.left id hown).trans hv)
    have hglobal' : v'.isLocal = v.isLocal := (congrArg Variable.isLocal hsame :)
    have hty : v'.ty = v.ty := (congrArg Variable.ty hsame :)
    rw [modify_eq_self fun u hu => ?_, modify_eq_self fun u hu => ?_]
    · exact h
    · cases hv'.symm.trans hu
      exact hkept hown v' (hglobal'.trans hglobal) (hty ▸ hr)
    · cases (hv.symm.trans (h.left id hown).symm).trans hu
      exact hkept hown v hglobal hr

theorem steps_typedHere (hs : w.Around s s') {e : Expr} (he : e.Everywhere w.Sees) :
    w.Steps w.Exprs (typedHere s e) (typedHere s' (e.numbered w.numbers)) := by
  refine parallel_get.bind ?_
  rintro slots slots' ⟨harenas, -⟩
  exact parallel_lift (agree_typed hs harenas he)

theorem steps_giveType {id : VarId} (hid : w.Bound id) (ty : Ty) :
    w.Steps Eq (giveType id ty) (giveType (w.numbers.var id) ty) := by
  refine parallel_modify fun slots slots' ⟨harenas, htaken⟩ =>
    ⟨harenas.modify hid (fun v => ?_) fun _ v _ hr => if_pos hr, htaken⟩
  rw [Variable.ty_unplaced]
  split <;> rfl

theorem steps_place {id : VarId} (hid : w.Bound id) :
    w.Steps Eq (place id) (place (w.numbers.var id)) := by
  refine parallel_get.bind ?_
  rintro slots slots' ⟨harenas, htaken⟩
  refine (parallel_lift (agree_variableOf harenas hid.1)).bind ?_
  rintro v v' ⟨hv, hsame⟩
  have hlocal : v'.isLocal = v.isLocal := (congrArg Variable.isLocal hsame :)
  have hoffset : v'.offset = v.offset := (congrArg Variable.offset hsame :)
  have hty : v'.ty = v.ty := (congrArg Variable.ty hsame :)
  have hname : v'.name = v.name := (congrArg Variable.name hsame :)
  rw [hlocal, hoffset, hty, hname, htaken]
  refine parallel_ite (fun _ => parallel_pure rfl) fun hplaced => ?_
  refine parallel_ite (fun _ => steps_refuse_bind _ _ _) fun _ => ?_
  dsimp only
  cases Word.fit? (slots.taken + v.ty.size) with
  | none => exact parallel_lift (agree_refuse _ _ _)
  | some stop =>
    -- what gets a slot is a local, so it is one that may be changed
    refine parallel_set ⟨harenas.modify hid (fun _ => rfl) fun hown => ?_, rfl⟩
    obtain ⟨u, hu, hglobal, -⟩ := hid.2.resolve_left hown
    cases (hv.symm.trans (harenas.left id hown)).trans hu
    simp [hglobal] at hplaced

/-! ## Statements -/

section Statements

variable (hs : w.Around s s')

include hs

theorem steps_inferred {target : Expr} (ht : target.Everywhere w.Sees) (ty : Ty) :
    w.Steps (fun e e' => e' = e.numbered w.numbers ∧ e.Everywhere w.Sees) (inferred s target ty)
      (inferred s' (target.numbered w.numbers) ty) := by
  cases target with
  | var id t loc =>
    refine parallel_get.bind ?_
    rintro slots slots' ⟨harenas, -⟩
    refine (parallel_lift (agree_bind hs harenas ht.here.1 loc 0)).bind ?_
    rintro id _ ⟨rfl, hid⟩
    exact (steps_giveType hid ty).bind fun _ _ _ =>
      parallel_pure ⟨rfl, .var ⟨hid.1, fun _ _ hroot => Option.some.inj hroot ▸ hid⟩⟩
  | _ => exact parallel_pure ⟨rfl, ht⟩

omit hs in
theorem agree_checkStore (n : Numbering) (target value : Expr) :
    Agree (checkStore target value) (checkStore (target.numbered n) (value.numbered n)) Eq := by
  rw [checkStore, checkStore, Expr.ty_numbered, Expr.ty_numbered]
  exact agree_ite (fun _ => agree_refuse _ _ _) fun _ =>
    agree_ite (fun _ => agree_refuse _ _ _) fun _ => rfl

theorem steps_typedPair {pair : Expr × Expr} (ht : pair.1.Everywhere w.Sees)
    (hv : pair.2.Everywhere w.Sees) :
    w.Steps (MadeBy (Prod.map (Expr.numbered w.numbers) (Expr.numbered w.numbers)))
      (typedPair s pair)
      (typedPair s' (pair.map (Expr.numbered w.numbers) (Expr.numbered w.numbers))) := by
  obtain ⟨target, value⟩ := pair
  refine (steps_typedHere hs hv).bind ?_
  rintro value _ ⟨rfl, -⟩
  rw [Expr.ty_numbered]
  refine parallel_ite (fun _ => steps_refuse_bind _ _ _) fun _ => ?_
  refine (steps_inferred hs ht value.ty).bind ?_
  rintro target _ ⟨rfl, htarget⟩
  refine (steps_typedHere hs htarget).bind ?_
  rintro target _ ⟨rfl, hroot⟩
  refine (parallel_lift (agree_checkStore w.numbers target value)).bind ?_
  rintro _ _ rfl
  rw [Expr.root?_numbered]
  cases hfound : target.root? with
  | none => exact parallel_pure rfl
  | some id => exact (steps_place (hroot id hfound)).bind fun _ _ _ => parallel_pure rfl

theorem steps_typedAssignment {targets values : List Expr}
    (ht : ∀ e ∈ targets, e.Everywhere w.Sees) (hv : ∀ e ∈ values, e.Everywhere w.Sees) (loc : Nat) :
    w.Steps (MadeBy (Stmt.numbered w.numbers)) (typedAssignment s targets values loc)
      (typedAssignment s' (targets.map (Expr.numbered w.numbers))
        (values.map (Expr.numbered w.numbers)) 0) := by
  unfold typedAssignment
  rw [List.length_map, List.length_map, List.zip_map]
  refine parallel_ite (fun _ => steps_refuse_bind _ _ _) fun _ => ?_
  refine (parallel_mapM fun pair hpair => steps_typedPair hs (ht _ (List.of_mem_zip hpair).1)
    (hv _ (List.of_mem_zip hpair).2)).bind ?_
  rintro pairs _ rfl
  refine parallel_pure ?_
  rw [MadeBy, Stmt.numbered, List.map_map, List.map_map, List.map_map, List.map_map]
  rfl

omit hs in
theorem steps_typedStmts {stmts : List Stmt}
    (h : ∀ st ∈ stmts, w.Steps (MadeBy (Stmt.numbered w.numbers)) (typedStmt s st)
      (typedStmt s' (st.numbered w.numbers))) :
    w.Steps (MadeBy (List.map (Stmt.numbered w.numbers))) (typedStmts s stmts)
      (typedStmts s' (stmts.map (Stmt.numbered w.numbers))) := by
  induction stmts with
  | nil => exact parallel_pure rfl
  | cons st stmts ih =>
    rw [List.map_cons, typedStmts, typedStmts]
    refine (h st List.mem_cons_self).bind ?_
    rintro st _ rfl
    refine (ih fun st hst => h st (List.mem_cons_of_mem _ hst)).bind ?_
    rintro stmts _ rfl
    exact parallel_pure rfl

/-- **A statement gets its types and slots whatever its numbers and places are.** -/
theorem steps_typedStmt {st : Stmt} (hst : st.Everywhere w.Sees fun _ => True) :
    w.Steps (MadeBy (Stmt.numbered w.numbers)) (typedStmt s st)
      (typedStmt s' (st.numbered w.numbers)) := by
  have hhere {e : Expr} (he : e.Everywhere w.Sees) : w.Steps (MadeBy (Expr.numbered w.numbers))
      (typedHere s e) (typedHere s' (e.numbered w.numbers)) :=
    fun slots slots' hslots => (steps_typedHere hs he slots slots' hslots).mono
      fun _ _ ⟨he', hslots'⟩ => ⟨he'.1, hslots'⟩
  induction hst with
  | expr _ he =>
    refine (hhere he).bind ?_
    rintro value _ rfl
    exact parallel_pure rfl
  | ret _ he =>
    refine (steps_optional fun e hm => hhere (he e hm)).bind ?_
    rintro value _ rfl
    exact parallel_pure rfl
  | block _ _ ih =>
    rw [Stmt.numbered_block]
    refine (steps_typedStmts ih).bind ?_
    rintro body _ rfl
    exact parallel_pure (Stmt.numbered_block w.numbers body).symm
  | branch _ _ hc _ _ ihi ihb iho =>
    rw [Stmt.numbered_branch]
    refine ihi.bind ?_
    rintro init _ rfl
    refine (hhere hc).bind ?_
    rintro cond _ rfl
    refine (steps_typedStmts ihb).bind ?_
    rintro body _ rfl
    refine iho.bind ?_
    rintro otherwise _ rfl
    exact parallel_pure (Stmt.numbered_branch w.numbers init cond body otherwise).symm
  | @loop _ _ _ _ loc _ _ hc _ _ ihi ihp ihb =>
    rw [Stmt.numbered_loop]
    refine ihi.bind ?_
    rintro init _ rfl
    refine (steps_optional fun e hm => hhere (hc e hm)).bind ?_
    rintro cond _ rfl
    refine (steps_typedStmts ihb).bind ?_
    rintro body _ rfl
    refine ihp.bind ?_
    rintro post _ rfl
    exact parallel_pure (Stmt.numbered_loop w.numbers init cond post body loc).symm
  | assign _ ht hv => exact steps_typedAssignment hs ht hv _
  | print _ ha =>
    refine (parallel_mapM fun e hm => hhere (ha e hm)).bind ?_
    rintro args _ rfl
    exact parallel_pure rfl
  | empty => exact parallel_pure rfl

end Statements

/-! ## Functions -/

theorem Arenas.tyOf_eq (h : w.Arenas vars vars') {id : VarId} (hid : w.known id) :
    tyOf vars' (w.numbers.var id) = tyOf vars id := by
  have hty : ∀ v : Option Variable, v.elim .unknown (·.ty) =
      (v.map Variable.unplaced).elim .unknown (·.ty) := fun v => by cases v <;> rfl
  rw [tyOf, tyOf, hty, hty vars[id]?, h.same id hid]

theorem Arenas.reach_eq (h : w.Arenas vars vars') {locals : List VarId}
    (hlocals : ∀ id ∈ locals, w.known id) :
    reach vars' (locals.map w.numbers.var) = reach vars locals := by
  have hoffset : ∀ v : Option Variable, v.elim 0 (·.offset) =
      (v.map Variable.unplaced).elim 0 (·.offset) := fun v => by cases v <;> rfl
  unfold reach
  rw [List.map_map]
  refine congrArg (List.foldl max 0) (List.map_congr_left fun id hid => ?_)
  dsimp only [Function.comp]
  rw [hoffset, hoffset vars[id]?, h.same id (hlocals id hid)]

variable {signatures signatures' : List Signature} {globals globals' : List VarId} {f : Function}

/-- **A function gets its types and its frame whatever its numbers and places are.** -/
theorem parallel_typedFunction
    (hs : w.Around ⟨f.locals, globals, signatures⟩
      ⟨f.locals.map w.numbers.var, globals', signatures'⟩)
    (hparams : ∀ id ∈ f.params, w.Bound id) (hbody : ∀ st ∈ f.body, st.Everywhere w.Sees fun _ => True) :
    Parallel (fun slots slots' => w.Arenas slots.vars slots'.vars)
      (MadeBy (Function.numbered w.numbers)) (typedFunction globals signatures f)
      (typedFunction globals' signatures' (f.numbered w.numbers)) := by
  rintro slots slots' hslots
  have hlocals : ∀ id ∈ f.locals, w.Bound id := fun id hid =>
    hs.bound id (List.mem_append_left _ hid)
  have hbody' : (f.numbered w.numbers).body = f.body.map (Stmt.numbered w.numbers) :=
    Stmt.numberedAll_eq_map _ _
  unfold typedFunction
  rw [hbody']
  refine Agree.mono (Q := fun p q => q.1 = p.1.numbered w.numbers ∧ w.Level p.2 q.2) ?_
    fun _ _ ⟨hf, harenas, _⟩ => ⟨hf, harenas⟩
  rw [StateT.run_bind, StateT.run_bind]
  have hstart : w.Level ⟨slots.vars, reach slots.vars f.locals⟩
      ⟨slots'.vars, reach slots'.vars (f.locals.map w.numbers.var)⟩ :=
    ⟨hslots, hslots.reach_eq fun id hid => (hlocals id hid).1⟩
  refine Agree.bind (Q := fun p q => w.Level p.2 q.2) (by exact hstart) fun p q hpq => ?_
  refine (?_ : w.Steps (MadeBy (Function.numbered w.numbers)) _ _) p.2 q.2 hpq
  refine (steps_forM fun id hid => steps_place (hparams id hid)).bind fun _ _ _ => ?_
  refine (steps_typedStmts fun st hst => steps_typedStmt hs (hbody st hst)).bind ?_
  rintro body _ rfl
  refine (steps_forM fun id hid => steps_place (hlocals id hid)).bind fun _ _ _ => ?_
  refine parallel_get.bind ?_
  rintro slots slots' ⟨-, htaken⟩
  rw [htaken]
  cases Word.alignUp? slots.taken frameAlignment with
  | none => exact parallel_lift (agree_refuse _ _ _)
  | some frame =>
    refine parallel_pure ?_
    simp only [MadeBy, Function.numbered, Stmt.numberedAll_eq_map]

theorem Arenas.signatureOf_eq (h : w.Arenas vars vars') (hparams : ∀ id ∈ f.params, w.known id) :
    signatureOf vars' (f.numbered w.numbers) = signatureOf vars f := by
  rw [signatureOf, signatureOf, Function.numbered, List.map_map]
  exact congrArg (Signature.mk f.name) (List.map_congr_left fun id hid => h.tyOf_eq (hparams id hid))

theorem agree_checkParameters (h : w.Arenas vars vars') (hparams : ∀ id ∈ f.params, w.known id) :
    Agree (checkParameters vars f) (checkParameters vars' (f.numbered w.numbers)) Eq := by
  have hsignature := congrArg Signature.params (h.signatureOf_eq hparams)
  unfold checkParameters
  rw [show (f.numbered w.numbers).params.map (tyOf vars') = f.params.map (tyOf vars) from hsignature]
  exact agree_ite (fun _ => agree_refuse _ _ _) fun _ => rfl

theorem agree_checkGlobal (h : w.Arenas vars vars') {id : VarId} (hid : w.known id) :
    Agree (checkGlobal vars id) (checkGlobal vars' (w.numbers.var id)) Eq := by
  refine (agree_variableOf h hid).bind ?_
  rintro v v' ⟨-, hsame⟩
  have hty : v'.ty = v.ty := (congrArg Variable.ty hsame :)
  have hname : v'.name = v.name := (congrArg Variable.name hsame :)
  rw [hty, hname]
  exact agree_ite (fun _ => agree_refuse _ _ _) fun _ => rfl

/-! ## Whole arenas -/

/-- Two arenas of which all may be asked for and changed. -/
def whole (n : Numbering) (hn : n.var.Injective) : Pairing :=
  ⟨n, hn, fun _ => True, fun _ => True, [], [], fun _ _ _ _ _ => .inl trivial⟩

section Whole

variable {n : Numbering} {hn : n.var.Injective}

theorem bound_whole (id : VarId) : (whole n hn).Bound id :=
  ⟨trivial, .inl trivial⟩

theorem arenas_whole_iff :
    (whole n hn).Arenas vars vars' ↔ ∀ id : VarId, SameVariable vars[id]? vars'[n.var id]? :=
  ⟨fun h id => h.same id trivial, fun h => ⟨fun id _ => h id, fun _ h => absurd trivial h,
    fun _ h => absurd trivial h⟩⟩

theorem sees_whole (e : Expr) : (whole n hn).Sees e := by
  refine ⟨?_, fun _ id _ => bound_whole id⟩
  cases e <;> trivial

/-- **Functions get their types and frames whatever all the numbers and places are.** -/
theorem parallel_typedFunctions (hn : n.var.Injective) (globals : List VarId)
    (hsignatures : ∀ name, signatures'.find? (·.name == name) = signatures.find? (·.name == name))
    (fs : List Function) :
    Parallel (fun slots slots' => (whole n hn).Arenas slots.vars slots'.vars)
      (MadeBy (List.map (Function.numbered n))) (fs.mapM (typedFunction globals signatures))
      ((fs.map (Function.numbered n)).mapM (typedFunction (globals.map n.var) signatures')) :=
  parallel_mapM fun _ _ => parallel_typedFunction (w := whole n hn)
    ⟨rfl, rfl, fun id _ => bound_whole id, hsignatures⟩ (fun id _ => bound_whole id)
    fun st _ => st.everywhere_of_forall sees_whole fun _ => trivial

end Whole

end Pairing

end Typing

/-- **Types and frames do not depend on places.** -/
theorem Program.agree_resolve (p : Program) :
    Agree p.resolve p.unplaced.resolve (SameBy Program.unplaced) := by
  let w := Pairing.whole .same Function.injective_id
  have harenas : w.Arenas p.vars (p.vars.map Variable.unplaced) :=
    Pairing.arenas_whole_iff.mpr p.sameVariable_unplaced
  have hsignatures : (p.declared.map Function.unplaced).map
      (signatureOf (p.vars.map Variable.unplaced)) = p.declared.map (signatureOf p.vars) := by
    rw [List.map_map]
    exact List.map_congr_left fun f _ => harenas.signatureOf_eq fun _ _ => trivial
  unfold resolve
  rw [declared_unplaced]
  dsimp only [unplaced]
  rw [hsignatures]
  refine (agree_forM (fun f _ hf => ?_) (forall₂_madeBy Function.unplaced p.declared)).bind
    fun _ _ _ => ?_
  · exact hf ▸ Pairing.agree_checkParameters harenas fun _ _ => trivial
  have hfuncs := Pairing.parallel_typedFunctions (n := .same) Function.injective_id p.globals
    (fun name => Eq.refl ((p.declared.map (signatureOf p.vars)).find? (·.name == name))) p.funcs
    ⟨p.vars, 0⟩ ⟨p.vars.map Variable.unplaced, 0⟩ harenas
  rw [show p.globals.map Numbering.same.var = p.globals from List.map_id _] at hfuncs
  refine hfuncs.bind ?_
  rintro ⟨funcs, slots⟩ ⟨_, slots'⟩ ⟨rfl, harenas⟩
  refine (agree_forM (R := Eq) (fun id _ hid => ?_) (List.forall₂_same.mpr fun _ _ => rfl)).bind
    fun _ _ _ => ?_
  · exact hid ▸ Pairing.agree_checkGlobal harenas trivial
  · have hvars : slots.vars.map Variable.unplaced = slots'.vars.map Variable.unplaced :=
      List.ext_getElem? fun i => by
        rw [List.getElem?_map, List.getElem?_map]
        exact harenas.same i trivial
    exact congrArg₂ (Program.mk p.package · p.globals p.strings ·) hvars
      (Function.map_numbered_unplaced .same funcs).symm

end StackCompiler
