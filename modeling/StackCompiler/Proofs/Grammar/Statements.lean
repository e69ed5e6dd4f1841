import StackCompiler.Grammar.Statements
import StackCompiler.Proofs.Grammar.Expressions

/-!
# Proofs/Grammar/Statements — the statements that are read

Statements are read like expressions, into trees of which the rules of what has been read hold.
A declaration adds a variable **of its own** to the arena, so it is the only thing that makes the
list of locals longer.
-/

namespace StackCompiler.Grammar

variable {floor : Nat}

/-! ## Declarations -/

section Listed

variable {r : Reading} {ty : Ty} {name : String}

/-- The name of a new variable is that of **no visible one** if it is not taken. -/
theorem Reading.Sound.distinct_addVariable (hr : r.Sound floor) (hnew : r.lookup? name = none)
    {loc : Nat} {ids : List VarId} (hids : ∀ id ∈ ids, id ∈ r.visible ∨ id = r.vars.length) :
    ∀ id ∈ ids, ∀ id' ∈ ids, ∀ v v' : Variable,
      (r.addVariable name ty loc false).vars[id]? = some v →
      (r.addVariable name ty loc false).vars[id']? = some v' → v.name = v'.name → id = id' := by
  have hlast : (r.addVariable name ty loc false).vars[r.vars.length]? =
      some ⟨name, 0, r.scope.isSome, ty, loc, false⟩ := List.getElem?_concat_length
  intro id hid id' hid' v v' hv hv' hname
  rcases hids id hid with hid | rfl <;> rcases hids id' hid' with hid' | rfl
  · exact hr.named.distinct id hid id' hid' v v' (hr.getElem?_of_mem_visible hid hv)
      (hr.getElem?_of_mem_visible hid' hv') hname
  · cases hlast.symm.trans hv'
    exact absurd hname (Reading.name_ne_of_lookup? hnew hid (hr.getElem?_of_mem_visible hid hv))
  · cases hlast.symm.trans hv
    exact absurd hname.symm
      (Reading.name_ne_of_lookup? hnew hid' (hr.getElem?_of_mem_visible hid' hv'))
  · rfl

/-- A number above all those of an ascending list **may stand behind them**. -/
theorem pairwise_concat {ids : List VarId} {new : VarId} (h : ids.Pairwise (· < ·))
    (hlt : ∀ id ∈ ids, id < new) : (ids ++ [new]).Pairwise (· < ·) :=
  List.pairwise_append.mpr ⟨h, List.pairwise_singleton _ _, fun id hid =>
    List.forall_mem_singleton.mpr (hlt id hid)⟩

theorem Reading.listed_addVariable_of_none (hscope : r.scope = none) (name : String) (ty : Ty) (loc : Nat) :
    (r.addVariable name ty loc false).listed r.vars.length =
      { r.addVariable name ty loc false with globals := r.globals ++ [r.vars.length] } := by
  rw [Reading.listed, Reading.addVariable, hscope]

/-- Outside of functions a new variable is **listed as a global**. -/
theorem Reading.Sound.listed_global (hr : r.Sound floor) (hty : ty.Proper) (loc : Nat)
    (hnew : r.lookup? name = none) (hscope : r.scope = none) :
    ((r.addVariable name ty loc false).listed r.vars.length).Sound floor ∧
      r.Grows ((r.addVariable name ty loc false).listed r.vars.length) := by
  have hg := r.grows_addVariable name ty loc false
  have hnone : (r.addVariable name ty loc false).scope = none := hscope
  rw [Reading.listed_addVariable_of_none hscope]
  refine ⟨⟨fun id hid => ?_, fun h => ?_, fun ls hls => ?_, fun ls hls => ?_,
    ⟨fun id v hv hp hl => ?_, fun id v _ _ _ _ ls hls => ?_,
      hr.distinct_addVariable hnew fun id hid => ?_⟩,
    Reading.forall_mem_addVariable hr.slotless rfl, Reading.forall_mem_addVariable hr.proper hty,
    pairwise_concat hr.ordered fun id hid => hr.lt_of_mem_visible (List.mem_append_right _ hid),
    Reading.forall_mem_addVariable hr.blank fun h => absurd h Bool.false_ne_true⟩,
    ⟨hg.vars, hg.strings, hg.isSome_scope, hg.scope, hg.added, fun id hid => ?_⟩⟩
  · rcases List.mem_append.mp hid with hid | hid
    · obtain ⟨w, hw, hglobal⟩ := hr.globals id hid
      exact ⟨w, hg.getElem? hw, hglobal⟩
    · cases List.mem_singleton.mp hid
      exact ⟨_, List.getElem?_concat_length, by rw [hscope]; rfl, rfl⟩
  · rw [hnone] at h; cases h
  · rw [hnone] at hls; cases hls
  · rw [hnone] at hls; cases hls
  · rcases Reading.getElem?_addVariable hv with hv | ⟨rfl, -⟩
    · exact List.mem_append_left _ (hr.named.global id v hv hp hl)
    · exact List.mem_append_right _ List.mem_cons_self
  · rw [hnone] at hls; cases hls
  · simpa [Reading.visible, hscope, hnone] using hid
  · rcases List.mem_append.mp hid with hid | hid
    · exact .inl hid
    · exact .inr (List.mem_singleton.mp hid).ge

/-- In a function a new variable is **listed behind the other locals**. -/
theorem Reading.Sound.listed_local (hr : r.Sound floor) (hty : ty.Proper) (loc : Nat)
    (hnew : r.lookup? name = none) {locals : List VarId} (hscope : r.scope = some locals) :
    ((r.addVariable name ty loc false).listed r.vars.length).Sound floor ∧
      r.Grows ((r.addVariable name ty loc false).listed r.vars.length) := by
  have hg := r.grows_addVariable name ty loc false
  have hlisted : (r.addVariable name ty loc false).listed r.vars.length =
      { r.addVariable name ty loc false with scope := some (locals ++ [r.vars.length]) } := by
    rw [Reading.listed, Reading.addVariable, hscope]
  have hsome : r.scope.isSome = true := by rw [hscope]; rfl
  rw [hlisted]
  refine ⟨⟨fun id hid => ?_, fun _ => (hr.floor_le hsome).trans hg.vars.length_le,
    fun ls hls => ?_, fun ls hls id hid => ?_, ⟨fun id v hv hp hl => ?_,
    fun id v hle hv hp hl ls hls => ?_, hr.distinct_addVariable hnew fun id hid => ?_⟩,
    Reading.forall_mem_addVariable hr.slotless rfl, Reading.forall_mem_addVariable hr.proper hty,
    hr.ordered, Reading.forall_mem_addVariable hr.blank fun h => absurd h Bool.false_ne_true⟩,
    ⟨hg.vars, hg.strings, hsome.symm, fun ls hls ls' hls' => ?_, hg.added, fun _ => .inl⟩⟩
  · obtain ⟨w, hw, hglobal⟩ := hr.globals id hid
    exact ⟨w, hg.getElem? hw, hglobal⟩
  · cases hls
    exact pairwise_concat (hr.ascending locals hscope) fun id hid =>
      hr.lt_of_mem_visible (List.mem_append_left _ (by rw [hscope]; exact hid))
  · cases hls
    rcases List.mem_append.mp hid with hid | hid
    · obtain ⟨hle, w, hw, hlocal⟩ := hr.locals locals hscope id hid
      exact ⟨hle, w, hg.getElem? hw, hlocal⟩
    · cases List.mem_singleton.mp hid
      exact ⟨hr.floor_le hsome, _, List.getElem?_concat_length, hsome, rfl⟩
  · rcases Reading.getElem?_addVariable hv with hv | ⟨-, rfl⟩
    · exact hr.named.global id v hv hp hl
    · rw [hsome] at hl; cases hl
  · cases hls
    rcases Reading.getElem?_addVariable hv with hv | ⟨rfl, -⟩
    · exact List.mem_append_left _ (hr.named.own id v hle hv hp hl locals hscope)
    · exact List.mem_append_right _ List.mem_cons_self
  · rw [Reading.visible, hscope]
    rcases List.mem_append.mp hid with hid | hid
    · rcases List.mem_append.mp hid with hid | hid
      · exact .inl (List.mem_append_left _ hid)
      · exact .inr (List.mem_singleton.mp hid)
    · exact .inl (List.mem_append_right _ hid)
  · cases hscope.symm.trans hls
    cases hls'
    exact List.prefix_append _ _

/-- A new variable that is listed as well, under a name that is **not taken**, leaves the tables
sound. -/
theorem Reading.Sound.listed (hr : r.Sound floor) (hty : ty.Proper) (loc : Nat)
    (hnew : r.lookup? name = none) :
    ((r.addVariable name ty loc false).listed r.vars.length).Sound floor ∧
      r.Grows ((r.addVariable name ty loc false).listed r.vars.length) := by
  cases hscope : r.scope with
  | none => exact hr.listed_global hty loc hnew hscope
  | some locals => exact hr.listed_local hty loc hnew hscope

end Listed

/-- A declared variable is one of the function's own, and **comes after its locals** if a function
is being read. -/
theorem keeps_declare (name : String) {ty : Ty} (hty : ty.Proper) (loc : Nat) {r : Reading}
    (hr : r.Sound floor) :
    Ensures (declare name ty loc) r (Kept floor r fun id r' =>
      InArena r'.vars (floor ≤ ·) id ∧
        (∃ v, r'.vars[id]? = some v ∧ v.ty = ty ∧ v.isPlaceholder = false) ∧
        r'.scope = r.scope.map (· ++ [id])) := by
  unfold declare
  simp only [ensures_bind, ensures_get]
  split
  · exact ensures_refuse_bind _ _ _ _
  next hnew =>
  simp only [ensures_bind, ensures_set, ensures_pure]
  obtain ⟨hs, hg⟩ := hr.listed hty loc (Option.not_isSome_iff_eq_none.mp hnew)
  have hvars : ((r.addVariable name ty loc false).listed r.vars.length).vars =
      (r.addVariable name ty loc false).vars := by
    unfold Reading.listed
    split <;> rfl
  refine ⟨hs, hg, hvars ▸ Reading.addVariable_inArena hr name ty loc false,
    ⟨⟨name, 0, r.scope.isSome, ty, loc, false⟩, ?_, rfl, rfl⟩, ?_⟩
  · rw [hvars]
    exact List.getElem?_concat_length
  · unfold Reading.listed
    split
    · next h => rw [show r.scope = _ from h]; rfl
    · next h => rw [show r.scope = _ from h]; exact h

theorem quiet_atStatementEnd : Quiet atStatementEnd fun _ => True :=
  (quiet_ahead ";").andThen fun _ _ => (quiet_ahead "\x7d").andThen fun _ _ =>
    quiet_atEnd.andThen fun _ _ => quiet_pure trivial

theorem quiet_endStatement : Quiet endStatement fun _ => True := by
  refine (quiet_accept ";").andThen fun found _ => ?_
  cases found with
  | true => exact quiet_pure trivial
  | false =>
    refine (quiet_ahead "\x7d").andThen fun brace _ => quiet_atEnd.andThen fun finished _ => ?_
    cases brace || finished with
    | true => exact quiet_pure trivial
    | false => exact (quiet_expect ";").andThen fun _ _ => quiet_pure trivial

/-- A place that values can be assigned to. -/
abbrev Reading.Assignable (r : Reading) (e : Expr) : Prop :=
  e.isLvalue = true ∧ e.IsKnown r.vars

theorem Reading.Grows.assignable {r r' : Reading} (h : r.Grows r') {e : Expr}
    (he : r.Assignable e) : r'.Assignable e :=
  ⟨he.1, h.isKnown he.2⟩

/-- An assignment to places is **a statement that has been read** if its parts are. -/
theorem Reading.hasStmt_assign {r : Reading} {targets values : List Expr} {loc : Nat}
    (hplaces : ∀ t ∈ targets, r.Assignable t) (htargets : ∀ t ∈ targets, r.HasExpr floor t)
    (hvalues : ∀ e ∈ values, r.HasExpr floor e) : r.HasStmt floor (.assign targets values loc) :=
  .assign ⟨fun t ht => (hplaces t ht).1, fun t ht => (hplaces t ht).2⟩ htargets hvalues

/-- What a declared variable starts with has been read. -/
def Initial.Read (floor : Nat) (r : Reading) : Initial → Prop
  | .zero => True
  | .value e => r.HasExpr floor e
  | .elements es => ∀ e ∈ es, r.HasExpr floor e

theorem Initial.Read.mono {r r' : Reading} (hg : r.Grows r') {init : Initial}
    (h : init.Read floor r) : init.Read floor r' := by
  cases init with
  | zero => trivial
  | value e => exact hg.hasExpr h
  | elements es => exact hg.hasExprs h

theorem keeps_initial : Keeps floor initial fun init r => init.Read floor r := by
  intro r hr
  refine (quiet_accept "=").bind hr fun given r hr _ _ => ?_
  cases given with
  | false => exact kept_pure hr trivial
  | true =>
    refine (quiet_accept "\x7b").bind hr fun list r hr _ _ => ?_
    cases list with
    | true =>
      exact (keeps_exprsUntil "\x7d" keeps_expression).bind hr fun es r hr _ hes =>
        kept_pure hr hes
    | false => exact keeps_expression.bind hr fun e r hr _ he => kept_pure hr he

theorem quiet_endDeclaration (init : Initial) : Quiet (endDeclaration init) fun _ => True := by
  unfold endDeclaration
  split
  · refine quiet_atLineStart.andThen fun fresh _ => ?_
    cases fresh with
    | true => exact quiet_pure trivial
    | false => exact quiet_endStatement
  · exact quiet_endStatement

theorem keeps_zeroValue {ty : Ty} (hty : ty.Proper) (harray : ty.isArray = false) (loc : Nat) :
    ReadsExpr floor (zeroValue ty loc) := by
  intro r hr
  unfold zeroValue
  split
  · exact (keeps_intern "").bind hr fun i r hr _ hi => kept_pure hr (.str ⟨⟨rfl, hi⟩, trivial⟩)
  · next hstring =>
    exact kept_pure hr (.num ⟨⟨Bool.eq_false_iff.mpr hstring, harray, hty⟩, trivial⟩)

theorem keeps_elementwise {target : Expr} {elements : List Expr} (loc : Nat) {r : Reading}
    (hr : r.Sound floor) (htarget : r.HasExpr floor target)
    (helements : ∀ e ∈ elements, r.HasExpr floor e) :
    Ensures (elementwise target elements loc) r (Kept floor r fun s r => r.HasStmt floor s) := by
  unfold elementwise
  split
  · exact kept_pure hr (.empty ⟨trivial, trivial⟩)
  refine Course.andThen (Course.mapM (c := tables floor)
    (P := fun e r => r.HasExpr floor e ∧ r.Assignable e)
    (fun hg he => ⟨hg.hasExpr he.1, hg.assignable he.2⟩) _ hr fun _ _ r' hr' hg => ?_)
    fun targets r' hr' hg htargets => ?_
  · exact keeps_indexed _ hr' (hg.hasExpr htarget) (.num ⟨⟨rfl, rfl, trivial⟩, trivial⟩)
  · exact kept_pure hr' (Reading.hasStmt_assign (fun t ht => (htargets t ht).2)
      (fun t ht => (htargets t ht).1) (hg.hasExprs helements))

theorem keeps_initialAssignment {id : VarId} {ty : Ty} (hty : ty.Proper) (isGlobal : Bool)
    (loc : Nat) {init : Initial} {r : Reading} (hr : r.Sound floor)
    (hid : InArena r.vars (floor ≤ ·) id) (hknown : (Expr.var id .unknown loc).IsKnown r.vars)
    (hinit : init.Read floor r) :
    Ensures (initialAssignment id ty isGlobal loc init) r
      (Kept floor r fun s r => r.HasStmt floor s) := by
  have hassign {r' : Reading} (hg : r.Grows r') {value : Expr} (hvalue : r'.HasExpr floor value) :
      r'.HasStmt floor (.assign [.var id .unknown loc] [value] loc) :=
    Reading.hasStmt_assign (List.forall_mem_singleton.mpr ⟨rfl, hg.isKnown hknown⟩)
      (List.forall_mem_singleton.mpr (.var ⟨⟨rfl, hg.inArena hid⟩, trivial⟩))
      (List.forall_mem_singleton.mpr hvalue)
  cases init with
  | value value => exact kept_pure hr (hassign (.refl r) hinit)
  | elements es =>
    dsimp only [initialAssignment]
    split
    · exact keeps_elementwise loc hr (.var ⟨⟨rfl, hid⟩, trivial⟩) hinit
    · exact ensures_refuse _ _ _
  | zero =>
    dsimp only [initialAssignment]
    split
    · exact kept_pure hr (.empty ⟨trivial, trivial⟩)
    · next h =>
      have harray : ty.isArray = false := by
        rw [Bool.or_eq_true, not_or] at h
        exact Bool.eq_false_iff.mpr h.2
      exact (keeps_zeroValue hty harray loc).bind hr fun value r' hr' hg hvalue =>
        kept_pure hr' (hassign hg hvalue)

/-- What follows the name and the type of a declaration. -/
theorem keeps_declarationRest (name : String) {ty : Ty} (hty : ty.Proper) (loc : Nat) {r : Reading}
    (hr : r.Sound floor) :
    Ensures (do
      let init ← initial
      endDeclaration init
      if let (.unknown, .zero) := (ty, init) then refuse (.typeOrInitializerMissing name) loc
      let isGlobal := (← get).scope.isNone
      let id ← declare name ty loc
      initialAssignment id ty isGlobal loc init) r (Kept floor r fun s r => r.HasStmt floor s) := by
  refine keeps_initial.bind hr fun init r₁ hr₁ _ hinit => ?_
  refine (quiet_endDeclaration init).bind hr₁ fun _ r₂ hr₂ hg₂ _ => ?_
  have hdeclare : Ensures (do
      let isGlobal := (← get).scope.isNone
      let id ← declare name ty loc
      initialAssignment id ty isGlobal loc init) r₂
      (Kept floor r₂ fun s r => r.HasStmt floor s) := by
    rw [ensures_bind, ensures_get]
    refine Course.andThen (keeps_declare name hty loc hr₂)
      fun id r₃ hr₃ hg₃ ⟨hid, ⟨v, hv, _, hknown⟩, _⟩ => ?_
    exact keeps_initialAssignment hty _ loc hr₃ hid ⟨v, hv, hknown⟩ (hinit.mono (hg₂.trans hg₃))
  dsimp only
  split
  · exact ensures_refuse_bind _ _ _ _
  · exact hdeclare

theorem keeps_declaration : ReadsStmt floor declaration := by
  intro r hr
  refine (quiet_expect "var").bind hr fun _ r hr _ _ => ?_
  refine quiet_identifier.bind hr ?_
  rintro ⟨name, loc⟩ r hr - -
  refine quiet_typeAhead.bind hr fun typed r hr _ _ => ?_
  cases typed with
  | true => exact quiet_type.bind hr fun ty r hr _ hty => keeps_declarationRest name hty.1 loc hr
  | false => exact keeps_declarationRest name Ty.proper_unknown loc hr

/-! ## Simple statements -/

theorem keeps_shortDeclaration : ReadsStmt floor shortDeclaration := by
  intro r hr
  refine (keeps_commaList (P := fun _ _ => True) (fun _ h => h)
    (quiet_identifier.keeps.mono fun _ _ _ => trivial)).bind hr fun names r hr _ _ => ?_
  refine (quiet_expect ":=").bind hr fun loc r hr _ _ => ?_
  refine (keeps_exprList keeps_expression).bind hr fun values r₁ hr₁ _ hvalues => ?_
  refine Course.andThen (Course.mapM (c := tables floor)
    (P := fun e r => r.HasExpr floor e ∧ r.Assignable e)
    (fun hg he => ⟨hg.hasExpr he.1, hg.assignable he.2⟩) names hr₁
    fun ⟨name, nameLoc⟩ _ r' hr' _ => ?_) fun targets r₂ hr₂ hg₂ htargets => ?_
  · exact Course.andThen (keeps_declare name Ty.proper_unknown nameLoc hr')
      fun id r hr _ ⟨hid, ⟨v, hv, _, hknown⟩, _⟩ =>
        kept_pure hr ⟨.var ⟨⟨rfl, hid⟩, trivial⟩, rfl, v, hv, hknown⟩
  · exact kept_pure hr₂ (Reading.hasStmt_assign (fun t ht => (htargets t ht).2)
      (fun t ht => (htargets t ht).1) (hg₂.hasExprs hvalues))

/-- What passes the check **is a place**, and no placeholder. -/
theorem keeps_checkTarget (target : Expr) :
    Keeps floor (checkTarget target) fun _ r => r.Assignable target := by
  have hplace {r : Reading} (hr : r.Sound floor) (hknown : target.IsKnown r.vars) : Ensures
      (if (!target.isLvalue) = true then refuse .notAssignable target.loc else pure ()) r
      (Kept floor r fun _ r => r.Assignable target) := by
    cases h : target.isLvalue with
    | true => exact kept_pure hr ⟨h, hknown⟩
    | false => exact ensures_refuse _ _ _
  intro r hr
  cases target with
  | var id ty loc =>
    refine (keeps_variableOf id).bind hr fun v r' hr' _ hv => ?_
    split
    · exact ensures_refuse_bind _ _ _ _
    · next hplaceholder => exact hplace hr' ⟨v, hv, Bool.eq_false_iff.mpr hplaceholder⟩
  | _ => exact hplace hr trivial

theorem keeps_assignmentOrExpression : ReadsStmt floor assignmentOrExpression := by
  intro r hr
  refine (keeps_exprList keeps_expression).bind hr fun targets r₁ hr₁ _ htargets => ?_
  refine (quiet_ahead "=").bind hr₁ fun assigned r₂ hr₂ hg₂ _ => ?_
  cases assigned with
  | true =>
    refine (quiet_expect "=").bind hr₂ fun loc r₃ hr₃ hg₃ _ => ?_
    refine Course.andThen (Course.forM (c := tables floor)
      (P := fun (target : Expr) r => r.Assignable target) (fun hg h => hg.assignable h) targets hr₃
      fun target _ r hr _ => keeps_checkTarget target r hr) fun _ r₄ hr₄ hg₄ hplaces => ?_
    refine (keeps_exprList keeps_expression).bind hr₄ fun values r₅ hr₅ hg₅ hvalues => ?_
    exact kept_pure hr₅ (Reading.hasStmt_assign (fun t ht => hg₅.assignable (hplaces t ht))
      ((hg₂.trans (hg₃.trans (hg₄.trans hg₅))).hasExprs htargets) hvalues)
  | false =>
    simp only [Bool.false_eq_true, if_false]
    split
    · next value =>
      exact kept_pure hr₂ (.expr ⟨trivial, trivial⟩ (hg₂.hasExpr (htargets value List.mem_cons_self)))
    · exact (quiet_unexpected .assignment (Q := fun _ => False)).keeps.mono
        (fun _ _ h => h.elim) r₂ hr₂

theorem keeps_simple : ReadsStmt floor simple := by
  intro r hr
  unfold simple
  rw [ensures_bind, ensures_get]
  split
  · exact keeps_shortDeclaration r hr
  · exact keeps_assignmentOrExpression r hr

theorem keeps_printing : ReadsStmt floor printing := by
  intro r hr
  refine quiet_here.bind hr fun loc r hr _ _ => ?_
  refine quiet_peek.bind hr fun token r hr _ _ => ?_
  split
  · exact ensures_refuse _ _ _
  · refine quiet_advance.bind hr fun _ r hr _ _ => ?_
    refine (quiet_expect "(").bind hr fun _ r hr _ _ => ?_
    exact (keeps_exprsUntil ")" keeps_expression).bind hr fun args r hr _ hargs =>
      kept_pure hr (.print ⟨trivial, trivial⟩ hargs)

/-! ## Statements that hold others -/

section Nested

variable {statement : Parser Stmt} {body : Parser (List Stmt)}

/-- The parser reads a sequence of statements. -/
abbrev ReadsStmts (floor : Nat) (x : Parser (List Stmt)) : Prop :=
  Keeps floor x fun ss r => ∀ s ∈ ss, r.HasStmt floor s

theorem keeps_braced (hstatement : ReadsStmt floor statement) :
    ReadsStmts floor (braced statement) := by
  intro r hr
  refine (quiet_expect "\x7b").bind hr fun _ r hr _ _ => ?_
  refine keeps_iterate (I := fun ss r => ∀ s ∈ ss, r.HasStmt floor s) (fun ss r hr hss => ?_) hr
    fun _ h => absurd h List.not_mem_nil
  refine (quiet_accept "\x7d").bind hr fun closed r₁ hr₁ hg₁ _ => ?_
  cases closed with
  | true => exact kept_pure hr₁ (hg₁.hasStmts hss)
  | false =>
    refine (quiet_accept ";").bind hr₁ fun blank r₂ hr₂ hg₂ _ => ?_
    cases blank with
    | true => exact kept_pure hr₂ ((hg₁.trans hg₂).hasStmts hss)
    | false =>
      refine hstatement.bind hr₂ fun s r₃ hr₃ hg₃ hs => kept_pure hr₃ fun s' hs' => ?_
      rcases List.mem_append.mp hs' with hs' | hs'
      · exact (hg₁.trans (hg₂.trans hg₃)).hasStmt (hss s' hs')
      · cases List.mem_singleton.mp hs'; exact hs

theorem keeps_branchHead (loc : Nat) :
    Keeps floor (branchHead loc) fun head r => r.HasStmt floor head.1 ∧ r.HasExpr floor head.2 := by
  intro r hr
  refine keeps_simple.bind hr fun first r₁ hr₁ _ hfirst => ?_
  refine (quiet_accept ";").bind hr₁ fun more r₂ hr₂ hg₂ _ => ?_
  cases more with
  | true =>
    exact keeps_expression.bind hr₂ fun cond r₃ hr₃ hg₃ hcond =>
      kept_pure hr₃ ⟨(hg₂.trans hg₃).hasStmt hfirst, hcond⟩
  | false =>
    simp only [Bool.false_eq_true, if_false]
    split
    · cases hg₂.hasStmt hfirst with
      | expr _ hcond => exact kept_pure hr₂ ⟨.empty ⟨trivial, trivial⟩, hcond⟩
    · exact ensures_refuse _ _ _

theorem keeps_branchTo (hbody : ReadsStmts floor body) (depth : Nat) :
    ∀ loc, ReadsStmt floor (branchTo body loc depth) := by
  induction depth with
  | zero => exact fun _ r _ => ensures_broken _ r
  | succ depth ih =>
    intro loc r hr
    refine (keeps_branchHead loc).bind hr fun ⟨init, cond⟩ r₁ hr₁ _ hhead => ?_
    refine hbody.bind hr₁ fun ss r₂ hr₂ hg₂ hss => ?_
    refine (quiet_accept "else").bind hr₂ fun more r₃ hr₃ hg₃ _ => ?_
    have hbranch {otherwise : Stmt} {r' : Reading} (hg : r₃.Grows r')
        (ho : r'.HasStmt floor otherwise) : r'.HasStmt floor (.branch init cond ss otherwise) :=
      .branch ⟨trivial, trivial⟩ ((hg₂.trans (hg₃.trans hg)).hasStmt hhead.1)
        ((hg₂.trans (hg₃.trans hg)).hasExpr hhead.2) ((hg₃.trans hg).hasStmts hss) ho
    cases more with
    | false => exact kept_pure hr₃ (hbranch (.refl _) (.empty ⟨trivial, trivial⟩))
    | true =>
      refine quiet_here.bind hr₃ fun elseLoc r₄ hr₄ hg₄ _ => ?_
      refine (quiet_accept "if").bind hr₄ fun chained r₅ hr₅ hg₅ _ => ?_
      cases chained with
      | true =>
        exact (ih elseLoc).bind hr₅ fun otherwise r₆ hr₆ hg₆ ho =>
          kept_pure hr₆ (hbranch (hg₄.trans (hg₅.trans hg₆)) ho)
      | false =>
        exact hbody.bind hr₅ fun other r₆ hr₆ hg₆ hother =>
          kept_pure hr₆ (hbranch (hg₄.trans (hg₅.trans hg₆)) (.block ⟨trivial, trivial⟩ hother))

theorem keeps_branch (hbody : ReadsStmts floor body) (loc : Nat) :
    ReadsStmt floor (branch body loc) := by
  intro r hr
  unfold branch bounded bound
  simp only [ensures_bind, ensures_get, ensures_pure]
  exact keeps_branchTo hbody _ loc r hr

/-- A part that may be left out, with what comes after it in either case. -/
theorem keeps_optional {α β : Type} {Q : α → Reading → Prop} {R : β → Reading → Prop}
    {absent : Bool} {x : Parser α} {a : α} {f : α → Parser β} (hx : Keeps floor x Q)
    {r : Reading} (hr : r.Sound floor) (ha : Q a r)
    (hf : ∀ a r', r'.Sound floor → r.Grows r' → Q a r' → Ensures (f a) r' (Kept floor r' R)) :
    Ensures (if absent = true then pure a >>= f else x >>= f) r (Kept floor r R) := by
  cases absent with
  | true => exact Course.andThen (kept_pure hr ha) hf
  | false => exact hx.bind hr hf

theorem keeps_someExpression :
    Keeps floor (some <$> expression) fun cond r => ∀ e ∈ cond, r.HasExpr floor e := by
  intro r hr
  refine (ensures_map _ _ _ _).mpr ((keeps_expression r hr).mono fun e r' ⟨hr', hg, he⟩ => ?_)
  exact ⟨hr', hg, fun e' he' => by cases he'; exact he⟩

/-- What the three clauses of a loop are when they have been read. -/
abbrev Reading.HasClauses (r : Reading) (floor : Nat) (head : Stmt × Option Expr × Stmt) : Prop :=
  r.HasStmt floor head.1 ∧ (∀ e ∈ head.2.1, r.HasExpr floor e) ∧ r.HasStmt floor head.2.2

theorem keeps_loopHead (loc : Nat) :
    Keeps floor (loopHead loc) fun head r => r.HasClauses floor head := by
  have hempty {r : Reading} : r.HasStmt floor .empty := .empty ⟨trivial, trivial⟩
  intro r hr
  refine (quiet_ahead "\x7b").bind hr fun endless r hr _ _ => ?_
  cases endless with
  | true => exact kept_pure hr ⟨hempty, (fun _ h => nomatch h), hempty⟩
  | false =>
    refine (quiet_ahead ";").bind hr fun _ r hr _ _ => ?_
    refine keeps_optional keeps_simple hr hempty fun first r₁ hr₁ _ hfirst => ?_
    refine (quiet_accept ";").bind hr₁ fun clauses r₂ hr₂ hg₂ _ => ?_
    cases clauses with
    | false =>
      simp only [Bool.false_eq_true, if_false]
      split
      · cases hg₂.hasStmt hfirst with
        | expr _ hcond =>
          exact kept_pure hr₂ ⟨hempty, (fun e he => by cases he; exact hcond), hempty⟩
      · exact ensures_refuse _ _ _
    | true =>
      refine (quiet_ahead ";").bind hr₂ fun _ r₃ hr₃ hg₃ _ => ?_
      refine keeps_optional keeps_someExpression hr₃ (fun _ h => nomatch h)
        fun cond r₄ hr₄ hg₄ hcond => ?_
      refine (quiet_expect ";").bind hr₄ fun _ r₅ hr₅ hg₅ _ => ?_
      refine (quiet_ahead "\x7b").bind hr₅ fun _ r₆ hr₆ hg₆ _ => ?_
      refine keeps_optional keeps_simple hr₆ hempty fun post r₇ hr₇ hg₇ hpost => ?_
      have hg := hg₅.trans (hg₆.trans hg₇)
      exact kept_pure hr₇ ⟨(hg₂.trans (hg₃.trans (hg₄.trans hg))).hasStmt hfirst,
        fun e he => hg.hasExpr (hcond e he), hpost⟩

theorem keeps_loop (hbody : ReadsStmts floor body) (loc : Nat) :
    ReadsStmt floor (loop body loc) := by
  intro r hr
  refine (keeps_loopHead loc).bind hr fun ⟨init, cond, post⟩ r₁ hr₁ _ hhead => ?_
  refine hbody.bind hr₁ fun ss r₂ hr₂ hg₂ hss => kept_pure hr₂ ?_
  exact .loop ⟨trivial, trivial⟩ (hg₂.hasStmt hhead.1) (fun e he => hg₂.hasExpr (hhead.2.1 e he))
    (hg₂.hasStmt hhead.2.2) hss

theorem keeps_statementTo (depth : Nat) : ReadsStmt floor (statementTo depth) := by
  induction depth with
  | zero => exact fun r _ => ensures_broken _ r
  | succ depth ih =>
    have hbraced : ReadsStmts floor (braced (statementTo depth)) := keeps_braced ih
    intro r hr
    refine quiet_here.bind hr fun loc r hr _ _ => ?_
    refine (quiet_accept "return").bind hr fun isReturn r hr _ _ => ?_
    cases isReturn with
    | true =>
      refine quiet_atStatementEnd.bind hr fun _ r hr _ _ => ?_
      refine keeps_optional keeps_someExpression hr (fun _ h => nomatch h)
        fun value r₁ hr₁ _ hvalue => ?_
      exact quiet_endStatement.bind hr₁ fun _ r₂ hr₂ hg₂ _ =>
        kept_pure hr₂ (.ret ⟨trivial, trivial⟩ fun e he => hg₂.hasExpr (hvalue e he))
    | false =>
    refine (quiet_ahead "\x7b").bind hr fun isBlock r hr _ _ => ?_
    cases isBlock with
    | true => exact hbraced.bind hr fun ss r hr _ hss => kept_pure hr (.block ⟨trivial, trivial⟩ hss)
    | false =>
    refine (quiet_accept "if").bind hr fun isBranch r hr _ _ => ?_
    cases isBranch with
    | true => exact keeps_branch hbraced loc r hr
    | false =>
    refine (quiet_accept "for").bind hr fun isLoop r hr _ _ => ?_
    cases isLoop with
    | true => exact keeps_loop hbraced loc r hr
    | false =>
    refine (quiet_ahead "var").bind hr fun isDeclaration r hr _ _ => ?_
    cases isDeclaration with
    | true => exact keeps_declaration r hr
    | false =>
    refine (quiet_aheadKind .stdlib).bind hr fun isPrinting r hr _ _ => ?_
    have hend (s : Stmt) (r : Reading) (hr : r.Sound floor) (hs : r.HasStmt floor s) :
        Ensures (do endStatement; return s) r (Kept floor r fun s r => r.HasStmt floor s) :=
      quiet_endStatement.bind hr fun _ r hr hg _ => kept_pure hr (hg.hasStmt hs)
    cases isPrinting with
    | true => exact keeps_printing.bind hr fun s r hr _ hs => hend s r hr hs
    | false => exact keeps_simple.bind hr fun s r hr _ hs => hend s r hr hs

/-- **What is read between braces are statements that have been read.** -/
theorem keeps_block : ReadsStmts floor block := by
  intro r hr
  unfold block bounded bound
  simp only [ensures_bind, ensures_get, ensures_pure]
  exact keeps_braced (keeps_statementTo _) r hr

end Nested

end StackCompiler.Grammar
