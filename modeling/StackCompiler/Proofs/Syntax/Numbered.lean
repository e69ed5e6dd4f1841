import StackCompiler.Proofs.Syntax.Everywhere

/-!
# Proofs/Syntax/Numbered — programs without their places, under other numbers

Every node of a tree carries the offset of its token, and names variables and strings by the numbers
that they happened to get.  To say that two programs are the same **but for their places**, or but for
these numbers too, the places are forgotten and the numbers are mapped: `numbered` sets all places to
0 and gives variables and strings the numbers of a `Numbering`; `unplaced` leaves the numbers as they
are.
-/

namespace StackCompiler

/-- Other numbers for variables and for strings. -/
structure Numbering where
  var : VarId → VarId
  string : Nat → Nat

namespace Numbering

/-- The numbers that things have already. -/
def same : Numbering := ⟨id, id⟩

@[simp] theorem var_same (id : VarId) : same.var id = id := rfl
@[simp] theorem string_same (i : Nat) : same.string i = i := rfl

/-- The numbers of the one for those of the other. -/
def after (n m : Numbering) : Numbering := ⟨n.var ∘ m.var, n.string ∘ m.string⟩

end Numbering

mutual

/-- The expression with other numbers and with all its places at 0. -/
def Expr.numbered (n : Numbering) : Expr → Expr
  | .num value ty _ => .num value ty 0
  | .str string ty _ => .str (n.string string) ty 0
  | .var id ty _ => .var (n.var id) ty 0
  | .addr operand ty _ => .addr (operand.numbered n) ty 0
  | .deref operand ty _ => .deref (operand.numbered n) ty 0
  | .binary op lhs rhs ty _ => .binary op (lhs.numbered n) (rhs.numbered n) ty 0
  | .index base position ty _ => .index (base.numbered n) (position.numbered n) ty 0
  | .call name args ty _ => .call name (Expr.numberedAll n args) ty 0

/-- The expressions with other numbers and with all their places at 0. -/
def Expr.numberedAll (n : Numbering) : List Expr → List Expr
  | [] => []
  | e :: es => e.numbered n :: Expr.numberedAll n es

end

mutual

/-- The statement with other numbers and with all its places at 0. -/
def Stmt.numbered (n : Numbering) : Stmt → Stmt
  | .expr value => .expr (value.numbered n)
  | .ret value _ => .ret (value.map (Expr.numbered n)) 0
  | .block body => .block (Stmt.numberedAll n body)
  | .branch init cond body otherwise =>
    .branch (init.numbered n) (cond.numbered n) (Stmt.numberedAll n body) (otherwise.numbered n)
  | .loop init cond post body _ =>
    .loop (init.numbered n) (cond.map (Expr.numbered n)) (post.numbered n) (Stmt.numberedAll n body) 0
  | .assign targets values _ =>
    .assign (targets.map (Expr.numbered n)) (values.map (Expr.numbered n)) 0
  | .print printer args _ => .print printer (args.map (Expr.numbered n)) 0
  | .empty => .empty

/-- The statements with other numbers and with all their places at 0. -/
def Stmt.numberedAll (n : Numbering) : List Stmt → List Stmt
  | [] => []
  | st :: stmts => st.numbered n :: Stmt.numberedAll n stmts

end

def Variable.unplaced (v : Variable) : Variable :=
  { v with loc := 0 }

/-- Two entries of arenas that are the same **but for a place**. -/
abbrev SameVariable (v v' : Option Variable) : Prop :=
  v.map Variable.unplaced = v'.map Variable.unplaced

/-- The function with other numbers and with all its places at 0. -/
def Function.numbered (n : Numbering) (f : Function) : Function :=
  { f with
    params := f.params.map n.var, locals := f.locals.map n.var,
    body := Stmt.numberedAll n f.body, loc := 0 }

/-- The expression with all its places at 0. -/
abbrev Expr.unplaced : Expr → Expr := Expr.numbered .same

/-- The statement with all its places at 0. -/
abbrev Stmt.unplaced : Stmt → Stmt := Stmt.numbered .same

/-- The function with all its places at 0. -/
abbrev Function.unplaced : Function → Function := Function.numbered .same

def Program.unplaced (p : Program) : Program :=
  { p with vars := p.vars.map Variable.unplaced, funcs := p.funcs.map Function.unplaced }

/-! ## What stays -/

section Numbered

variable (n : Numbering)

@[simp] theorem Expr.numberedAll_eq_map (es : List Expr) :
    Expr.numberedAll n es = es.map (Expr.numbered n) := by
  induction es with
  | nil => rfl
  | cons e es ih => rw [numberedAll, List.map_cons, ih]

@[simp] theorem Stmt.numberedAll_eq_map (stmts : List Stmt) :
    Stmt.numberedAll n stmts = stmts.map (Stmt.numbered n) := by
  induction stmts with
  | nil => rfl
  | cons st stmts ih => rw [numberedAll, List.map_cons, ih]

namespace Expr

theorem numbered_call (name : String) (args : List Expr) (ty : Ty) (loc : Nat) :
    (call name args ty loc).numbered n = .call name (args.map (numbered n)) ty 0 := by
  rw [numbered, numberedAll_eq_map]

@[simp] theorem ty_numbered (e : Expr) : (e.numbered n).ty = e.ty := by
  cases e <;> rfl

@[simp] theorem isLvalue_numbered (e : Expr) : (e.numbered n).isLvalue = e.isLvalue := by
  cases e <;> rfl

@[simp] theorem root?_numbered (e : Expr) : (e.numbered n).root? = e.root?.map n.var := by
  induction e with
  | index base position ty loc ih => exact ih
  | _ => rfl

end Expr

namespace Stmt

theorem numbered_block (body : List Stmt) :
    (block body).numbered n = .block (body.map (numbered n)) := by
  rw [numbered, numberedAll_eq_map]

theorem numbered_branch (init : Stmt) (cond : Expr) (body : List Stmt) (otherwise : Stmt) :
    (branch init cond body otherwise).numbered n =
      .branch (init.numbered n) (cond.numbered n) (body.map (numbered n)) (otherwise.numbered n) := by
  rw [numbered, numberedAll_eq_map]

theorem numbered_loop (init : Stmt) (cond : Option Expr) (post : Stmt) (body : List Stmt)
    (loc : Nat) :
    (loop init cond post body loc).numbered n =
      .loop (init.numbered n) (cond.map (Expr.numbered n)) (post.numbered n)
        (body.map (numbered n)) 0 := by
  rw [numbered, numberedAll_eq_map]

@[simp] theorem isEmpty_numbered (st : Stmt) : (st.numbered n).isEmpty = st.isEmpty := by
  cases st <;> rfl

end Stmt

end Numbered

/-! ## One numbering after another -/

section After

variable (n m : Numbering)

theorem Expr.numbered_numbered (e : Expr) :
    (e.numbered m).numbered n = e.numbered (n.after m) := by
  induction e with
  | num | str | var => rfl
  | addr operand ty loc ih | deref operand ty loc ih => rw [numbered, numbered, ih, numbered]
  | binary op lhs rhs ty loc ihl ihr => rw [numbered, numbered, ihl, ihr, numbered]
  | index base position ty loc ihb ihp => rw [numbered, numbered, ihb, ihp, numbered]
  | call name args ty loc ih =>
    rw [numbered_call, numbered_call, numbered_call, List.map_map]
    exact congrArg (call name · ty 0) (List.map_congr_left ih)

theorem Expr.map_numbered_numbered (es : List Expr) :
    (es.map (Expr.numbered m)).map (Expr.numbered n) = es.map (Expr.numbered (n.after m)) := by
  rw [List.map_map]
  exact List.map_congr_left fun e _ => e.numbered_numbered n m

theorem Expr.map_numbered_option (e : Option Expr) :
    (e.map (Expr.numbered m)).map (Expr.numbered n) = e.map (Expr.numbered (n.after m)) := by
  cases e with
  | none => rfl
  | some e => exact congrArg some (e.numbered_numbered n m)

theorem Stmt.numbered_numbered (st : Stmt) :
    (st.numbered m).numbered n = st.numbered (n.after m) := by
  have hbody {body : List Stmt}
      (h : ∀ st ∈ body, (st.numbered m).numbered n = st.numbered (n.after m)) :
      (body.map (Stmt.numbered m)).map (Stmt.numbered n) = body.map (Stmt.numbered (n.after m)) := by
    rw [List.map_map]
    exact List.map_congr_left h
  induction st with
  | expr value => exact congrArg Stmt.expr (value.numbered_numbered n m)
  | ret value loc => exact congrArg (Stmt.ret · 0) (Expr.map_numbered_option n m value)
  | block body ih => rw [numbered_block, numbered_block, numbered_block, hbody ih]
  | branch init cond body otherwise ihi ihb iho =>
    rw [numbered_branch, numbered_branch, numbered_branch, ihi, cond.numbered_numbered, hbody ihb,
      iho]
  | loop init cond post body loc ihi ihp ihb =>
    rw [numbered_loop, numbered_loop, numbered_loop, ihi, Expr.map_numbered_option, ihp, hbody ihb]
  | assign targets values loc =>
    rw [numbered, numbered, numbered, Expr.map_numbered_numbered, Expr.map_numbered_numbered]
  | print printer args loc => rw [numbered, numbered, numbered, Expr.map_numbered_numbered]
  | empty => rfl

theorem Stmt.map_numbered_numbered (stmts : List Stmt) :
    (stmts.map (Stmt.numbered m)).map (Stmt.numbered n) = stmts.map (Stmt.numbered (n.after m)) := by
  rw [List.map_map]
  exact List.map_congr_left fun st _ => st.numbered_numbered n m

theorem Function.numbered_numbered (f : Function) :
    (f.numbered m).numbered n = f.numbered (n.after m) := by
  have hbody := Stmt.map_numbered_numbered n m f.body
  simp only [numbered, Stmt.numberedAll_eq_map, hbody, List.map_map]
  rfl

theorem Function.map_numbered_unplaced (n : Numbering) (fs : List Function) :
    (fs.map Function.unplaced).map (Function.numbered n) = fs.map (Function.numbered n) := by
  rw [List.map_map]
  exact List.map_congr_left fun f _ => f.numbered_numbered n .same

end After

/-! ## Numbers that are named -/

/-- If the node is a variable, its number is **one of those**. -/
def Expr.Names (known : VarId → Prop) : Expr → Prop
  | .var id _ _ => known id
  | _ => True

section Congruence

variable {n m : Numbering} (hstring : n.string = m.string)

include hstring

theorem Expr.numbered_congr {e : Expr}
    (h : e.Everywhere (Expr.Names fun id => n.var id = m.var id)) : e.numbered n = e.numbered m := by
  induction h with
  | num => rfl
  | str => rw [numbered, numbered, hstring]
  | @var id ty loc h => exact congrArg (Expr.var · ty 0) h
  | addr _ _ ih | deref _ _ ih => rw [numbered, numbered, ih]
  | binary _ _ _ ihl ihr => rw [numbered, numbered, ihl, ihr]
  | index _ _ _ ihb ihp => rw [numbered, numbered, ihb, ihp]
  | call _ _ ih => rw [numbered_call, numbered_call, List.map_congr_left ih]

theorem Expr.map_numbered_congr {es : List Expr}
    (h : ∀ e ∈ es, e.Everywhere (Expr.Names fun id => n.var id = m.var id)) :
    es.map (Expr.numbered n) = es.map (Expr.numbered m) :=
  List.map_congr_left fun e he => numbered_congr hstring (h e he)

theorem Expr.option_numbered_congr {value : Option Expr}
    (h : ∀ e ∈ value, Expr.Everywhere (Expr.Names fun id => n.var id = m.var id) e) :
    value.map (Expr.numbered n) = value.map (Expr.numbered m) := by
  cases value with
  | none => rfl
  | some e => exact congrArg some (numbered_congr hstring (h e rfl))

theorem Stmt.numbered_congr {st : Stmt}
    (h : st.Everywhere (Expr.Names fun id => n.var id = m.var id) fun _ => True) :
    st.numbered n = st.numbered m := by
  induction h with
  | expr _ h => exact congrArg Stmt.expr (Expr.numbered_congr hstring h)
  | ret _ h => exact congrArg (Stmt.ret · 0) (Expr.option_numbered_congr hstring h)
  | block _ _ ih => rw [numbered_block, numbered_block, List.map_congr_left ih]
  | branch _ _ hc _ _ ihi ihb iho =>
    rw [numbered_branch, numbered_branch, ihi, Expr.numbered_congr hstring hc,
      List.map_congr_left ihb, iho]
  | loop _ _ hc _ _ ihi ihp ihb =>
    rw [numbered_loop, numbered_loop, ihi, Expr.option_numbered_congr hstring hc, ihp,
      List.map_congr_left ihb]
  | assign _ ht hv =>
    rw [numbered, numbered, Expr.map_numbered_congr hstring ht, Expr.map_numbered_congr hstring hv]
  | print _ h => rw [numbered, numbered, Expr.map_numbered_congr hstring h]
  | empty => rfl

/-- Two numberings that agree on **all that a function names** number it alike. -/
theorem Function.numbered_congr {f : Function} (hparams : ∀ id ∈ f.params, n.var id = m.var id)
    (hlocals : ∀ id ∈ f.locals, n.var id = m.var id)
    (hbody : ∀ st ∈ f.body,
      st.Everywhere (Expr.Names fun id => n.var id = m.var id) fun _ => True) :
    f.numbered n = f.numbered m := by
  rw [numbered, numbered, List.map_congr_left hparams, List.map_congr_left hlocals,
    Stmt.numberedAll_eq_map, Stmt.numberedAll_eq_map,
    List.map_congr_left fun st hst => Stmt.numbered_congr hstring (hbody st hst)]

end Congruence

namespace Variable

variable (v : Variable)

@[simp] theorem name_unplaced : v.unplaced.name = v.name := rfl
@[simp] theorem offset_unplaced : v.unplaced.offset = v.offset := rfl
@[simp] theorem isLocal_unplaced : v.unplaced.isLocal = v.isLocal := rfl
@[simp] theorem ty_unplaced : v.unplaced.ty = v.ty := rfl
@[simp] theorem isPlaceholder_unplaced : v.unplaced.isPlaceholder = v.isPlaceholder := rfl

end Variable

@[simp] theorem Program.declared_unplaced (p : Program) :
    p.unplaced.declared = p.declared.map Function.unplaced :=
  List.filter_map

theorem Program.sameVariable_unplaced (p : Program) (id : VarId) :
    SameVariable p.vars[id]? p.unplaced.vars[id]? := by
  rw [SameVariable, unplaced, List.getElem?_map]
  cases p.vars[id]? <;> rfl

/-- The second program has the variables and strings of the first under other numbers, and **two
functions that are neighbours in the other order**; the function that comes first stays there. -/
structure Program.Exchanged (n : Numbering) (p p' : Program) : Prop where
  package : p'.package = p.package
  vars : ∀ id, SameVariable p.vars[id]? p'.vars[n.var id]?
  globals : p'.globals = p.globals.map n.var
  strings : ∀ i, p'.strings[n.string i]? = p.strings[i]?
  funcs : ∃ entry before f g after, p.funcs = entry :: before ++ f :: g :: after ∧
    p'.funcs.map Function.unplaced = (entry :: before ++ g :: f :: after).map (Function.numbered n)

end StackCompiler
