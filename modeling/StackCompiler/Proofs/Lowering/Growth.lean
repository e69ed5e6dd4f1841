import StackCompiler.Lowering.Statements
import StackCompiler.Proofs.Syntax.Tally
import StackCompiler.Proofs.Typing.Package

/-!
# Proofs/Lowering/Growth — how high code leaves the stack

The code of a typed tree exists at every height, and **the tree alone** tells by how many words it
makes the stack grow (`Code.Grows`).  Most nodes leave what their type asks for; a few leave one
word more (`Expr.overfull`, `Stmt.overfull`), and none leaves less, so nothing makes up for them.
-/

namespace StackCompiler

/-! ## Code and its growth -/

/-- At every height there is code, and it makes the stack grow by so many words. -/
def Code.Grows (code : Code) (words : Int) : Prop :=
  ∀ height, ∃ l, code height = .ok l ∧ l.growth = words

/-- The growth of instructions one after the other. -/
theorem Listing.growth_ofInstrs (instrs : List Instr) :
    (Listing.ofInstrs instrs).growth = (instrs.map Instr.growth).sum := by
  induction instrs with
  | nil => rfl
  | cons i instrs ih =>
    rw [List.map_cons, List.sum_cons, ← ih]
    rfl

namespace Code.Grows

variable {first second code : Code} {m n : Int}

theorem append (h₁ : first.Grows m) (h₂ : second.Grows n) : (first ++ second).Grows (m + n) := by
  intro height
  obtain ⟨a, ha, rfl⟩ := h₁ height
  obtain ⟨b, hb, rfl⟩ := h₂ (height + a.growth)
  exact ⟨a ++ b, Code.append_eq_ok_iff.mpr ⟨a, b, ha, hb, rfl⟩, Listing.growth_append a b⟩

theorem congr (h : code.Grows m) (hmn : m = n) : code.Grows n :=
  hmn ▸ h

theorem nothing : Code.nothing.Grows 0 :=
  fun _ => ⟨[], rfl, rfl⟩

theorem label (l : Label) : (Code.label l).Grows 0 :=
  fun _ => ⟨[.label l], rfl, rfl⟩

theorem ofInstrs (instrs : List Instr) :
    (Code.ofInstrs instrs).Grows (instrs.map Instr.growth).sum :=
  fun _ => ⟨_, rfl, Listing.growth_ofInstrs instrs⟩

/-- A call leaves the stack **as it found it**, with or without a word of padding. -/
theorem call (target : Label) : (Code.call target).Grows 0 := by
  intro height
  refine ⟨_, rfl, ?_⟩
  rw [Listing.growth_ofInstrs]
  split <;> rfl

theorem discard (words : Nat) : (Code.discard words).Grows (-words) := by
  cases words with
  | zero => exact nothing
  | succ words =>
    refine (ofInstrs [.addConst .rsp (8 * ((words + 1 : Nat) : Int))]).congr ?_
    simp only [List.map_cons, List.map_nil, List.sum_singleton, Instr.growth]
    omega

end Code.Grows

/-! ## Nodes that leave a word too many -/

/-- The expressions whose code leaves a word more than their value has: those that take **one of the
two words of a string** for an address or for a position. -/
def Expr.overfull : Expr → Bool
  | .deref operand _ _ => operand.ty.isString
  | .index _ position _ _ => position.ty.isString
  | _ => false

/-- The statements whose code leaves a word: those that test one of the two words of a string, and
those that take **nothing** off the stack for a value without a type. -/
def Stmt.overfull : Stmt → Bool
  | .expr value => !value.ty.isResolved
  | .branch _ cond _ _ => cond.ty.isString
  | .loop _ cond _ _ _ => cond.any (·.ty.isString)
  | _ => false

namespace Expr

/-- The words that the code of an expression leaves too many. -/
def leftovers (e : Expr) : Nat :=
  e.tally overfull

/-- The words that the code of expressions leaves too many. -/
def leftoversOf (es : List Expr) : Nat :=
  tallies overfull es

variable (operand lhs rhs base position : Expr) (ty : Ty) (loc : Nat)

theorem leftovers_str (string : Nat) : (str string ty loc).leftovers = 0 := rfl

theorem leftovers_var (id : VarId) : (var id ty loc).leftovers = 0 := rfl

theorem leftovers_addr : (addr operand ty loc).leftovers = operand.leftovers :=
  Nat.zero_add _

theorem leftovers_deref :
    (deref operand ty loc).leftovers = operand.ty.isString.toNat + operand.leftovers := rfl

theorem leftovers_binary (op : BinaryOp) :
    (binary op lhs rhs ty loc).leftovers = lhs.leftovers + rhs.leftovers :=
  Nat.zero_add _

theorem leftovers_index : (index base position ty loc).leftovers =
    position.ty.isString.toNat + (base.leftovers + position.leftovers) := rfl

theorem leftovers_call (name : String) (args : List Expr) :
    (call name args ty loc).leftovers = leftoversOf args :=
  Nat.zero_add _

theorem leftoversOf_cons (e : Expr) (es : List Expr) :
    leftoversOf (e :: es) = e.leftovers + leftoversOf es := rfl

end Expr

namespace Stmt

/-- The words that the code of a statement leaves. -/
def leftovers (s : Stmt) : Nat :=
  s.tally Expr.overfull overfull

/-- The words that the code of statements leaves. -/
def leftoversOf (ss : List Stmt) : Nat :=
  tallies Expr.overfull overfull ss

variable (init otherwise post : Stmt) (cond value : Expr) (body : List Stmt) (loc : Nat)

theorem leftovers_expr :
    (expr value).leftovers = (!value.ty.isResolved).toNat + value.leftovers := rfl

theorem leftovers_ret (value : Option Expr) :
    (ret value loc).leftovers = value.elim 0 Expr.leftovers :=
  Nat.zero_add _

theorem leftovers_block : (block body).leftovers = leftoversOf body :=
  Nat.zero_add _

theorem leftovers_branch : (branch init cond body otherwise).leftovers = cond.ty.isString.toNat +
    (init.leftovers + cond.leftovers + leftoversOf body + otherwise.leftovers) := rfl

theorem leftovers_loop (cond : Option Expr) : (loop init cond post body loc).leftovers =
    (cond.any (·.ty.isString)).toNat + (init.leftovers + cond.elim 0 Expr.leftovers +
      leftoversOf body + post.leftovers) := rfl

theorem leftovers_assign (targets values : List Expr) : (assign targets values loc).leftovers =
    Expr.leftoversOf values + Expr.leftoversOf targets :=
  Nat.zero_add _

theorem leftovers_print (printer : Printer) (args : List Expr) :
    (print printer args loc).leftovers = Expr.leftoversOf args :=
  Nat.zero_add _

theorem leftoversOf_cons (s : Stmt) (ss : List Stmt) :
    leftoversOf (s :: ss) = s.leftovers + leftoversOf ss := rfl

end Stmt

/-- The words that the body of a function leaves. -/
def Function.leftovers (f : Function) : Nat :=
  Stmt.leftoversOf f.body

namespace Lowering

/-- The words that code pushes for a value of that type; **without a type it is one**. -/
def pushed (ty : Ty) : Nat :=
  1 + ty.isString.toNat

theorem pushed_eq_one {ty : Ty} (h : ty.isString = false) : pushed ty = 1 := by
  rw [pushed, h]
  rfl

theorem pushed_eq_words {ty : Ty} (h : ty.isResolved = true) : pushed ty = ty.words := by
  cases ty with
  | unknown => cases h
  | _ => rfl

/-- The words that are wanted of an expression of that type. -/
def Wanted.words (ty : Ty) : Wanted → Nat
  | .value => pushed ty
  | .address => 1

theorem Wanted.eq_value {wanted : Wanted} (h : wanted ≠ .address) : wanted = .value := by
  cases wanted with
  | value => rfl
  | address => exact absurd rfl h

/-- Whether there is code that leaves the address of the expression. -/
def hasAddress : Expr → Bool
  | .str .. => true
  | e => e.isLvalue

theorem hasAddress_of_isLvalue {e : Expr} (h : e.isLvalue = true) : hasAddress e = true := by
  cases e with
  | str => rfl
  | _ => exact h

/-- What a call may agree with: parameters that have their types, and **fit the registers**. -/
structure Callable (signature : Typing.Signature) : Prop where
  words : Ty.totalWords signature.params ≤ maxArgumentWords
  resolved : ∀ ty ∈ signature.params, ty.isResolved = true

/-! ## Expressions -/

section Expressions

variable {p : Program} {own : VarId → Prop} {signatures : List Typing.Signature}

/-- The expression is a typed tree of the program. -/
abbrev TypedIn (p : Program) (own : VarId → Prop) (signatures : List Typing.Signature)
    (e : Expr) : Prop :=
  Typing.Typed own p.vars p.strings.length signatures e

/-- Strings and arrays come from expressions that have an address. -/
theorem hasAddress_of_ty {e : Expr} (he : TypedIn p own signatures e)
    (h : e.ty.isString = true ∨ e.ty.isArray = true) : hasAddress e = true := by
  have hno {t : Ty} (hs : t.isString = false) (ha : t.isArray = false)
      (h : t.isString = true ∨ t.isArray = true) : False := by
    rw [hs, ha] at h
    exact h.elim nofun nofun
  cases he with
  | num h' => exact (hno h'.2.1 h'.2.2.1 h).elim
  | addr h' _ => rw [Expr.ty, h'.1] at h; exact (hno rfl rfl h).elim
  | binary h' _ _ =>
    rw [Expr.ty, h'.2.2.2.2] at h
    split at h
    · exact (hno rfl rfl h).elim
    · exact (hno h'.2.2.1 h'.2.2.2.1 h).elim
  | call h' _ => rw [Expr.ty, h'.1] at h; exact (hno rfl rfl h).elim
  | _ => rfl

theorem grows_fromAddress (ty : Ty) (wanted : Wanted) :
    (fromAddress ty wanted).Grows (wanted.words ty - 1) := by
  cases wanted with
  | address => exact Code.Grows.nothing
  | value =>
    cases ty with
    | array base len => exact Code.Grows.nothing
    | _ => exact Code.Grows.ofInstrs _

theorem grows_store (ty : Ty) : (store ty).Grows (-1) := by
  unfold store
  split
  · exact Code.Grows.ofInstrs _
  · split <;> exact Code.Grows.ofInstrs _

theorem grows_variableAddress {id : VarId} (h : InArena p.vars own id) :
    (variableAddress p id).Grows 1 := by
  obtain ⟨v, hv, -⟩ := h
  unfold variableAddress
  rw [hv]
  dsimp only
  split <;> exact Code.Grows.ofInstrs _

theorem grows_descriptorAddress {string : Nat} (h : string < p.strings.length) :
    (descriptorAddress p string).Grows 1 := by
  unfold descriptorAddress
  rw [if_pos h]
  exact Code.Grows.ofInstrs _

theorem grows_step (element : Ty) : (step element).Grows (-1) := by
  refine (Code.Grows.ofInstrs _).congr ?_
  split <;> rfl

theorem grows_operate (op : BinaryOp) : (operate op).Grows (-1) := by
  refine (Code.Grows.ofInstrs _).congr ?_
  cases op <;> rfl

/-- As many words come off the stack as there are **registers filled**. -/
theorem grows_popArguments {words : Nat} (h : words ≤ maxArgumentWords) :
    (popArguments words).Grows (-words) := by
  have hsum (regs : List Reg) : ((regs.map Instr.pop).map Instr.growth).sum = -regs.length := by
    induction regs with
    | nil => rfl
    | cons r regs ih =>
      rw [List.map_cons, List.map_cons, List.sum_cons, ih, Instr.growth, List.length_cons]
      omega
  change words ≤ argumentRegs.length at h
  unfold popArguments
  rw [if_pos h]
  refine (Code.Grows.ofInstrs _).congr ?_
  rw [hsum, List.length_reverse, List.length_take, min_eq_left h]

/-- Code for several values leaves the words of all of them. -/
theorem grows_exprsCode : ∀ es : List Expr,
    (∀ e ∈ es, e.ty.isResolved = true ∧ (exprCode p .value e).Grows (pushed e.ty + e.leftovers)) →
    (exprsCode p es).Grows (Ty.totalWords (es.map Expr.ty) + Expr.leftoversOf es)
  | [], _ => Code.Grows.nothing
  | e :: es, h => by
    obtain ⟨⟨hr, he⟩, hes⟩ := List.forall_mem_cons.mp h
    rw [exprsCode]
    refine (he.append (grows_exprsCode es hes)).congr ?_
    rw [List.map_cons, Ty.totalWords, Expr.leftoversOf_cons, ← pushed_eq_words hr]
    omega

/-- The code of the base of an index, which leaves **the address of the elements**. -/
def baseCode (p : Program) (base : Expr) : Code :=
  match base.ty with
  | .array _ _ => exprCode p .address base
  | .string =>
    exprCode p .address base ++ .ofInstrs [.pop .rax, .load .rax (.above .rax 0), .push .rax]
  | _ => exprCode p .value base

theorem exprCode_index (wanted : Wanted) (base position : Expr) (ty : Ty) (loc : Nat) :
    exprCode p wanted (.index base position ty loc) =
      baseCode p base ++ exprCode p .value position ++ step ty ++ fromAddress ty wanted := by
  rw [exprCode]
  rfl

/-- Of a base that is a string or an array its address is taken, which is **one word as well**. -/
theorem grows_baseCode {base : Expr} (hb : TypedIn p own signatures base)
    (h : ∀ wanted, (wanted = .address → hasAddress base = true) →
      (exprCode p wanted base).Grows (wanted.words base.ty + base.leftovers)) :
    (baseCode p base).Grows (1 + base.leftovers) := by
  have haddress := hasAddress_of_ty hb
  have hvalue := h .value nofun
  unfold baseCode
  cases hty : base.ty with
  | array t len => exact h .address fun _ => haddress (.inr (by rw [hty]; rfl))
  | string =>
    exact (h .address fun _ => haddress (.inl (by rw [hty]; rfl))).append (Code.Grows.ofInstrs _)
  | _ => rwa [hty] at hvalue

/-- **The code of an expression leaves what is wanted of it, and a word for each node that is
overfull.** -/
theorem grows_exprCode (hsig : ∀ signature ∈ signatures, Callable signature) {e : Expr}
    (he : TypedIn p own signatures e) : ∀ wanted, (wanted = .address → hasAddress e = true) →
      (exprCode p wanted e).Grows (wanted.words e.ty + e.leftovers) := by
  have hplace {e : Expr} (h : Wanted.value = .address) : hasAddress e = true := by cases h
  induction he with
  | num h =>
    intro wanted hwanted
    obtain rfl := wanted.eq_value fun h => Bool.false_ne_true (hwanted h)
    rw [exprCode]
    refine (Code.Grows.ofInstrs _).congr ?_
    rw [Expr.ty, Wanted.words, pushed_eq_one h.2.1]
    rfl
  | str h =>
    intro wanted _
    rw [exprCode]
    refine ((grows_descriptorAddress h.2).append (grows_fromAddress _ wanted)).congr ?_
    rw [Expr.ty, Expr.leftovers_str]
    omega
  | var h =>
    intro wanted _
    rw [exprCode]
    refine ((grows_variableAddress h.1).append (grows_fromAddress _ wanted)).congr ?_
    rw [Expr.ty, Expr.leftovers_var]
    omega
  | addr h he ih =>
    intro wanted hwanted
    obtain rfl := wanted.eq_value fun h => Bool.false_ne_true (hwanted h)
    rw [exprCode]
    refine (ih .address fun _ => hasAddress_of_isLvalue h.2).congr ?_
    rw [Expr.ty, h.1, Expr.leftovers_addr]
    rfl
  | @deref operand ty loc h he ih =>
    intro wanted _
    rw [exprCode]
    refine ((ih .value hplace).append (grows_fromAddress _ wanted)).congr ?_
    rw [Expr.ty, Expr.leftovers_deref, Wanted.words, pushed]
    omega
  | @binary op lhs rhs ty loc h hl hr ihl ihr =>
    intro wanted hwanted
    obtain rfl := wanted.eq_value fun h => Bool.false_ne_true (hwanted h)
    rw [exprCode]
    refine (((ihl .value hplace).append (ihr .value hplace)).append (grows_operate op)).congr ?_
    obtain ⟨hkind, -, hs, -, hty⟩ := h
    have hrs : rhs.ty.isString = false := by rw [Ty.isString, ← hkind]; exact hs
    have hts : ty.isString = false := by rw [hty]; split <;> first | rfl | exact hs
    rw [Expr.ty, Expr.leftovers_binary, Wanted.words, Wanted.words, Wanted.words, pushed_eq_one hs,
      pushed_eq_one hrs, pushed_eq_one hts]
    omega
  | @index base position ty loc h hb hp ihb ihp =>
    intro wanted _
    rw [exprCode_index]
    refine ((((grows_baseCode hb ihb).append (ihp .value hplace)).append (grows_step ty)).append
      (grows_fromAddress ty wanted)).congr ?_
    rw [Expr.ty, Expr.leftovers_index, Wanted.words, pushed]
    omega
  | @call name args ty loc h hargs ih =>
    intro wanted hwanted
    obtain rfl := wanted.eq_value fun h => Bool.false_ne_true (hwanted h)
    obtain ⟨rfl, signature, hmem, -, hwords⟩ := h
    obtain ⟨hsum, hresolved⟩ := Typing.arguments_words hwords (hsig signature hmem).resolved
    have hfit : Ty.totalWords (args.map Expr.ty) ≤ maxArgumentWords :=
      hsum ▸ (hsig signature hmem).words
    rw [exprCode]
    refine ((((grows_exprsCode args fun arg harg => ⟨hresolved arg harg, ih arg harg .value hplace⟩
      ).append (grows_popArguments hfit)).append (Code.Grows.call _)).append
        (Code.Grows.ofInstrs _)).congr ?_
    rw [Expr.ty, Expr.leftovers_call, Wanted.words, pushed_eq_one rfl]
    simp only [List.map_cons, List.map_nil, List.sum_singleton, Instr.growth]
    omega

/-- The same of the code of a value. -/
theorem grows_valueCode (hsig : ∀ signature ∈ signatures, Callable signature) {e : Expr}
    (he : TypedIn p own signatures e) : (exprCode p .value e).Grows (pushed e.ty + e.leftovers) :=
  grows_exprCode hsig he .value (by rintro ⟨⟩)

end Expressions

/-! ## Statements -/

section Statements

variable {p : Program} {own : VarId → Prop} {signatures : List Typing.Signature} {exit : Label}

/-- A target takes off the stack the words of the value that **fits** it. -/
theorem grows_storeCode (hsig : ∀ signature ∈ signatures, Callable signature) {target value : Expr}
    (ht : TypedIn p own signatures target) (hfit : Fitting target value) :
    (storeCode p target).Grows (target.leftovers - value.ty.words) := by
  refine (((grows_exprCode hsig ht .address fun _ => hasAddress_of_isLvalue hfit.isLvalue).append
    (grows_store target.ty)).append (Code.Grows.discard target.ty.words)).congr ?_
  rw [hfit.words, Wanted.words]
  omega

theorem grows_storesCode (hsig : ∀ signature ∈ signatures, Callable signature)
    {targets values : List Expr} (hfit : List.Forall₂ Fitting targets values)
    (ht : ∀ target ∈ targets, TypedIn p own signatures target) :
    (storesCode p targets).Grows
      (Expr.leftoversOf targets - Ty.totalWords (values.map Expr.ty)) := by
  induction hfit with
  | nil => exact Code.Grows.nothing
  | cons hfit _ ih =>
    obtain ⟨htarget, htargets⟩ := List.forall_mem_cons.mp ht
    rw [storesCode]
    refine ((ih htargets).append (grows_storeCode hsig htarget hfit)).congr ?_
    rw [Expr.leftoversOf_cons, List.map_cons, Ty.totalWords]
    omega

theorem grows_unlessCode (hsig : ∀ signature ∈ signatures, Callable signature) {cond : Expr}
    (hc : TypedIn p own signatures cond) (target : Label) :
    (unlessCode p cond target).Grows (cond.ty.isString.toNat + cond.leftovers) := by
  refine ((grows_valueCode hsig hc).append (Code.Grows.ofInstrs _)).congr ?_
  rw [pushed]
  simp only [List.map_cons, List.map_nil, List.sum_cons, List.sum_nil, Instr.growth]
  omega

theorem grows_returnCode (hsig : ∀ signature ∈ signatures, Callable signature)
    {value : Option Expr} (hv : ∀ e ∈ value, TypedIn p own signatures e) :
    (returnCode p exit value).Grows (value.elim 0 Expr.leftovers : Nat) := by
  cases value with
  | none => exact Code.Grows.ofInstrs _
  | some e =>
    refine ((grows_valueCode hsig (hv e rfl)).append (Code.Grows.ofInstrs _)).congr ?_
    rw [pushed, Option.elim_some]
    cases e.ty.isString <;>
      simp [Instr.growth]

theorem grows_printCode (hsig : ∀ signature ∈ signatures, Callable signature) {arg : Expr}
    (ha : TypedIn p own signatures arg) : (printCode p arg).Grows arg.leftovers := by
  unfold printCode
  refine ((grows_valueCode hsig ha).append (n := -(pushed arg.ty : Int)) ?_).congr ?_
  · unfold pushed
    split
    · next h => exact ((Code.Grows.ofInstrs _).append (Code.Grows.call _)).congr (by rw [h]; rfl)
    · next h =>
      rw [Bool.not_eq_true] at h
      exact ((Code.Grows.ofInstrs _).append (Code.Grows.call _)).congr (by rw [h]; rfl)
  · omega

theorem grows_printsCode (hsig : ∀ signature ∈ signatures, Callable signature)
    (printer : Printer) : ∀ args : List Expr, (∀ arg ∈ args, TypedIn p own signatures arg) →
      (printsCode p printer args).Grows (Expr.leftoversOf args)
  | [], _ => Code.Grows.nothing
  | arg :: args, h => by
    obtain ⟨harg, hargs⟩ := List.forall_mem_cons.mp h
    have hspace : (if printer = .println then Code.call (.routine .printSpace)
        else Code.nothing).Grows 0 := by
      split
      · exact Code.Grows.call _
      · exact Code.Grows.nothing
    rw [printsCode]
    refine ((hspace.append (grows_printCode hsig harg)).append
      (grows_printsCode hsig printer args hargs)).congr ?_
    rw [Expr.leftoversOf_cons]
    omega

theorem grows_printingCode (hsig : ∀ signature ∈ signatures, Callable signature)
    (printer : Printer) {args : List Expr} (h : ∀ arg ∈ args, TypedIn p own signatures arg) :
    (printingCode p printer args).Grows (Expr.leftoversOf args) := by
  have hend : (if printer = .println then Code.call (.routine .printNewline)
      else Code.nothing).Grows 0 := by
    split
    · exact Code.Grows.call _
    · exact Code.Grows.nothing
  unfold printingCode
  cases args with
  | nil => exact Code.Grows.nothing.append hend
  | cons arg args =>
    obtain ⟨harg, hargs⟩ := List.forall_mem_cons.mp h
    refine (((grows_printCode hsig harg).append (grows_printsCode hsig printer args hargs)).append
      hend).congr ?_
    rw [Expr.leftoversOf_cons]
    omega

theorem grows_stmtsCode : ∀ (stmts : List Stmt),
    (∀ st ∈ stmts, ∀ base, (stmtCode p exit base st).Grows st.leftovers) →
    ∀ base, (stmtsCode p exit base stmts).Grows (Stmt.leftoversOf stmts)
  | [], _, _ => Code.Grows.nothing
  | st :: stmts, h, base => by
    obtain ⟨hst, hstmts⟩ := List.forall_mem_cons.mp h
    rw [stmtsCode]
    refine ((hst base).append (grows_stmtsCode stmts hstmts _)).congr ?_
    rw [Stmt.leftoversOf_cons]
    omega

/-- **The code of a statement leaves a word for each node that is overfull**, and nothing else. -/
theorem grows_stmtCode (hsig : ∀ signature ∈ signatures, Callable signature) {st : Stmt}
    (hst : Typing.TypedStmt own p.vars p.strings.length signatures st) :
    ∀ base, (stmtCode p exit base st).Grows st.leftovers := by
  induction hst with
  | @expr value _ he =>
    intro base
    rw [stmtCode]
    refine ((grows_valueCode hsig he).append (Code.Grows.discard _)).congr ?_
    rw [Stmt.leftovers_expr]
    cases hr : value.ty.isResolved with
    | true =>
      rw [pushed_eq_words hr, Bool.not_true, Bool.toNat_false]
      omega
    | false =>
      have hty : value.ty = .unknown := by
        by_contra h
        rw [Ty.isResolved_iff.mpr h] at hr
        cases hr
      rw [hty, pushed_eq_one rfl, Bool.not_false, Bool.toNat_true]
      change ((1 + value.leftovers : Int) + -(0 : Nat)) = _
      omega
  | ret _ he =>
    intro base
    rw [stmtCode, Stmt.leftovers_ret]
    exact grows_returnCode hsig he
  | block _ _ ih =>
    intro base
    rw [stmtCode, Stmt.leftovers_block]
    exact grows_stmtsCode _ ih base
  | @branch init cond body otherwise _ _ hc _ _ ihi ihb iho =>
    intro base
    rw [stmtCode, Stmt.leftovers_branch]
    refine (((((((ihi base).append (grows_unlessCode hsig hc _)).append
      (grows_stmtsCode body ihb _)).append (Code.Grows.ofInstrs _)).append
      (Code.Grows.label _)).append (iho _)).append (Code.Grows.label _)).congr ?_
    simp only [List.map_cons, List.map_nil, List.sum_cons, List.sum_nil, Instr.growth]
    omega
  | @loop init cond post body loc _ _ hc _ _ ihi ihp ihb =>
    intro base
    have hcond (target : Label) :
        (cond.elim Code.nothing fun cond => unlessCode p cond target).Grows
          ((cond.any (·.ty.isString)).toNat + (cond.elim 0 Expr.leftovers : Nat)) := by
      cases cond with
      | none => exact Code.Grows.nothing
      | some e => exact grows_unlessCode hsig (hc e rfl) target
    rw [stmtCode, Stmt.leftovers_loop]
    refine (((((((ihi base).append (Code.Grows.label _)).append (hcond _)).append
      (grows_stmtsCode body ihb _)).append (ihp _)).append (Code.Grows.ofInstrs _)).append
      (Code.Grows.label _)).congr ?_
    simp only [List.map_cons, List.map_nil, List.sum_cons, List.sum_nil, Instr.growth]
    omega
  | @assign targets values _ hfit ht hv =>
    intro base
    rw [stmtCode, Stmt.leftovers_assign]
    refine ((grows_exprsCode values fun e he => ⟨?_, grows_valueCode hsig (hv e he)⟩
      ).append (grows_storesCode hsig hfit ht)).congr ?_
    · exact Fitting.resolved_of_mem hfit he
    · omega
  | print _ ha =>
    intro base
    rw [stmtCode, Stmt.leftovers_print]
    exact grows_printingCode hsig _ ha
  | empty => exact fun base => Code.Grows.nothing

end Statements

end Lowering

end StackCompiler
