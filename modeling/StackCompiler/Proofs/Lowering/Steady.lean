import StackCompiler.Proofs.Lowering.Package
import StackCompiler.Proofs.Machine.Descent

/-!
# Proofs/Lowering/Steady — code that keeps to its own words

`Listing.Steady` says of code what a path through it needs: from the height where it starts it only
takes off words that **stand above the frame**, calls are made at even heights, and labels and jumps
stand where the stack is empty.  The code of an expression is steady at every height, that of a
statement where the stack is empty.
-/

namespace StackCompiler

/-! ## Steady listings -/

/-- What an instruction of a body may do at that height, in words above the frame. -/
@[simp]
def Instr.SteadyAt (height : Int) : Instr → Prop
  | push _ | pushAt _ => True
  | pop r => 0 < height ∧ r ≠ .rsp ∧ r ≠ .rbp
  | addConst .rsp bytes => 8 ∣ bytes ∧ bytes ≤ 8 * height
  | subConst .rsp bytes => 8 ∣ bytes
  | jump target | jumpIf _ target => height = 0 ∧ ∀ s, target ≠ .symbol s
  | call _ => 2 ∣ height
  | ret => False
  | i => .rsp ∉ i.changed ∧ .rbp ∉ i.changed

/-- What a line of a body may do at that height. -/
@[simp]
def Line.SteadyAt (height : Int) : Line → Prop
  | label _ => height = 0
  | instr i => i.SteadyAt height

namespace Listing

/-- The listing keeps to the words that it pushed itself, and those that are there at the start. -/
def Steady : Listing → Int → Prop
  | [], _ => True
  | line :: l, height => line.SteadyAt height ∧ Steady l (height + line.growth)

theorem steady_append {height : Int} {l m : Listing} :
    Steady (l ++ m) height ↔ Steady l height ∧ Steady m (height + l.growth) := by
  induction l generalizing height with
  | nil => simp [Steady]
  | cons line l ih => rw [List.cons_append, Steady, Steady, ih, and_assoc, growth_cons, add_assoc]

end Listing

/-- The depth at that height above a frame of so many bytes, under which the caller's `rbp` is
kept. -/
def Depth.above (frame height : Int) : Depth :=
  ⟨some (8 + frame + 8 * height), some 8⟩

/-- What leaves `rsp` and `rbp` alone leaves the depth as it is. -/
theorem Depth.after_of_unchanged {d : Depth} {i : Instr} (hafter : d.after i =
      ⟨if .rsp ∈ i.changed then none else d.down, if .rbp ∈ i.changed then none else d.base⟩)
    (h : .rsp ∉ i.changed ∧ .rbp ∉ i.changed) : d.after i = d := by
  rw [hafter, if_neg h.1, if_neg h.2]

/-- A steady instruction moves the stack **as its growth says**. -/
theorem Instr.SteadyAt.after {i : Instr} {frame height : Int} (h : i.SteadyAt height) :
    (Depth.above frame height).after i = .above frame (height + i.growth) := by
  have hmoved {bytes words : Int} (hwords : bytes = 8 * words) :
      (⟨some (8 + frame + 8 * height + bytes), some 8⟩ : Depth) =
        .above frame (height + words) := by
    rw [Depth.above, hwords, mul_add, add_assoc (8 + frame)]
  have hstays (hafter : (Depth.above frame height).after i =
        ⟨if .rsp ∈ i.changed then none else (Depth.above frame height).down,
          if .rbp ∈ i.changed then none else (Depth.above frame height).base⟩)
      (hchanged : .rsp ∉ i.changed ∧ .rbp ∉ i.changed) (hgrowth : i.growth = 0) :
      (Depth.above frame height).after i = .above frame (height + i.growth) := by
    rw [hgrowth, add_zero, Depth.after_of_unchanged hafter hchanged]
  cases i with
  | push r | pushAt a => exact hmoved rfl
  | pop r =>
    obtain ⟨-, hsp, hbp⟩ := h
    cases r <;> first | exact hmoved rfl | exact absurd rfl hsp | exact absurd rfl hbp
  | addConst r bytes =>
    cases r with
    | rsp =>
      obtain ⟨⟨words, rfl⟩, -⟩ := h
      have hneg : -(8 * words) = 8 * -words := by omega
      refine (hmoved hneg).trans ?_
      rw [Instr.growth, Int.mul_ediv_cancel_left _ (by decide)]
    | _ => exact hstays rfl h rfl
  | subConst r bytes =>
    cases r with
    | rsp =>
      obtain ⟨words, rfl⟩ := h
      refine (hmoved rfl).trans ?_
      rw [Instr.growth, Int.mul_ediv_cancel_left _ (by decide)]
    | _ => exact hstays rfl h rfl
  | move dst src =>
    cases dst with
    | rsp => exact absurd List.mem_cons_self h.1
    | rbp => exact absurd List.mem_cons_self h.2
    | _ => exact hstays rfl h rfl
  | ret => exact h.elim
  | call target | jump target | jumpIf condition target =>
    exact hstays rfl ⟨List.not_mem_nil, List.not_mem_nil⟩ rfl
  | _ => exact hstays rfl h rfl

/-- A steady listing moves the stack as its growth says. -/
theorem Listing.Steady.along {l : Listing} {frame : Int} : ∀ {height : Int}, l.Steady height →
    (Depth.above frame height).along l = .above frame (height + l.growth) := by
  induction l with
  | nil => intro height _; rw [Depth.along_nil, Listing.growth_nil, add_zero]
  | cons line l ih =>
    intro height h
    have hline : (Depth.above frame height).afterLine line =
        .above frame (height + line.growth) := by
      cases line with
      | label name => rw [Line.growth, add_zero]; rfl
      | instr i => exact Instr.SteadyAt.after h.1
    rw [Depth.along_cons, hline, ih h.2, Listing.growth_cons, add_assoc]

/-! ## Steady code -/

/-- If there is code at that height, it is steady there. -/
def Code.SteadyFrom (code : Code) (height : Int) : Prop :=
  ∀ l, code height = .ok l → l.Steady height

@[simp] theorem Listing.steady_ofInstrs_nil (height : Int) :
    (Listing.ofInstrs []).Steady height ↔ True := Iff.rfl

@[simp] theorem Listing.steady_ofInstrs_cons (i : Instr) (instrs : List Instr) (height : Int) :
    (Listing.ofInstrs (i :: instrs)).Steady height ↔
      i.SteadyAt height ∧ (Listing.ofInstrs instrs).Steady (height + i.growth) := Iff.rfl

namespace Code.SteadyFrom

variable {first second : Code} {height words : Int}

theorem append (h₁ : first.SteadyFrom height) (hg : first.Grows words)
    (h₂ : second.SteadyFrom (height + words)) : (first ++ second).SteadyFrom height := by
  intro l hl
  obtain ⟨a, b, ha, hb, rfl⟩ := Code.append_eq_ok_iff.mp hl
  obtain ⟨a', ha', rfl⟩ := hg height
  cases ha.symm.trans ha'
  exact Listing.steady_append.mpr ⟨h₁ a ha, h₂ b hb⟩

theorem nothing : Code.nothing.SteadyFrom height :=
  fun l hl => by cases hl; trivial

theorem broken (fault : Fault) : (Code.broken fault).SteadyFrom height :=
  fun _ hl => nomatch hl

theorem ofInstrs {instrs : List Instr} (h : (Listing.ofInstrs instrs).Steady height) :
    (Code.ofInstrs instrs).SteadyFrom height :=
  fun l hl => by cases hl; exact h

theorem label (name : Label) : (Code.label name).SteadyFrom 0 :=
  fun l hl => by cases hl; exact ⟨rfl, trivial⟩

/-- A word of padding makes **every height even** where a call is made. -/
theorem call (target : Label) (h : 0 ≤ height) : (Code.call target).SteadyFrom height := by
  intro l hl
  cases hl
  split
  · next hodd =>
    rw [Int.tmod_eq_emod_of_nonneg h] at hodd
    simp [Instr.growth]
    omega
  · next heven =>
    rw [Int.tmod_eq_emod_of_nonneg h] at heven
    simp [Instr.growth]
    omega

theorem discard {count : Nat} (h : count ≤ height) : (Code.discard count).SteadyFrom height := by
  cases count with
  | zero => exact nothing
  | succ count =>
    refine ofInstrs ⟨⟨⟨_, rfl⟩, ?_⟩, trivial⟩
    push_cast at h ⊢
    omega

end Code.SteadyFrom

namespace Lowering

/-! ## Expressions -/

section Expressions

variable {p : Program} {own : VarId → Prop} {signatures : List Typing.Signature} {height : Int}

theorem steady_pushAddress (a : Address) : (pushAddress a).SteadyFrom height :=
  .ofInstrs (by simp)

theorem steady_variableAddress (id : VarId) : (variableAddress p id).SteadyFrom height := by
  unfold variableAddress
  split
  · exact .broken _
  · split <;> exact steady_pushAddress _

theorem steady_descriptorAddress (string : Nat) :
    (descriptorAddress p string).SteadyFrom height := by
  unfold descriptorAddress
  split
  · exact steady_pushAddress _
  · exact .broken _

theorem steady_fromAddress (ty : Ty) (wanted : Wanted) (h : 0 < height) :
    (fromAddress ty wanted).SteadyFrom height := by
  cases wanted with
  | address => exact .nothing
  | value =>
    cases ty with
    | array base len => exact .nothing
    | _ => exact .ofInstrs (by simp; omega)

theorem steady_store (ty : Ty) (h : pushed ty < height) : (store ty).SteadyFrom height := by
  unfold store
  unfold pushed at h
  cases hs : ty.isString with
  | true =>
    rw [hs] at h
    exact .ofInstrs (by simp [Instr.growth]; simp at h; omega)
  | false =>
    rw [hs] at h
    simp only [Bool.false_eq_true, if_false]
    split <;> exact .ofInstrs (by simp [Instr.growth]; simp at h; omega)

theorem steady_step (element : Ty) (h : 2 ≤ height) : (step element).SteadyFrom height := by
  refine .ofInstrs ?_
  split <;> simp [Instr.growth] <;> omega

theorem steady_operate (op : BinaryOp) (h : 2 ≤ height) : (operate op).SteadyFrom height := by
  refine .ofInstrs ?_
  cases op <;> simp [combine, combine.compared, Instr.growth] <;> omega

/-- As many words are taken as there are registers filled. -/
theorem steady_popArguments {count : Nat} (h : count ≤ height) :
    (popArguments count).SteadyFrom height := by
  have hpops : ∀ (regs : List Reg) (height : Int), regs.length ≤ height →
      (∀ r ∈ regs, r ≠ .rsp ∧ r ≠ .rbp) →
      (Listing.ofInstrs (regs.map Instr.pop)).Steady height := by
    intro regs
    induction regs with
    | nil => exact fun _ _ _ => trivial
    | cons r regs ih =>
      intro height hheight hregs
      rw [List.length_cons] at hheight
      obtain ⟨hr, hregs⟩ := List.forall_mem_cons.mp hregs
      refine ⟨⟨by omega, hr⟩, ih _ ?_ hregs⟩
      simp only [Line.growth, Instr.growth]
      omega
  unfold popArguments
  split
  · refine .ofInstrs (hpops _ _ ?_ fun r hr => ?_)
    · rw [List.length_reverse, List.length_take]
      omega
    · have hmem : r ∈ argumentRegs := List.mem_of_mem_take (List.mem_reverse.mp hr)
      revert hmem
      cases r <;> decide
  · exact .broken _

/-- Code for values is steady if the code for each of them is. -/
theorem steady_exprsCode : ∀ (es : List Expr) {height : Int}, 0 ≤ height →
    (∀ e ∈ es, ∀ height, 0 ≤ height → (exprCode p .value e).SteadyFrom height) →
    (∀ e ∈ es, (exprCode p .value e).Grows (pushed e.ty + e.leftovers)) →
    (exprsCode p es).SteadyFrom height
  | [], _, _, _, _ => .nothing
  | e :: es, height, h, hsteady, hgrows => by
    obtain ⟨he, hes⟩ := List.forall_mem_cons.mp hsteady
    obtain ⟨hge, hges⟩ := List.forall_mem_cons.mp hgrows
    rw [exprsCode]
    exact (he height h).append hge (steady_exprsCode es (by omega) hes hges)

/-- The code of a base takes off no more than **the address of a string** that it has left itself. -/
theorem steady_baseCode (hsig : ∀ signature ∈ signatures, Callable signature) {base : Expr}
    (hb : TypedIn p own signatures base) (h : ∀ wanted, (exprCode p wanted base).SteadyFrom height)
    (hheight : 0 ≤ height) : (baseCode p base).SteadyFrom height := by
  unfold baseCode
  split
  · exact h .address
  · next hty =>
    have haddress := hasAddress_of_ty hb (.inl (by rw [hty]; rfl))
    refine (h .address).append (grows_exprCode hsig hb .address fun _ => haddress) (.ofInstrs ?_)
    simp [Wanted.words]
    omega
  · exact h .value

/-- **The code of an expression takes off no word that it has not pushed.** -/
theorem steady_exprCode (hsig : ∀ signature ∈ signatures, Callable signature) {e : Expr}
    (he : TypedIn p own signatures e) : ∀ wanted height, 0 ≤ height →
      (exprCode p wanted e).SteadyFrom height := by
  have hvalue {wanted : Wanted} {code : Code} {height : Int} (h : code.SteadyFrom height) :
      (valueOnly wanted code).SteadyFrom height := by
    cases wanted with
    | value => exact h
    | address => exact .broken _
  induction he with
  | num _ =>
    intro wanted height _
    rw [exprCode]
    exact hvalue (.ofInstrs (by simp))
  | str h =>
    intro wanted height hheight
    rw [exprCode]
    exact (steady_descriptorAddress _).append (grows_descriptorAddress h.2)
      (steady_fromAddress _ _ (by omega))
  | var h =>
    intro wanted height hheight
    rw [exprCode]
    exact (steady_variableAddress _).append (grows_variableAddress h.1)
      (steady_fromAddress _ _ (by omega))
  | addr _ _ ih =>
    intro wanted height hheight
    rw [exprCode]
    exact hvalue (ih .address height hheight)
  | deref _ he ih =>
    intro wanted height hheight
    rw [exprCode]
    refine (ih .value height hheight).append (grows_valueCode hsig he)
      (steady_fromAddress _ _ ?_)
    rw [pushed]
    omega
  | binary _ hl hr ihl ihr =>
    intro wanted height hheight
    rw [exprCode]
    have hgl := grows_valueCode hsig hl
    have hgr := grows_valueCode hsig hr
    rw [pushed] at hgl hgr
    refine hvalue (((ihl .value height hheight).append hgl (ihr .value _ (by omega))).append
      (hgl.append hgr) (steady_operate _ (by omega)))
  | @index base position ty loc _ hb hp ihb ihp =>
    intro wanted height hheight
    have hgb := grows_baseCode hb (grows_exprCode hsig hb)
    have hgp := grows_valueCode hsig hp
    have hbase := steady_baseCode hsig hb (fun wanted => ihb wanted height hheight) hheight
    rw [exprCode_index]
    rw [pushed] at hgp
    exact ((hbase.append hgb (ihp .value _ (by omega))).append (hgb.append hgp)
      (steady_step ty (by omega))).append ((hgb.append hgp).append (grows_step ty))
      (steady_fromAddress ty wanted (by omega))
  | @call name args ty loc h hargs ih =>
    intro wanted height hheight
    obtain ⟨-, signature, hmem, -, hwords⟩ := h
    obtain ⟨hsum, hresolved⟩ := Typing.arguments_words hwords (hsig signature hmem).resolved
    have hfit : Ty.totalWords (args.map Expr.ty) ≤ maxArgumentWords :=
      hsum ▸ (hsig signature hmem).words
    have hgrows : ∀ arg ∈ args, (exprCode p .value arg).Grows (pushed arg.ty + arg.leftovers) :=
      fun arg harg => grows_valueCode hsig (hargs arg harg)
    have hgargs := grows_exprsCode args fun arg harg => ⟨hresolved arg harg, hgrows arg harg⟩
    have hgpops := hgargs.append (grows_popArguments hfit)
    rw [exprCode]
    exact hvalue ((((steady_exprsCode args hheight (fun arg harg => ih arg harg .value) hgrows).append
      hgargs (steady_popArguments (by omega))).append hgpops (.call _ (by omega))).append
        (hgpops.append (.call _)) (.ofInstrs (by simp [Instr.SteadyAt])))

end Expressions

/-! ## Statements -/

end Lowering

/-- Code of a statement: where the stack is empty it is steady, and leaves the stack **empty**. -/
structure Code.Level (code : Code) : Prop where
  grows : code.Grows 0
  steady : code.SteadyFrom 0

namespace Code.Level

variable {first second : Code}

theorem append (h₁ : first.Level) (h₂ : second.Level) : (first ++ second).Level :=
  ⟨h₁.grows.append h₂.grows, h₁.steady.append h₁.grows h₂.steady⟩

theorem nothing : Code.nothing.Level := ⟨.nothing, .nothing⟩

theorem label (name : Label) : (Code.label name).Level := ⟨.label name, .label name⟩

theorem call (target : Label) : (Code.call target).Level := ⟨.call target, .call target le_rfl⟩

theorem jump {target : Label} (h : ∀ s, target ≠ .symbol s) :
    (Code.ofInstrs [.jump target]).Level :=
  ⟨.ofInstrs _, .ofInstrs (by simp [h])⟩

end Code.Level

namespace Lowering

section Statements

variable {p : Program} {own : VarId → Prop} {signatures : List Typing.Signature} {s : Symbol}

theorem level_unlessCode (hsig : ∀ signature ∈ signatures, Callable signature) {cond : Expr}
    (hc : TypedIn p own signatures cond) (hs : cond.ty.isString = false) (hl : cond.leftovers = 0)
    {target : Label} (ht : ∀ s, target ≠ .symbol s) : (unlessCode p cond target).Level := by
  refine ⟨(grows_unlessCode hsig hc target).congr (by rw [hs, hl]; rfl),
    (steady_exprCode hsig hc .value 0 le_rfl).append (grows_valueCode hsig hc)
      (.ofInstrs ?_)⟩
  rw [pushed_eq_one hs, hl]
  simp [Instr.growth, ht]

theorem level_returnCode (hsig : ∀ signature ∈ signatures, Callable signature)
    {value : Option Expr} (hv : ∀ e ∈ value, TypedIn p own signatures e)
    (hl : value.elim 0 Expr.leftovers = 0) : (returnCode p (.returnOf s) value).Level := by
  refine ⟨(grows_returnCode hsig hv).congr (by rw [hl]; rfl), ?_⟩
  cases value with
  | none => exact .ofInstrs (by simp [Instr.SteadyAt])
  | some e =>
    refine (steady_exprCode hsig (hv e rfl) .value 0 le_rfl).append
      (grows_valueCode hsig (hv e rfl)) (.ofInstrs ?_)
    rw [pushed, show e.leftovers = 0 from hl]
    cases e.ty.isString <;> simp [Instr.growth]

theorem steady_storesCode (hsig : ∀ signature ∈ signatures, Callable signature)
    {targets values : List Expr} (hfit : List.Forall₂ Fitting targets values)
    (ht : ∀ target ∈ targets, TypedIn p own signatures target) {height : Int}
    (h : Ty.totalWords (values.map Expr.ty) ≤ height) :
    (storesCode p targets).SteadyFrom height := by
  induction hfit with
  | nil => exact .nothing
  | @cons target value targets values hfit hfits ih =>
    obtain ⟨htarget, htargets⟩ := List.forall_mem_cons.mp ht
    rw [List.map_cons, Ty.totalWords] at h
    have hgrows := grows_exprCode hsig htarget .address fun _ => hasAddress_of_isLvalue hfit.isLvalue
    have hwords : pushed target.ty = target.ty.words :=
      pushed_eq_words (Ty.isResolved_of_words_eq hfit.words hfit.resolved)
    have hfit := hfit.words
    rw [storesCode, storeCode]
    rw [Wanted.words] at hgrows
    refine (ih htargets (by omega)).append (grows_storesCode hsig hfits htargets) ?_
    exact ((steady_exprCode hsig htarget .address _ (by omega)).append hgrows
      (steady_store target.ty (by omega))).append (hgrows.append (grows_store target.ty))
      (.discard (by omega))

theorem level_assignment (hsig : ∀ signature ∈ signatures, Callable signature)
    {targets values : List Expr} (hfit : List.Forall₂ Fitting targets values)
    (ht : ∀ target ∈ targets, TypedIn p own signatures target)
    (hv : ∀ value ∈ values, TypedIn p own signatures value)
    (hl : Expr.leftoversOf values + Expr.leftoversOf targets = 0) :
    (exprsCode p values ++ storesCode p targets).Level := by
  have hgrows : ∀ value ∈ values, (exprCode p .value value).Grows
      (pushed value.ty + value.leftovers) :=
    fun value hmem => grows_valueCode hsig (hv value hmem)
  have hgvalues := grows_exprsCode values fun value hmem =>
    ⟨Fitting.resolved_of_mem hfit hmem, hgrows value hmem⟩
  refine ⟨(hgvalues.append (grows_storesCode hsig hfit ht)).congr (by omega),
    (steady_exprsCode values le_rfl
      (fun value hmem => steady_exprCode hsig (hv value hmem) .value) hgrows).append hgvalues
      (steady_storesCode hsig hfit ht (by omega))⟩

theorem level_printCode (hsig : ∀ signature ∈ signatures, Callable signature) {arg : Expr}
    (ha : TypedIn p own signatures arg) (hl : arg.leftovers = 0) : (printCode p arg).Level := by
  refine ⟨(grows_printCode hsig ha).congr (by rw [hl]; rfl), ?_⟩
  have hgrows := grows_valueCode hsig ha
  unfold printCode
  refine (steady_exprCode hsig ha .value 0 le_rfl).append hgrows ?_
  rw [hl, pushed]
  split
  · next hs =>
    rw [hs]
    exact Code.SteadyFrom.append (.ofInstrs (by simp [Instr.growth]))
      (.ofInstrs _) (.call _ (by simp [Instr.growth]))
  · next hs =>
    rw [Bool.not_eq_true] at hs
    rw [hs]
    exact Code.SteadyFrom.append (.ofInstrs (by simp [Instr.SteadyAt]))
      (.ofInstrs _) (.call _ (by simp [Instr.growth]))

/-- What `println` writes between and after the values. -/
theorem level_onlyFor (printer : Printer) (r : Routine) :
    (if printer = .println then Code.call (.routine r) else Code.nothing).Level := by
  split
  · exact .call _
  · exact .nothing

theorem level_printsCode (hsig : ∀ signature ∈ signatures, Callable signature)
    (printer : Printer) : ∀ args : List Expr, (∀ arg ∈ args, TypedIn p own signatures arg) →
      Expr.leftoversOf args = 0 → (printsCode p printer args).Level
  | [], _, _ => .nothing
  | arg :: args, h, hl => by
    obtain ⟨harg, hargs⟩ := List.forall_mem_cons.mp h
    rw [Expr.leftoversOf_cons] at hl
    rw [printsCode]
    exact ((level_onlyFor printer _).append (level_printCode hsig harg (by omega))).append
      (level_printsCode hsig printer args hargs (by omega))

theorem level_printingCode (hsig : ∀ signature ∈ signatures, Callable signature)
    (printer : Printer) {args : List Expr} (h : ∀ arg ∈ args, TypedIn p own signatures arg)
    (hl : Expr.leftoversOf args = 0) : (printingCode p printer args).Level := by
  unfold printingCode
  refine Code.Level.append ?_ (level_onlyFor printer _)
  cases args with
  | nil => exact .nothing
  | cons arg args =>
    obtain ⟨harg, hargs⟩ := List.forall_mem_cons.mp h
    rw [Expr.leftoversOf_cons] at hl
    exact (level_printCode hsig harg (by omega)).append
      (level_printsCode hsig printer args hargs (by omega))

theorem level_stmtsCode {exit : Label} : ∀ stmts : List Stmt,
    (∀ st ∈ stmts, st.leftovers = 0 → ∀ base, (stmtCode p exit base st).Level) →
    Stmt.leftoversOf stmts = 0 → ∀ base, (stmtsCode p exit base stmts).Level
  | [], _, _, _ => .nothing
  | st :: stmts, h, hl, base => by
    obtain ⟨hst, hstmts⟩ := List.forall_mem_cons.mp h
    rw [Stmt.leftoversOf_cons] at hl
    rw [stmtsCode]
    exact (hst (by omega) base).append (level_stmtsCode stmts hstmts (by omega) _)

/-- **The code of a statement is level**, if the statement leaves no words. -/
theorem level_stmtCode (hsig : ∀ signature ∈ signatures, Callable signature) {st : Stmt}
    (hst : Typing.TypedStmt own p.vars p.strings.length signatures st) (hl : st.leftovers = 0) :
    ∀ base, (stmtCode p (.returnOf s) base st).Level := by
  have hno {b : Bool} {n : Nat} (h : b.toNat + n = 0) : b = false ∧ n = 0 := by
    cases b with
    | false => exact ⟨rfl, (Nat.zero_add n).symm.trans h⟩
    | true => exact absurd h (by simp)
  induction hst with
  | @expr value _ he =>
    intro base
    rw [Stmt.leftovers_expr] at hl
    obtain ⟨hr, hvalue⟩ := hno hl
    rw [Bool.not_eq_false'] at hr
    have hgrows := grows_valueCode hsig he
    rw [pushed_eq_words hr] at hgrows
    rw [stmtCode]
    refine ⟨(hgrows.append (Code.Grows.discard _)).congr ?_,
      (steady_exprCode hsig he .value 0 le_rfl).append hgrows (.discard (by omega))⟩
    omega
  | ret _ he =>
    intro base
    rw [Stmt.leftovers_ret] at hl
    rw [stmtCode]
    exact level_returnCode hsig he hl
  | block _ hb ih =>
    intro base
    rw [Stmt.leftovers_block] at hl
    rw [stmtCode]
    exact level_stmtsCode _ ih hl base
  | @branch init cond body otherwise _ hi hc hb ho ihi ihb iho =>
    intro base
    rw [Stmt.leftovers_branch] at hl
    obtain ⟨hs, hl⟩ := hno hl
    rw [stmtCode]
    refine .append (.append (.append (.append (.append (.append ?_ ?_) ?_) ?_) (.label _)) ?_)
      (.label _)
    · exact ihi (by omega) base
    · exact level_unlessCode hsig hc hs (by omega) fun _ => Label.noConfusion
    · exact level_stmtsCode body ihb (by omega) _
    · exact .jump fun _ => Label.noConfusion
    · exact iho (by omega) _
  | @loop init cond post body loc _ hi hc hp hb ihi ihp ihb =>
    intro base
    rw [Stmt.leftovers_loop] at hl
    obtain ⟨hs, hl⟩ := hno hl
    have hcond (n : Nat) :
        (cond.elim Code.nothing fun cond => unlessCode p cond (.endOf n)).Level := by
      cases cond with
      | none => exact .nothing
      | some e =>
        rw [Option.elim_some] at hl
        exact level_unlessCode hsig (hc e rfl) hs (by omega) fun _ => Label.noConfusion
    rw [stmtCode]
    refine .append (.append (.append (.append (.append (.append ?_ (.label _)) (hcond _)) ?_) ?_) ?_)
      (.label _)
    · exact ihi (by omega) base
    · exact level_stmtsCode body ihb (by omega) _
    · exact ihp (by omega) _
    · exact .jump fun _ => Label.noConfusion
  | assign hfit ht hv =>
    intro base
    rw [Stmt.leftovers_assign] at hl
    rw [stmtCode]
    exact level_assignment hsig hfit ht hv hl
  | print _ ha =>
    intro base
    rw [Stmt.leftovers_print] at hl
    rw [stmtCode]
    exact level_printingCode hsig _ ha hl
  | empty => exact fun base => .nothing

end Statements

end Lowering

end StackCompiler
