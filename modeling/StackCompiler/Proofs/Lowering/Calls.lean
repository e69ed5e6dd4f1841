import Mathlib.Data.List.Nodup
import StackCompiler.Proofs.Lowering.Parameters

/-!
# Proofs/Lowering/Calls — what a call passes, the function receives

A call pops the words of its arguments into the registers, **the last word first**, and the function
takes the registers from the first on, one for each word of its parameters.  As the arguments of a
typed call have the words of the parameters one for one, each parameter gets the words of its own
argument (`passes_of_compile`).
-/

namespace StackCompiler

open Machine

/-! ## Words on the stack -/

/-- The words on top of the stack, the first of them **at the bottom**. -/
def Machine.top (m : Machine) : Nat → List Int64
  | 0 => []
  | n + 1 => m.memory.word (m.regs .rsp + Int64.ofNat (8 * n)) :: m.top n

namespace Ty

/-- Shares are told by **how many words** each type has. -/
theorem shares_congr {ts us : List Ty} (h : ts.map words = us.map words) (ws : List Int64) :
    shares ts ws = shares us ws := by
  induction ts generalizing us ws with
  | nil =>
    cases us with
    | nil => rfl
    | cons u us => cases h
  | cons t ts ih =>
    cases us with
    | nil => cases h
    | cons u us =>
      obtain ⟨hwords, hrest⟩ := List.cons.inj h
      rw [shares, shares, hwords, ih hrest]

/-- Words that no type has a share of **do not matter**. -/
theorem shares_take {ts : List Ty} {n : Nat} (h : totalWords ts ≤ n) (ws : List Int64) :
    shares ts (ws.take n) = shares ts ws := by
  induction ts generalizing n ws with
  | nil => rfl
  | cons t ts ih =>
    rw [totalWords] at h
    rw [shares, shares, List.take_take, min_eq_left (by omega), List.drop_take,
      ih (n := n - t.words) (by omega)]

end Ty

namespace Lowering

variable (env : Environment) {p : Program} {f : Function}

/-! ## Popping arguments -/

/-- What takes the words of arguments of these types off the stack. -/
def pops (types : List Ty) : List Instr :=
  (argumentRegs.take (Ty.totalWords types)).reverse.map .pop

/-- **Popping registers from the last to the first** fills them with the words on top of the stack from
the lowest to the topmost. -/
theorem exec_pops {regs : List Reg} (hnodup : regs.Nodup) (hrsp : .rsp ∉ regs) (m : Machine) :
    ∃ m', execAll env (regs.reverse.map .pop) m = some m' ∧ regs.map m'.regs = m.top regs.length ∧
      m'.memory = m.memory ∧ m'.regs .rsp = m.regs .rsp + Int64.ofNat (8 * regs.length) ∧
      ∀ r, r ∉ regs → r ≠ .rsp → m'.regs r = m.regs r := by
  induction regs with
  | nil => exact ⟨m, rfl, rfl, rfl, (Int64.add_zero _).symm, fun _ _ _ => rfl⟩
  | cons reg regs ih =>
    obtain ⟨hreg, hnodup⟩ := List.nodup_cons.mp hnodup
    obtain ⟨hne, hrsp⟩ := not_or.mp (mt List.mem_cons.mpr hrsp)
    obtain ⟨m₁, hm₁, hwords, hmemory, hdown, hregs⟩ := ih hnodup hrsp
    refine ⟨(m₁.put .rsp (m₁.regs .rsp + 8)).put reg (m₁.memory.word (m₁.regs .rsp)), ?_, ?_, hmemory,
      ?_, fun r hr hr' => ?_⟩
    · rw [List.reverse_cons, List.map_append, execAll_append, hm₁]
      rfl
    · rw [List.map_cons, regs_put_self, hmemory, hdown, List.length_cons, top, ← hwords]
      refine congrArg (_ :: ·) (List.map_congr_left fun r hr => ?_)
      rw [regs_put_of_ne (by rintro rfl; exact hreg hr),
        regs_put_of_ne (by rintro rfl; exact hrsp hr)]
    · rw [regs_put_of_ne hne, regs_put_self, hdown, List.length_cons, Nat.mul_succ, Int64.ofNat_add]
      grind
    · obtain ⟨hr, hr''⟩ := not_or.mp (mt List.mem_cons.mpr hr)
      rw [regs_put_of_ne hr, regs_put_of_ne hr', hregs r hr'' hr']

/-! ## The code of a call -/

/-- What stands between the pops of a call at that height and the call itself. -/
def approach (height : Int) : List Instr :=
  .set .rax 0 :: if height.tmod 2 = 1 then [.subConst .rsp 8] else []

/-- On the way to the call **no argument is lost**. -/
theorem exec_approach (height : Int) (m : Machine) :
    ∃ m', execAll env (approach height) m = some m' ∧ m'.memory = m.memory ∧
      ∀ r, r ≠ .rax → r ≠ .rsp → m'.regs r = m.regs r := by
  unfold approach
  split
  · refine ⟨_, rfl, rfl, fun r hr hr' => ?_⟩
    rw [regs_flagged, regs_put_of_ne hr', regs_put_of_ne hr]
  · exact ⟨_, rfl, rfl, fun r hr _ => regs_put_of_ne hr m 0⟩

theorem call_eq (target : Label) (height : Int) :
    ∃ last, Code.call target height =
      .ok (Listing.ofInstrs (approach height) ++ .instr (.call target) :: last) := by
  unfold Code.call approach
  split
  · exact ⟨_, rfl⟩
  · exact ⟨[], rfl⟩

/-- The words that pops take off the stack come into the slots: after the pops the stack is shorter by
these words, and from the call the function's listing, whose first lines are so many, **receives the
words of each argument**. -/
def HandsOver (p : Program) (types : List Ty) (f : Function) (l : Listing) (lines : Nat) : Prop :=
  ∀ (env : Environment) (m : Machine) (height : Int) (ret : Int64), ∃ m₁ m₂ m₃,
    execAll env (pops types) m = some m₁ ∧ m₁.memory = m.memory ∧
    m₁.regs .rsp = m.regs .rsp + Int64.ofNat (8 * Ty.totalWords types) ∧
    execAll env (approach height) m₁ = some m₂ ∧
    Runs env l ⟨0, m₂.pushWord ret⟩ ⟨lines, m₃⟩ ∧
    Received p f (Ty.shares types (m.top (Ty.totalWords types))) (m₂.pushWord ret) m₃

/-- The code of a call with these arguments and the listing of a function **agree**. -/
structure Passes (p : Program) (name : String) (args : List Expr) (f : Function) (l : Listing) :
    Prop where
  /-- The words fit the registers of arguments. -/
  fits : Ty.totalWords (args.map Expr.ty) ≤ argumentRegs.length
  /-- Each argument leaves the words of its type. -/
  grows : ∀ arg ∈ args, (exprCode p .value arg).Grows arg.ty.words
  /-- The call is made of its arguments, of pops that take off what these have left, and of the
  instruction that leads to the function. -/
  code : ∀ ty loc height, ∃ first last, exprsCode p args height = .ok first ∧
    first.growth + (Listing.ofInstrs (pops (args.map Expr.ty))).growth = 0 ∧
    exprCode p .value (.call name args ty loc) height =
      .ok (first ++ Listing.ofInstrs (pops (args.map Expr.ty) ++ approach height) ++
        .instr (.call (.symbol (p.symbol name))) :: last)
  /-- The function's label, prologue and moves bring what each argument has left into the slot of its
  parameter. -/
  receives : ∃ moves rest, l = .label (.symbol (p.symbol name)) ::
      Listing.ofInstrs (prologue f.frame ++ moves) ++ rest ∧
    HandsOver p (args.map Expr.ty) f l ((prologue f.frame ++ moves).length + 1)

theorem popArguments_eq {types : List Ty} (h : Ty.totalWords types ≤ argumentRegs.length) :
    popArguments (Ty.totalWords types) = .ofInstrs (pops types) :=
  if_pos h

/-- The code of a call is put together **from its parts**. -/
theorem exprCode_call {args : List Expr} (hfits : Ty.totalWords (args.map Expr.ty) ≤ maxArgumentWords)
    (hgrows : (exprsCode p args).Grows (Ty.totalWords (args.map Expr.ty))) (name : String) (ty : Ty)
    (loc : Nat) (height : Int) :
    ∃ first last, exprsCode p args height = .ok first ∧
      first.growth + (Listing.ofInstrs (pops (args.map Expr.ty))).growth = 0 ∧
      exprCode p .value (.call name args ty loc) height =
        .ok (first ++ Listing.ofInstrs (pops (args.map Expr.ty) ++ approach height) ++
          .instr (.call (.symbol (p.symbol name))) :: last) := by
  obtain ⟨first, hfirst, hgrowth⟩ := hgrows height
  obtain ⟨popped, hpopped, hpopgrowth⟩ := grows_popArguments hfits (height + first.growth)
  rw [popArguments_eq hfits] at hpopped
  cases hpopped
  have hzero : first.growth + (Listing.ofInstrs (pops (args.map Expr.ty))).growth = 0 := by omega
  obtain ⟨last, hlast⟩ := call_eq (.symbol (p.symbol name)) height
  refine ⟨first, last ++ Listing.ofInstrs [.push .rax], hfirst, hzero, ?_⟩
  have hpopped : (exprsCode p args ++ .ofInstrs (pops (args.map Expr.ty))) height =
      .ok (first ++ Listing.ofInstrs (pops (args.map Expr.ty))) :=
    Code.append_eq_ok_iff.mpr ⟨_, _, hfirst, rfl, rfl⟩
  have hcall : (exprsCode p args ++ .ofInstrs (pops (args.map Expr.ty)) ++
      .call (.symbol (p.symbol name))) height =
      .ok (first ++ Listing.ofInstrs (pops (args.map Expr.ty)) ++
        (Listing.ofInstrs (approach height) ++ .instr (.call (.symbol (p.symbol name))) :: last)) :=
    Code.append_eq_ok_iff.mpr ⟨_, _, hpopped,
      by rwa [Listing.growth_append, hzero, Int.add_zero], rfl⟩
  rw [exprCode, valueOnly, popArguments_eq hfits]
  refine (Code.append_eq_ok_iff.mpr ⟨_, _, hcall, rfl, rfl⟩).trans ?_
  simp [Listing.ofInstrs]

/-- **What the pops take off the stack comes into the slots.** -/
theorem handsOver_of_typed {strings : Nat} {signatures : List Typing.Signature}
    (hf : f.Typed p.vars strings signatures) {types : List Ty}
    (hfits : Ty.totalWords types ≤ argumentRegs.length)
    (hwords : types.map Ty.words = (f.params.map (Typing.tyOf p.vars)).map Ty.words)
    {moves : List Instr} (hmoves : spills p f.params argumentRegs = .ok moves) {l : Listing}
    {name : Label} (hl : .label name :: Listing.ofInstrs (prologue f.frame ++ moves) <+: l) :
    HandsOver p types f l ((prologue f.frame ++ moves).length + 1) := by
  intro env m height ret
  have hlength : (argumentRegs.take (Ty.totalWords types)).length = Ty.totalWords types :=
    List.length_take_of_le hfits
  have hargs : ∀ r ∈ argumentRegs, r ≠ .rax ∧ r ≠ .rsp := by decide
  have hnodup : (argumentRegs.take (Ty.totalWords types)).Nodup :=
    List.Nodup.sublist (List.take_sublist _ _) (by decide)
  obtain ⟨m₁, hm₁, htop, hmemory₁, hdown, -⟩ := exec_pops env hnodup
    (fun h => (hargs _ (List.mem_of_mem_take h)).2 rfl) m
  rw [hlength] at htop hdown
  obtain ⟨m₂, hm₂, -, hregs₂⟩ := exec_approach env height m₁
  obtain ⟨m₃, hm₃, hreceived⟩ := exec_receive env hf hmoves (m₂.pushWord ret)
  refine ⟨m₁, m₂, m₃, hm₁, hmemory₁, hdown, hm₂, Runs.entry hl hm₃, ?_⟩
  have hregs : argumentRegs.map (m₂.pushWord ret).regs = argumentRegs.map m₁.regs :=
    List.map_congr_left fun r hr => by
      obtain ⟨hrax, hrsp⟩ := hargs r hr
      exact (regs_put_of_ne hrsp m₂ _).trans (hregs₂ r hrax hrsp)
  rwa [hregs, ← Ty.shares_congr hwords, ← Ty.shares_take le_rfl, ← List.map_take, htop] at hreceived

/-- **A typed call and the function of its name agree**, if its arguments leave no words too many. -/
theorem passes_of_typed (hp : p.Typed) (hf : f ∈ p.declared) {args : List Expr}
    {own : VarId → Prop} (hargs : ∀ arg ∈ args, TypedIn p own p.signatures arg)
    (hwords : List.Forall₂ (fun arg param => arg.ty.words = param.words) args
      (Typing.signatureOf p.vars f).params)
    (hleft : Expr.leftoversOf args = 0) {base : Nat} {l : Listing}
    (hl : functionCode p f base = .ok l) : Passes p f.name args f l := by
  have hsig := callable_of_typed hp
  have hcallable := hsig _ (List.mem_map.mpr ⟨f, hf, rfl⟩)
  obtain ⟨hsum, hresolved⟩ := Typing.arguments_words hwords hcallable.resolved
  have hfits : Ty.totalWords (args.map Expr.ty) ≤ maxArgumentWords := hsum ▸ hcallable.words
  have hgrows : ∀ arg ∈ args, (exprCode p .value arg).Grows (pushed arg.ty + arg.leftovers) :=
    fun arg harg => grows_valueCode hsig (hargs arg harg)
  obtain ⟨hmem, himplicit⟩ := List.mem_filter.mp hf
  have hsymbol : p.functionSymbol f = p.symbol f.name :=
    if_neg (by rwa [Bool.not_eq_true, ← Bool.not_eq_true'])
  obtain ⟨moves, body, hmoves, -, -, hlisting⟩ := functionCode_ok hl
  rw [hsymbol, List.append_assoc] at hlisting
  have hwords' : (args.map Expr.ty).map Ty.words =
      (f.params.map (Typing.tyOf p.vars)).map Ty.words := by
    rw [List.map_map]
    exact List.forall₂_eq_eq_eq ▸ List.forall₂_map_left_iff.mpr
      (List.forall₂_map_right_iff.mpr hwords)
  refine ⟨hfits, fun arg harg => ?_, exprCode_call hfits ?_ f.name, moves, _, hlisting,
    handsOver_of_typed (hp.funcs f hmem) hfits hwords' hmoves ⟨_, hlisting.symm⟩⟩
  · refine (hgrows arg harg).congr ?_
    rw [pushed_eq_words (hresolved arg harg), Expr.leftovers, Expr.tally_eq_zero_of_mem hleft harg]
    rfl
  · refine (grows_exprsCode args fun arg harg => ⟨hresolved arg harg, hgrows arg harg⟩).congr ?_
    rw [hleft]
    rfl

end Lowering

open Lowering

/-- No two functions of a resolved program **have the same name**. -/
theorem Program.Resolved.names {p p' : Program} (hread : p.Read) (h : p.Resolved p') :
    (p'.declared.map Function.name).Nodup := by
  have hnames (q : Program) : q.declared.map Function.name = q.signatures.map (·.name) := by
    rw [Program.signatures, List.map_map]
    rfl
  rw [hnames, h.signatures, ← hnames]
  exact hread.names

/-- A call leads to the one function of its name, and **what it passes, that function receives**. -/
def Compilation.Connects (c : Compilation) : Expr → Prop
  | .call name args _ _ => ∃ f ∈ c.program.declared, f.name = name ∧
    (∀ g ∈ c.program.declared, g.name = name → g = f) ∧ (∃ l, c.Emits f l) ∧
    ∀ l, c.Emits f l → Passes c.program name args f l
  | _ => True

/-- A string, a byte, a pointer and numbers of both sizes, passed by a call inside a call. -/
def textOfMixedCall : String :=
  "package p func f(s string, b byte, q *int, k int32, n int) int \x7b return n \x7d
  func main() \x7b x := 1; println(f(\"ab\", 7, &x, 3, f(\"\", 1, &x, 2, 5))) \x7d"

end StackCompiler
