import StackCompiler.Proofs.Lowering.Labels
import StackCompiler.Proofs.Machine.Stack
import StackCompiler.Proofs.Meaning.Running

/-!
# Proofs/Lowering/Operations — what the operations on the stack come to

An operation takes its operands off the stack **in reverse**: the right one was pushed last.  What it
then computes in the registers is the result that the operation has on words (`exec_combine`), the
quotient of the 128 bits that a division starts from included.
-/

namespace StackCompiler

open Lowering Machine

variable (env : Environment) {m : Machine} {a b v : Int64} {d : Int}

/-! ## Comparisons -/

/-- A byte that tells whether something holds, widened to a word. -/
theorem widened_truth (c : Bool) : Int64.ofNat (if c then 1 else 0 : UInt8).toNat = truth c := by
  cases c <;> rfl

/-- **A comparison leaves in `rax` whether it holds.** -/
theorem exec_compared (relation : Relation) (ha : m.regs .rax = a) (hb : m.regs .rdi = b) :
    ∃ m', execAll env (combine.compared relation) m = some m' ∧
      m'.regs .rax = truth (relation.holds a b) ∧ SameStack m m' := by
  have hrax : Reg.rax ≠ .rsp ∧ Reg.rax ≠ .rbp := by decide
  refine ⟨_, rfl, ?_, ((SameStack.flagged m _).trans (.put hrax _ _)).trans (.put hrax _ _)⟩
  rw [regs_put_self, regs_put_self, lowByte_withLowByte, Flags.tells_ofSub, ha, hb]
  exact widened_truth _

/-! ## Division -/

/-- With its sign spread over `rdx`, a word is **the same number in 128 bits**. -/
theorem spread_dividend (a : Int64) :
    (if a < 0 then -1 else 0 : Int64).toInt * 2 ^ 64 + a.toBitVec.toNat = a.toInt := by
  have hint : a.toInt = a.toBitVec.toInt := rfl
  have hlt := a.toBitVec.isLt
  rw [BitVec.toInt_eq_toNat_cond] at hint
  by_cases h : a < 0
  · rw [if_pos h]
    rw [Int64.lt_iff_toInt_lt] at h
    change _ < (0 : Int) at h
    change (-1 : Int) * _ + _ = _
    split at hint <;> omega
  · rw [if_neg h]
    rw [Int64.lt_iff_toInt_lt] at h
    change ¬_ < (0 : Int) at h
    change (0 : Int) * _ + _ = _
    split at hint <;> omega

/-- The quotient of words **fits a word**, but for the one that overflows. -/
theorem toInt_quotient (h : ¬(a = Int64.minValue ∧ b = -1)) :
    a.toInt.tdiv b.toInt = (a / b).toInt := by
  rcases not_and_or.mp h with h | h
  · exact (Int64.toInt_div_of_ne_left a b h).symm
  · exact (Int64.toInt_div_of_ne_right a b h).symm

/-- **A division leaves the quotient in `rax`**, unless it faults. -/
theorem exec_division (h : BinaryOp.apply .div a b = some v) (ha : m.regs .rax = a)
    (hb : m.regs .rdi = b) :
    ∃ m', execAll env (combine .div) m = some m' ∧ m'.regs .rax = v ∧ SameStack m m' := by
  rw [BinaryOp.apply] at h
  split at h
  · cases h
  next hdiv =>
  obtain ⟨hzero, hoverflow⟩ := not_or.mp hdiv
  cases h
  have hrax : Reg.rax ≠ .rsp ∧ Reg.rax ≠ .rbp := by decide
  have hrdx : Reg.rdx ≠ .rsp ∧ Reg.rdx ≠ .rbp := by decide
  have hspread : SameStack m (m.put .rdx (if m.regs .rax < 0 then -1 else 0)) := .put hrdx _ _
  have hdividend : ((m.put .rdx (if m.regs .rax < 0 then -1 else 0)).regs .rdx).toInt * 2 ^ 64 +
      ((m.put .rdx (if m.regs .rax < 0 then -1 else 0)).regs .rax).toBitVec.toNat = a.toInt := by
    rw [regs_put_self, regs_put_of_ne (by decide), ha]
    exact spread_dividend a
  have hfits : Word.fits (a / b).toInt = true := Word.fits_iff.mpr (toInt_bounds _)
  refine ⟨(((m.put .rdx (if m.regs .rax < 0 then -1 else 0)).put .rax (a / b)).put .rdx
    (.ofInt (a.toInt.tmod b.toInt))).flagged none, ?_, ?_,
    ((hspread.trans (.put hrax _ _)).trans (.put hrdx _ _)).trans (.flagged _ none)⟩
  · change (divideSigned _ _).bind some = _
    rw [Option.bind_fun_some, divideSigned, hdividend, regs_put_of_ne (by decide), hb,
      toInt_quotient hoverflow, hfits, if_neg (by simp [hzero]), Int64.ofInt_toInt]
  · rw [regs_flagged, regs_put_of_ne (by decide), regs_put_self]

/-! ## Operations -/

/-- **What an operation computes in the registers is its result.** -/
theorem exec_combine {op : BinaryOp} (h : op.apply a b = some v) (ha : m.regs .rax = a)
    (hb : m.regs .rdi = b) :
    ∃ m', execAll env (combine op) m = some m' ∧ m'.regs .rax = v ∧ SameStack m m' := by
  have hrax : Reg.rax ≠ .rsp ∧ Reg.rax ≠ .rbp := by decide
  have harithmetic (w : Int64) (hw : w = v) (flags : Option Flags) :
      ((m.put .rax w).flagged flags).regs .rax = v ∧
        SameStack m ((m.put .rax w).flagged flags) :=
    ⟨by rw [regs_flagged, regs_put_self, hw], (SameStack.put hrax m w).trans (.flagged _ flags)⟩
  cases op with
  | add | sub | mul =>
    cases h
    exact ⟨_, rfl, harithmetic _ (by rw [ha, hb]) _⟩
  | div => exact exec_division env h ha hb
  | eq => cases h; exact exec_compared env .equal ha hb
  | ne => cases h; exact exec_compared env .notEqual ha hb
  | lt => cases h; exact exec_compared env .less ha hb
  | le => cases h; exact exec_compared env .lessEqual ha hb

/-- An operation puts its result **in the place of its operands**. -/
theorem leads_operate {op : BinaryOp} (h : op.apply (m.cell (d + 8)) (m.cell (d + 8 + 8)) = some v)
    (hm : m.IsDown (d + 8 + 8)) (hd : 0 ≤ d ∧ d + 16 ≤ 2 ^ 64) {l : Listing}
    (hl : (operate op).Gives l) : ∃ m', l.Leads env m m' ∧ Pushed d v m m' := by
  obtain ⟨m₁, hm₁, hrdi⟩ := exec_pop (r := .rdi) env hm (by decide)
  obtain ⟨m₂, hm₂, hrax⟩ := exec_pop (r := .rax) env hrdi.down (by decide)
  have hleft : m₂.regs .rax = m.cell (d + 8) := by
    rw [hrax.value]
    exact (hrdi.keeps (x := d + 8)).cell _ (by omega) le_rfl
  have hright : m₂.regs .rdi = m.cell (d + 8 + 8) := by
    rw [hrax.regs .rdi (by decide) (by decide), hrdi.value]
  obtain ⟨m₃, hm₃, hv, hsame⟩ := exec_combine env h hleft hright
  have hpushed := pushed_pushWord (hsame.isDown hrax.down) hd v
  have hpops : execAll env [.pop .rdi, .pop .rax] m = some m₂ := by
    rw [execAll, hm₁, Option.bind_some, execAll, hm₂]
    rfl
  have hpush : execAll env [.push .rax] m₃ = some (m₃.pushWord v) := by
    rw [← hv]
    rfl
  refine ⟨_, ⟨_, hl.ofInstrs, ?_⟩,
    hpushed.of_keeps ((hrdi.keeps.trans hrax.keeps).trans hsame.keeps)⟩
  rw [execAll_append, execAll_append, hpops, Option.bind_some, hm₃, Option.bind_some, hpush]

end StackCompiler
