import StackCompiler.Proofs.Machine.Run
import StackCompiler.Token.Lexeme

/-!
# Proofs/Machine/Names — how labels are written

A label that only the listing uses is written with `.L` in front, and no symbol is, so that the two
**never meet**.  Local labels that are written alike are the same label (`Label.eq_of_text`); symbols
need not be, as the package's name may be that of the routines.
-/

namespace StackCompiler

/-! ## Local labels -/

namespace Label

/-- Whether only the listing itself uses the label. -/
def isLocal : Label → Bool
  | symbol _ | routine _ => false
  | _ => true

/-- How the name of a local label starts. -/
def mark : List Char := ['.', 'L', '.']

theorem mark_prefix {l : Label} (h : l.isLocal = true) : mark <+: l.text.toList := by
  cases l with
  | symbol | routine => cases h
  | _ => simp [text, mark]

theorem toDigits_inj {n m : Nat} : Nat.toDigits 10 n = Nat.toDigits 10 m ↔ n = m := by
  refine ⟨fun h => ?_, congrArg _⟩
  rw [← Nat.ofDigitChars_ten_toDigits (n := n), h, Nat.ofDigitChars_ten_toDigits]

/-- A number is written with **digits alone**. -/
theorem toDigits_ne_append (n m : Nat) (rest : List Char) :
    Nat.toDigits 10 n ≠ Nat.toDigits 10 m ++ '.' :: rest := fun h => by
  have hdot : '.' ∈ Nat.toDigits 10 n := by
    rw [h]
    simp
  cases Nat.isDigit_of_mem_toDigits (by decide) (by decide) hdot

/-- **Local labels that are written alike are the same**, or are the returns of symbols that are
written alike. -/
theorem eq_of_text {l l' : Label} (h : l.isLocal = true) (h' : l'.isLocal = true)
    (htext : l.text = l'.text) :
    l = l' ∨ ∃ s s', l = returnOf s ∧ l' = returnOf s' ∧ s.text = s'.text := by
  have htext := congrArg String.toList htext
  cases l with
  | symbol | routine => cases h
  | returnOf s =>
    cases l' with
    | symbol | routine => cases h'
    | returnOf s' => exact .inr ⟨s, s', rfl, rfl, by simpa [text, String.toList_inj] using htext⟩
    | _ => simp [text] at htext
  | _ =>
    cases l' with
    | symbol | routine => cases h'
    | _ =>
      simp [text, toDigits_inj, toDigits_ne_append, (toDigits_ne_append _ _ _).symm] at htext ⊢ <;>
        exact htext

end Label

/-! ## Symbols -/

/-- The name could be one that a source gives: it is not empty, and holds **word characters only**. -/
def IsWord (name : String) : Prop :=
  ∃ c cs, name = String.ofList (c :: cs) ∧ Lexeme.isWordStart c = true ∧
    ∀ d ∈ cs, Lexeme.isWordChar d = true

theorem IsWord.dot_not_mem {name : String} (h : IsWord name) : '.' ∉ name.toList := by
  obtain ⟨c, cs, rfl, hc, hcs⟩ := h
  rw [String.toList_ofList]
  refine fun hmem => ?_
  rcases List.mem_cons.mp hmem with rfl | hmem
  · cases hc
  · cases hcs '.' hmem

theorem IsWord.head?_ne_dot {name : String} (h : IsWord name) (rest : List Char) :
    (name.toList ++ rest).head? ≠ some '.' := by
  obtain ⟨c, cs, rfl, hc, -⟩ := h
  rw [String.toList_ofList]
  rintro ⟨⟩
  cases hc

namespace Symbol

/-- The symbol is the entry, or a member of the package of that name. -/
def Within (package : String) : Symbol → Prop
  | entry => True
  | member p _ => p = package

theorem main_ne (p name : String) : "main" ≠ p ++ "." ++ name := fun h => by
  have hdot : '.' ∈ "main".toList := by
    rw [h]
    simp
  simp at hdot

/-- Symbols of one package are **written differently**. -/
theorem eq_of_text {package : String} {s s' : Symbol} (h : s.Within package)
    (h' : s'.Within package) (htext : s.text = s'.text) : s = s' := by
  cases s with
  | entry =>
    cases s' with
    | entry => rfl
    | member p name => exact absurd htext (main_ne p name)
  | member p name =>
    obtain rfl := h
    cases s' with
    | entry => exact absurd htext.symm (main_ne p name)
    | member p' name' =>
      obtain rfl := h'
      have htext := congrArg String.toList htext
      simp only [text, String.toList_append, List.append_cancel_left_eq] at htext
      rw [String.toList_injective htext]

/-- No symbol of a package starts as a local label does. -/
theorem not_mark_prefix {package : String} (hpackage : IsWord package) {s : Symbol}
    (h : s.Within package) : ¬Label.mark <+: s.text.toList := by
  have hhead : s.text.toList.head? ≠ some '.' := by
    cases s with
    | entry => simp [text]
    | member p name =>
      obtain rfl := h
      rw [text, String.toList_append, String.toList_append, List.append_assoc]
      exact hpackage.head?_ne_dot _
  rintro ⟨rest, hrest⟩
  exact hhead (hrest ▸ rfl)

/-- A name up to its first dot **tells the package**. -/
theorem append_dot_inj {p p' name name' : String} (hp : '.' ∉ p.toList) (hp' : '.' ∉ p'.toList)
    (h : p ++ "." ++ name = p' ++ "." ++ name') : p = p' ∧ name = name' := by
  have hcut {p : String} (hp : '.' ∉ p.toList) (name : String) :
      (p ++ "." ++ name).toList.takeWhile (· != '.') = p.toList := by
    have hnone : ∀ c ∈ p.toList, (c != '.') = true := fun c hc => bne_iff_ne.mpr (by
      rintro rfl
      exact hp hc)
    rw [String.toList_append, String.toList_append, List.append_assoc,
      List.takeWhile_append_of_pos hnone]
    simp
  have hsame : p = p' := String.toList_injective (by rw [← hcut hp name, h, hcut hp' name'])
  subst hsame
  have h := congrArg String.toList h
  simp only [String.toList_append, List.append_cancel_left_eq] at h
  exact ⟨rfl, String.toList_injective h⟩

end Symbol

/-! ## Routines -/

namespace Routine

/-- The package that the names of the routines have. -/
def package : String := "__rgoc"

/-- The routine's name behind that of its package. -/
def name : Routine → String
  | printInt => "printint"
  | printString => "printstring"
  | printSpace => "printsp"
  | printNewline => "printnl"

/-- The routines in the order in which they are listed. -/
def each : List Routine :=
  [printInt, printString, printSpace, printNewline]

theorem mem_each (r : Routine) : r ∈ each := by
  cases r <;> decide

theorem text_eq (r : Routine) : r.text = package ++ "." ++ r.name := by
  cases r <;> decide

theorem not_mark_prefix (r : Routine) : ¬Label.mark <+: r.text.toList := by
  cases r <;> simp [text, Label.mark]

theorem nodup_texts : (each.map text).Nodup := by
  simp [each, text]

/-- **A symbol is written like a routine in a package of that name alone.** -/
theorem text_eq_text_iff {package : String} (hpackage : IsWord package) {s : Symbol}
    (h : s.Within package) {r : Routine} :
    s.text = r.text ↔ s = .member Routine.package r.name := by
  refine ⟨fun htext => ?_, fun hs => by rw [hs, text_eq]; rfl⟩
  rw [text_eq] at htext
  cases s with
  | entry => exact absurd htext (Symbol.main_ne _ _)
  | member p name =>
    obtain rfl := h
    obtain ⟨rfl, rfl⟩ := Symbol.append_dot_inj hpackage.dot_not_mem (by decide) htext
    rfl

end Routine

end StackCompiler
