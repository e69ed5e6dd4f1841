/-!
# Text/Bytes — byte offsets into text

Positions in a source are counted in **bytes of UTF-8**, while the text itself is a list of
characters.  `byteLength` measures a text and `splitAt?` cuts it at an offset; a cut exists exactly
where the offset falls between two characters (`splitAt?_eq_some_iff`).
-/

namespace StackCompiler.Text

/-! ## Length in bytes -/

/-- The bytes that the characters take in UTF-8. -/
def byteLength : List Char → Nat
  | [] => 0
  | c :: cs => c.utf8Size + byteLength cs

@[simp] theorem byteLength_nil : byteLength [] = 0 := rfl

@[simp] theorem byteLength_cons (c : Char) (cs : List Char) :
    byteLength (c :: cs) = c.utf8Size + byteLength cs := rfl

@[simp] theorem byteLength_append (as bs : List Char) :
    byteLength (as ++ bs) = byteLength as + byteLength bs := by
  induction as with
  | nil => simp
  | cons c cs ih => simp [ih, Nat.add_assoc]

/-! ## Cutting at an offset -/

/-- The text before and after a byte offset; `none` past the end or **inside a character**. -/
def splitAt? : Nat → List Char → Option (List Char × List Char)
  | 0, cs => some ([], cs)
  | _ + 1, [] => none
  | n + 1, c :: cs =>
    if c.utf8Size ≤ n + 1 then
      (splitAt? (n + 1 - c.utf8Size) cs).map fun (before, after) => (c :: before, after)
    else none

@[simp] theorem splitAt?_zero (cs : List Char) : splitAt? 0 cs = some ([], cs) := by
  cases cs <;> rfl

theorem splitAt?_cons {c : Char} {n : Nat} (h : c.utf8Size ≤ n) (cs : List Char) :
    splitAt? n (c :: cs) =
      (splitAt? (n - c.utf8Size) cs).map fun (before, after) => (c :: before, after) := by
  cases n with
  | zero => exact absurd h (by have := c.utf8Size_pos; omega)
  | succ n => simp [splitAt?, h]

/-- A text is cut at **the length of what stands before** the cut. -/
theorem splitAt?_byteLength_append (as bs : List Char) :
    splitAt? (byteLength as) (as ++ bs) = some (as, bs) := by
  induction as with
  | nil => simp
  | cons c cs ih => simp [splitAt?_cons (Nat.le_add_right _ _), ih]

theorem append_of_splitAt? {n : Nat} {cs as bs : List Char} (h : splitAt? n cs = some (as, bs)) :
    cs = as ++ bs ∧ byteLength as = n := by
  fun_induction splitAt? n cs generalizing as bs with
  | case1 => simp_all
  | case2 => simp at h
  | case3 n c cs hc ih =>
    obtain ⟨⟨before, after⟩, hsplit, hpair⟩ := Option.map_eq_some_iff.1 h
    obtain ⟨rfl, rfl⟩ := Prod.mk.inj hpair
    obtain ⟨rfl, hlen⟩ := ih hsplit
    simp only [List.cons_append, byteLength_cons, true_and]
    omega
  | case4 => simp at h

/-- A cut at `n` splits the text in two, **the first part `n` bytes long**. -/
theorem splitAt?_eq_some_iff {n : Nat} {cs as bs : List Char} :
    splitAt? n cs = some (as, bs) ↔ cs = as ++ bs ∧ byteLength as = n :=
  ⟨append_of_splitAt?, by rintro ⟨rfl, rfl⟩; exact splitAt?_byteLength_append as bs⟩

/-- Two cuts of a text **at the same offset** are the same. -/
theorem append_inj_of_byteLength {as bs cs ds : List Char} (h : as ++ bs = cs ++ ds)
    (hlen : byteLength as = byteLength cs) : as = cs ∧ bs = ds := by
  have hsplit := splitAt?_byteLength_append as bs
  rw [h, hlen, splitAt?_byteLength_append] at hsplit
  obtain ⟨rfl, rfl⟩ := Prod.mk.inj (Option.some.inj hsplit)
  exact ⟨rfl, rfl⟩

/-- The text between two byte offsets; `none` if either is past the end or inside a character. -/
def slice? (start stop : Nat) (cs : List Char) : Option (List Char) := do
  let (_, after) ← splitAt? start cs
  let (between, _) ← splitAt? (stop - start) after
  return between

end StackCompiler.Text
