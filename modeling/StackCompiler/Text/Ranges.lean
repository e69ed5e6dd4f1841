/-!
# Text/Ranges — sets of code points as sorted ranges

A property of characters is kept as a list of inclusive ranges in increasing order, so a look-up
stops at the first range that lies **above** the code point.
-/

namespace StackCompiler.Text

/-- Whether one of the ranges, which are in increasing order, holds the number. -/
def inRanges : List (Nat × Nat) → Nat → Bool
  | [], _ => false
  | (low, high) :: rest, n => if n < low then false else n ≤ high || inRanges rest n

theorem inRanges_sound {ranges : List (Nat × Nat)} {n : Nat} (h : inRanges ranges n = true) :
    ∃ r ∈ ranges, r.1 ≤ n ∧ n ≤ r.2 := by
  fun_induction inRanges ranges n with
  | case1 => simp at h
  | case2 => simp at h
  | case3 low high rest n hlow ih =>
    rcases Bool.or_eq_true_iff.1 h with hn | hn
    · exact ⟨(low, high), by simp, by simpa using hlow, by simpa using hn⟩
    · obtain ⟨r, hr, hb⟩ := ih hn
      exact ⟨r, by simp [hr], hb⟩

end StackCompiler.Text
