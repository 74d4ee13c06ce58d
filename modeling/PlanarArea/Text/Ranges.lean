/-!
Sets of characters given by ascending ranges of code points.
-/
namespace PlanarArea.Text

/-- Whether `n` lies in one of the ranges. The ranges ascend, so the search ends at the first
range that starts above `n`. -/
def inRanges : List (Nat × Nat) → Nat → Bool
  | [], _ => false
  | (lo, hi) :: rest, n => if n < lo then false else if n ≤ hi then true else inRanges rest n

@[simp] theorem inRanges_nil (n : Nat) : inRanges [] n = false := rfl

/-- A member of the set lies between the bounds of a listed range. -/
theorem exists_range_of_inRanges {rs : List (Nat × Nat)} {n : Nat} (h : inRanges rs n = true) :
    ∃ r ∈ rs, r.1 ≤ n ∧ n ≤ r.2 := by
  induction rs with
  | nil => simp at h
  | cons r rest ih =>
    unfold inRanges at h
    split at h
    · simp at h
    · split at h
      · exact ⟨r, by simp, by omega, by omega⟩
      · obtain ⟨q, hq, hb⟩ := ih h
        exact ⟨q, by simp [hq], hb⟩

end PlanarArea.Text
