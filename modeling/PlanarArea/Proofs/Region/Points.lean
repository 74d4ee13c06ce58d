import PlanarArea.Proofs.Region.Fan

/-!
# The points of a region

A region has the points that its rings go round an odd number of times and those of its edges. All
of them lie on one side of a line if the corners do, and almost none lies on an edge. A ring of four
corners that is a parallelogram has exactly the points between its two pairs of parallel sides.
-/
namespace PlanarArea

open MeasureTheory

namespace Point

variable {a b c d p u v x : Point ℝ}

/-- The points from `a` to `b`, both ends included. -/
def between (a b : Point ℝ) : Set (Point ℝ) :=
  {x | ∃ t : ℝ, 0 ≤ t ∧ t ≤ 1 ∧ x = a + (b - a) * t}

theorem cross_add_mul (u v a b : Point ℝ) (t : ℝ) :
    cross u v (a + (b - a) * t) = (1 - t) * cross u v a + t * cross u v b := by
  simp only [cross_eq, add_x, add_y, sub_x, sub_y, mul_x, mul_y, Scalar.real_add, Scalar.real_sub,
    Scalar.real_mul]
  ring

theorem cross_nonneg_of_mem_between (ha : 0 ≤ cross u v a) (hb : 0 ≤ cross u v b)
    (hx : x ∈ between a b) : 0 ≤ cross u v x := by
  obtain ⟨t, hlow, hhigh, rfl⟩ := hx
  rw [cross_add_mul]
  exact add_nonneg (mul_nonneg (sub_nonneg.mpr hhigh) ha) (mul_nonneg hlow hb)

/-- An edge has measure zero. -/
theorem ae_notMem_between (a b : Point ℝ) : ∀ᵐ z : ℝ × ℝ, (⟨z.1, z.2⟩ : Point ℝ) ∉ between a b := by
  by_cases h : b = a
  · have hoff : ∀ᵐ z : ℝ × ℝ, z.1 ≠ a.x :=
      Measure.quasiMeasurePreserving_fst.ae (Measure.ae_ne volume a.x)
    filter_upwards [hoff] with z hz
    rintro ⟨t, -, -, heq⟩
    exact hz (by simpa [h] using congrArg Point.x heq)
  · filter_upwards [ae_cross_ne_zero h] with z hz
    rintro ⟨t, -, -, heq⟩
    apply hz
    rw [heq, cross_add_mul]
    simp [cross_eq, mul_comm]

/-- An edge that has `p` on its left is crossed if it runs to the left over `p`. -/
theorem crossing_of_cross_pos (h : 0 < cross a b p) :
    crossing a b p = if p.x < a.x ∧ ¬ p.x < b.x then 1 else 0 := by
  have hforth : ¬ Below a b p := fun hbelow => hbelow.2.2.not_gt h
  have hback : Below b a p ↔ p.x < a.x ∧ ¬ p.x < b.x := by
    rw [Below, cross_swap a b, neg_lt_zero, not_lt, and_iff_left h, and_comm]
  rw [crossing, if_neg hforth, sub_zero]
  simp only [hback]

/-- The corners of a parallelogram in counter-clockwise order. -/
structure Parallelogram (a b c d : Point ℝ) : Prop where
  x : a.x + c.x = b.x + d.x
  y : a.y + c.y = b.y + d.y
  pos : 0 < cross a b d

/-- No side of the four has the point on its right. -/
@[mk_iff]
structure LeftOfSides (a b c d x : Point ℝ) : Prop where
  ab : 0 ≤ cross a b x
  bc : 0 ≤ cross b c x
  cd : 0 ≤ cross c d x
  da : 0 ≤ cross d a x

namespace Parallelogram

variable (h : Parallelogram a b c d)
include h

theorem last_corner : c.x = b.x + d.x - a.x ∧ c.y = b.y + d.y - a.y :=
  ⟨by linarith [h.x], by linarith [h.y]⟩

/-- Between two parallel sides the distances to them add up. -/
theorem cross_add_cross (x : Point ℝ) : cross a b x + cross c d x = cross a b d := by
  obtain ⟨hx, hy⟩ := h.last_corner
  simp only [cross_eq, hx, hy]
  ring

theorem cross_next : cross b c a = cross a b d := by
  obtain ⟨hx, hy⟩ := h.last_corner
  simp only [cross_eq, hx, hy]
  ring

theorem rotate : Parallelogram b c d a where
  x := by linarith [h.x]
  y := by linarith [h.y]
  pos := h.cross_next ▸ h.pos

/-- No corner lies on the right of a side. -/
theorem cross_corner_nonneg {w : Point ℝ} (hw : w ∈ [a, b, c, d]) : 0 ≤ cross a b w := by
  simp only [List.mem_cons, List.not_mem_nil, or_false] at hw
  rcases hw with rfl | rfl | rfl | rfl
  · exact (by rw [cross_eq]; ring : cross w b w = 0).ge
  · exact (by rw [cross_eq]; ring : cross a w w = 0).ge
  · rw [← cross_rotate, h.cross_next]
    exact h.pos.le
  · exact h.pos.le

theorem leftOfSides_corner {w : Point ℝ} (hw : w ∈ [a, b, c, d]) : LeftOfSides a b c d w := by
  have hround : ∀ n, w ∈ [a, b, c, d].rotate n := fun n => List.mem_rotate.mpr hw
  exact ⟨h.cross_corner_nonneg hw, h.rotate.cross_corner_nonneg (hround 1),
    h.rotate.rotate.cross_corner_nonneg (hround 2),
    h.rotate.rotate.rotate.cross_corner_nonneg (hround 3)⟩

/-- The distances to the sides are weights with which the corners balance at a point. -/
theorem balance (x : Point ℝ) :
    cross b c x * cross c d x * (a.x - x.x) + cross c d x * cross d a x * (b.x - x.x) +
      cross d a x * cross a b x * (c.x - x.x) + cross a b x * cross b c x * (d.x - x.x) = 0 := by
  obtain ⟨hx, hy⟩ := h.last_corner
  simp only [cross_eq, hx, hy]
  ring

/-- A point between the other two sides that is on the line of a side is on the side. -/
theorem mem_between (hline : cross a b x = 0) (hbc : 0 ≤ cross b c x) (hda : 0 ≤ cross d a x) :
    x ∈ between a b := by
  have hsum := h.rotate.cross_add_cross x
  rw [h.cross_next] at hsum
  have hpos := h.pos
  have hx : cross a b d * (x.x - a.x) = (b.x - a.x) * cross d a x := by
    simp only [cross_eq] at hline ⊢
    linear_combination (d.x - a.x) * hline
  have hy : cross a b d * (x.y - a.y) = (b.y - a.y) * cross d a x := by
    simp only [cross_eq] at hline ⊢
    linear_combination (d.y - a.y) * hline
  refine ⟨cross d a x / cross a b d, div_nonneg hda hpos.le, (div_le_one hpos).mpr (by linarith),
    eq_of_coords ?_ ?_⟩
  · simp only [add_x, mul_x, sub_x, Scalar.real_add, Scalar.real_mul, Scalar.real_sub]
    rw [mul_div_assoc', ← hx, mul_div_cancel_left₀ _ hpos.ne', add_sub_cancel]
  · simp only [add_y, mul_y, sub_y, Scalar.real_add, Scalar.real_mul, Scalar.real_sub]
    rw [mul_div_assoc', ← hy, mul_div_cancel_left₀ _ hpos.ne', add_sub_cancel]

end Parallelogram

end Point

namespace Ring

open Point (cross crossing between Parallelogram LeftOfSides)

variable {a b c d p x : Point ℝ}

/-- Among four that go round, of which neither all nor none nor every second one is taken, those
that are taken stand together. -/
theorem sum_last_taken {A B C D : Prop} [Decidable A] [Decidable B] [Decidable C] [Decidable D]
    (hall : ¬ (A ∧ B ∧ C ∧ D)) (hnone : A ∨ B ∨ C ∨ D) (hac : ¬ (A ∧ ¬ B ∧ C ∧ ¬ D))
    (hbd : ¬ (¬ A ∧ B ∧ ¬ C ∧ D)) :
    (if A ∧ ¬ B then 1 else 0) + (if B ∧ ¬ C then 1 else 0) + (if C ∧ ¬ D then 1 else 0) +
      (if D ∧ ¬ A then 1 else 0) = (1 : ℤ) := by
  by_cases hA : A <;> by_cases hB : B <;> by_cases hC : C <;> by_cases hD : D <;> simp_all

/-- A parallelogram goes once round a point inside. -/
theorem winding_parallelogram (h : Parallelogram a b c d) (hab : 0 < cross a b p)
    (hbc : 0 < cross b c p) (hcd : 0 < cross c d p) (hda : 0 < cross d a p) :
    winding [a, b, c, d] p = 1 := by
  have hbalance := h.balance p
  have hwa := mul_pos hbc hcd
  have hwb := mul_pos hcd hda
  have hwc := mul_pos hda hab
  have hwd := mul_pos hab hbc
  have hx := h.x
  have hsum : winding [a, b, c, d] p =
      crossing a b p + crossing b c p + crossing c d p + crossing d a p := by
    simp [winding, edges, add_assoc]
  rw [hsum, Point.crossing_of_cross_pos hab, Point.crossing_of_cross_pos hbc,
    Point.crossing_of_cross_pos hcd, Point.crossing_of_cross_pos hda]
  -- The vertical through the point has corners on both sides, those on one side next to each other.
  apply sum_last_taken
  · rintro ⟨ha, hb, hc, hd⟩
    linarith [mul_pos hwa (sub_pos.mpr ha), mul_pos hwb (sub_pos.mpr hb),
      mul_pos hwc (sub_pos.mpr hc), mul_pos hwd (sub_pos.mpr hd)]
  · by_contra hnone
    simp only [not_or, not_lt] at hnone
    obtain ⟨ha, hb, hc, hd⟩ := hnone
    have hna := mul_nonneg hwa.le (sub_nonneg.mpr ha)
    have hnb := mul_nonneg hwb.le (sub_nonneg.mpr hb)
    have hnc := mul_nonneg hwc.le (sub_nonneg.mpr hc)
    have hnd := mul_nonneg hwd.le (sub_nonneg.mpr hd)
    have ha := nonpos_of_mul_nonpos_right (by linarith : _ * (p.x - a.x) ≤ 0) hwa
    have hb := nonpos_of_mul_nonpos_right (by linarith : _ * (p.x - b.x) ≤ 0) hwb
    rw [Point.cross_eq, (by linarith : a.x = p.x), (by linarith : b.x = p.x)] at hab
    linarith
  · rintro ⟨ha, hb, hc, hd⟩
    linarith
  · rintro ⟨ha, hb, hc, hd⟩
    linarith

theorem sweptAbout_parallelogram (h : Parallelogram a b c d) :
    sweptAbout ⟨0, 0⟩ [a, b, c, d] = 2 * cross a b d := by
  obtain ⟨hx, hy⟩ := h.last_corner
  simp [sweptAbout, edges, Point.cross_eq, hx, hy]
  ring

end Ring

namespace Region

open Point (cross between Parallelogram LeftOfSides)

variable {r : Region ℝ} {a b c d u v x : Point ℝ}

/-- The points that the rings go round an odd number of times, and those on an edge. -/
def points (r : Region ℝ) : Set (Point ℝ) :=
  {x | Odd (r.winding x) ∨ ∃ ring ∈ r.rings, ∃ e ∈ ring.edges, x ∈ between e.1 e.2}

/-- A line that has no corner on its right has no point of the region on its right. -/
theorem cross_nonneg_of_mem_points (h : ∀ ring ∈ r.rings, ∀ w ∈ ring, 0 ≤ cross u v w)
    (hx : x ∈ r.points) : 0 ≤ cross u v x := by
  cases hx with
  | inl hodd =>
    by_contra hright
    have hzero : r.winding x = 0 := by
      apply List.sum_eq_zero
      intro n hn
      obtain ⟨ring, hring, rfl⟩ := List.mem_map.mp hn
      exact Ring.winding_eq_zero_of_cross_lt fun w hw =>
        (not_le.mp hright).trans_le (h ring hring w hw)
    simp [hzero] at hodd
  | inr hedge =>
    obtain ⟨ring, hring, e, he, hbetween⟩ := hedge
    obtain ⟨hstart, hstop⟩ := Ring.mem_of_mem_edges he
    exact Point.cross_nonneg_of_mem_between (h ring hring _ hstart) (h ring hring _ hstop) hbetween

theorem leftOfSides_of_mem_points
    (h : ∀ ring ∈ r.rings, ∀ w ∈ ring, LeftOfSides a b c d w) (hx : x ∈ r.points) :
    LeftOfSides a b c d x where
  ab := cross_nonneg_of_mem_points (fun ring hring w hw => (h ring hring w hw).ab) hx
  bc := cross_nonneg_of_mem_points (fun ring hring w hw => (h ring hring w hw).bc) hx
  cd := cross_nonneg_of_mem_points (fun ring hring w hw => (h ring hring w hw).cd) hx
  da := cross_nonneg_of_mem_points (fun ring hring w hw => (h ring hring w hw).da) hx

/-- Almost every point of a region is one by the even-odd rule. -/
theorem ae_mem_points_iff (r : Region ℝ) :
    ∀ᵐ z : ℝ × ℝ, (⟨z.1, z.2⟩ : Point ℝ) ∈ r.points ↔ z ∈ r.evenOdd := by
  have hoff : ∀ᵐ z : ℝ × ℝ, ∀ ring ∈ r.rings, ∀ e ∈ ring.edges,
      (⟨z.1, z.2⟩ : Point ℝ) ∉ between e.1 e.2 := by
    refine (Filter.eventually_all_finite r.rings.finite_toSet).mpr fun ring _ => ?_
    exact (Filter.eventually_all_finite ring.edges.finite_toSet).mpr fun e _ =>
      Point.ae_notMem_between e.1 e.2
  filter_upwards [hoff] with z hz
  rw [mem_evenOdd_iff]
  refine or_iff_left ?_
  rintro ⟨ring, hring, e, he, hbetween⟩
  exact hz ring hring e he hbetween

/-- The even-odd set of a region has finite measure. -/
theorem volume_evenOdd_ne_top (r : Region ℝ) : volume r.evenOdd ≠ ⊤ := by
  have hwinding : Integrable fun z : ℝ × ℝ => (r.winding ⟨z.1, z.2⟩ : ℝ) := by
    have hsum := (Ring.integral_sum_map fun ring (_ : ring ∈ r.rings) =>
      ring.integral_winding.1).1
    simpa only [winding, Int.cast_list_sum, List.map_map, Function.comp_def] using hsum
  refine ne_top_of_le_ne_top (hwinding.measure_norm_ge_lt_top one_pos).ne (measure_mono ?_)
  intro z hz
  rw [mem_evenOdd_iff] at hz
  have hone : 1 ≤ |r.winding ⟨z.1, z.2⟩| :=
    Int.one_le_abs fun hzero => by simp [hzero] at hz
  simpa [← Int.cast_abs] using (Int.cast_le (R := ℝ)).mpr hone

theorem mem_points_ofRing {ring : Ring ℝ} :
    x ∈ (ofRing ring).points ↔
      Odd (ring.winding x) ∨ ∃ e ∈ ring.edges, x ∈ between e.1 e.2 := by
  simp [points, rings, ofRing, winding]

/-- A parallelogram is what lies between its two pairs of parallel sides. -/
theorem mem_points_parallelogram (h : Parallelogram a b c d) :
    x ∈ (ofRing [a, b, c, d]).points ↔ LeftOfSides a b c d x := by
  constructor
  · intro hx
    refine leftOfSides_of_mem_points (fun ring hring w hw => ?_) hx
    obtain rfl : ring = [a, b, c, d] := by simpa [rings, ofRing] using hring
    exact h.leftOfSides_corner hw
  · rintro ⟨hab, hbc, hcd, hda⟩
    rw [mem_points_ofRing]
    rcases hab.lt_or_eq with hab' | hab'
    · rcases hbc.lt_or_eq with hbc' | hbc'
      · rcases hcd.lt_or_eq with hcd' | hcd'
        · rcases hda.lt_or_eq with hda' | hda'
          · rw [Ring.winding_parallelogram h hab' hbc' hcd' hda']
            exact .inl odd_one
          · have hon := h.rotate.rotate.rotate.mem_between hda'.symm hab hcd
            exact .inr ⟨(d, a), by simp [Ring.edges], hon⟩
        · have hon := h.rotate.rotate.mem_between hcd'.symm hda hbc
          exact .inr ⟨(c, d), by simp [Ring.edges], hon⟩
      · have hon := h.rotate.mem_between hbc'.symm hcd hab
        exact .inr ⟨(b, c), by simp [Ring.edges], hon⟩
    · have hon := h.mem_between hab'.symm hbc hda
      exact .inr ⟨(a, b), by simp [Ring.edges], hon⟩

theorem windsOnce_parallelogram (h : Parallelogram a b c d) : (ofRing [a, b, c, d]).WindsOnce := by
  refine Ring.windsOnce_of_fans (s := 1) abs_one ?_
  have hac : 0 ≤ cross a b c := h.cross_corner_nonneg (by simp)
  have had : 0 ≤ cross a b d := h.cross_corner_nonneg (by simp)
  have hcd : 0 ≤ cross c d a := h.rotate.rotate.cross_corner_nonneg (by simp)
  rw [Point.cross_rotate] at hcd
  simp [Ring.Fans, hac, had, hcd]

theorem area_parallelogram (h : Parallelogram a b c d) :
    (ofRing [a, b, c, d]).area = cross a b d := by
  rw [area_ofRing, Ring.area_eq_sweptAbout ⟨0, 0⟩, Ring.sweptAbout_parallelogram h,
    mul_div_cancel_left₀ _ two_ne_zero, abs_of_pos h.pos]

end Region

end PlanarArea
