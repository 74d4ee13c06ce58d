import PlanarArea.Proofs.Region.NormalForm
import PlanarArea.Proofs.Region.Points

/-!
# The box of a half plane

A directed line gives every point two coordinates, how far along the line it is and how far to the
left. The half plane of two points is the box that reaches `extent` to the left of their line and
`extent` beyond both points. With the box of the opposite direction it holds whatever is within
`extent` of the segment, and the two have nothing in common but points of the line.
-/
namespace PlanarArea

namespace Point

variable {p q x m : Point ℝ} {extent : ℝ}

/-- The distance of `x` from the directed line from `p` to `q`, negative on its right. -/
noncomputable def rise (p q x : Point ℝ) : ℝ :=
  cross p q x / (q - p).norm

/-- The coordinate of `x` along the line, zero at `p`. -/
noncomputable def run (p q x : Point ℝ) : ℝ :=
  (x - p).dot (q - p) / (q - p).norm

/-- The points that are not farther than `extent` from the segment. -/
def reach (p q : Point ℝ) (extent : ℝ) : Set (Point ℝ) :=
  {x | ∃ m ∈ between p q, (x - m).norm ≤ extent}

theorem norm_sq (p : Point ℝ) : p.norm ^ 2 = p.x ^ 2 + p.y ^ 2 := by
  simp only [norm, Scalar.real_sqrt, Scalar.real_add, ← sq]
  exact Real.sq_sqrt (add_nonneg (sq_nonneg _) (sq_nonneg _))

theorem norm_nonneg (p : Point ℝ) : 0 ≤ p.norm :=
  Real.sqrt_nonneg _

theorem norm_sub_sq (p q : Point ℝ) : (p - q).norm ^ 2 = (p.x - q.x) ^ 2 + (p.y - q.y) ^ 2 :=
  norm_sq (p - q)

/-- The vector of length one along the line. -/
noncomputable def direction (p q : Point ℝ) : Point ℝ :=
  (q - p) / (q - p).norm

theorem direction_sq (h : 0 < (q - p).norm) :
    (direction p q).x ^ 2 + (direction p q).y ^ 2 = 1 := by
  simp only [direction, div_x, div_y, Scalar.real_div, div_pow]
  rw [← add_div, ← norm_sq, div_self (pow_ne_zero 2 h.ne')]

theorem add_direction_mul_norm (h : 0 < (q - p).norm) : p + direction p q * (q - p).norm = q := by
  apply eq_of_coords
  · simp [direction, div_mul_cancel₀ _ h.ne']
  · simp [direction, div_mul_cancel₀ _ h.ne']

theorem rise_eq (p q x : Point ℝ) :
    rise p q x = (direction p q).x * (x.y - p.y) - (direction p q).y * (x.x - p.x) := by
  simp only [rise, cross_eq, direction, div_x, div_y, sub_x, sub_y, Scalar.real_sub,
    Scalar.real_div]
  ring

theorem run_eq (p q x : Point ℝ) :
    run p q x = (direction p q).x * (x.x - p.x) + (direction p q).y * (x.y - p.y) := by
  simp only [run, dot, direction, div_x, div_y, sub_x, sub_y, Scalar.real_add, Scalar.real_sub,
    Scalar.real_mul, Scalar.real_div]
  ring

section Coordinates

variable (h : 0 < (q - p).norm)
include h

/-- The two coordinates measure distances. -/
theorem norm_sub_sq_eq (x m : Point ℝ) :
    (x - m).norm ^ 2 = (rise p q x - rise p q m) ^ 2 + (run p q x - run p q m) ^ 2 := by
  simp only [norm_sub_sq, rise_eq, run_eq]
  linear_combination -((x.x - m.x) ^ 2 + (x.y - m.y) ^ 2) * direction_sq h

theorem abs_rise_sub_le (x m : Point ℝ) : |rise p q x - rise p q m| ≤ (x - m).norm := by
  apply abs_le_of_sq_le_sq _ (norm_nonneg _)
  rw [norm_sub_sq_eq h]
  exact le_add_of_nonneg_right (sq_nonneg _)

theorem abs_run_sub_le (x m : Point ℝ) : |run p q x - run p q m| ≤ (x - m).norm := by
  apply abs_le_of_sq_le_sq _ (norm_nonneg _)
  rw [norm_sub_sq_eq h]
  exact le_add_of_nonneg_left (sq_nonneg _)

/-- In the two coordinates the turn from point to point is the same. -/
theorem cross_eq_run_rise (a b x : Point ℝ) :
    cross a b x = (run p q b - run p q a) * (rise p q x - rise p q a) -
      (rise p q b - rise p q a) * (run p q x - run p q a) := by
  simp only [cross_eq, rise_eq, run_eq]
  linear_combination -((b.x - a.x) * (x.y - a.y) - (b.y - a.y) * (x.x - a.x)) * direction_sq h

theorem rise_add_turnLeft (x : Point ℝ) (t : ℝ) :
    rise p q (x + (direction p q).turnLeft * t) = rise p q x + t := by
  simp only [rise_eq, turnLeft, add_x, add_y, mul_x, mul_y, Scalar.real_add, Scalar.real_mul,
    Scalar.real_neg]
  linear_combination t * direction_sq h

theorem run_add_direction (x : Point ℝ) (t : ℝ) :
    run p q (x + direction p q * t) = run p q x + t := by
  simp only [run_eq, add_x, add_y, mul_x, mul_y, Scalar.real_add, Scalar.real_mul]
  linear_combination t * direction_sq h

end Coordinates

theorem rise_add_direction (p q x : Point ℝ) (t : ℝ) :
    rise p q (x + direction p q * t) = rise p q x := by
  simp only [rise_eq, add_x, add_y, mul_x, mul_y, Scalar.real_add, Scalar.real_mul]
  ring

theorem run_add_turnLeft (p q x : Point ℝ) (t : ℝ) :
    run p q (x + (direction p q).turnLeft * t) = run p q x := by
  simp only [run_eq, turnLeft, add_x, add_y, mul_x, mul_y, Scalar.real_add, Scalar.real_mul,
    Scalar.real_neg]
  ring

theorem rise_run_start (p q : Point ℝ) : rise p q p = 0 ∧ run p q p = 0 := by
  simp [rise_eq, run_eq]

theorem rise_swap (p q x : Point ℝ) : rise q p x = -rise p q x := by
  rw [rise, rise, cross_swap, norm_sub_comm, neg_div]

theorem run_swap (h : 0 < (q - p).norm) (x : Point ℝ) :
    run q p x = (q - p).norm - run p q x := by
  have hnorm := norm_sq (q - p)
  rw [run, run, norm_sub_comm p, eq_sub_iff_add_eq, ← add_div, div_eq_iff h.ne', ← sq, hnorm]
  simp only [dot, sub_x, sub_y, Scalar.real_sub, Scalar.real_mul, Scalar.real_add]
  ring

/-- The point with given coordinates. -/
noncomputable def onAxes (p q : Point ℝ) (u v : ℝ) : Point ℝ :=
  p + direction p q * u + (direction p q).turnLeft * v

theorem run_onAxes (h : 0 < (q - p).norm) (u v : ℝ) : run p q (onAxes p q u v) = u := by
  rw [onAxes, run_add_turnLeft, run_add_direction h, (rise_run_start p q).2, zero_add]

theorem rise_onAxes (h : 0 < (q - p).norm) (u v : ℝ) : rise p q (onAxes p q u v) = v := by
  rw [onAxes, rise_add_turnLeft h, rise_add_direction, (rise_run_start p q).1, zero_add]

end Point

open Point

variable {p q x : Point ℝ} {u₀ u₁ v₀ v₁ extent : ℝ}

/-- The corners with the coordinates `u₀` or `u₁` along the line and `v₀` or `v₁` to its left. -/
noncomputable def Ring.rectangle (p q : Point ℝ) (u₀ u₁ v₀ v₁ : ℝ) : Ring ℝ :=
  [onAxes p q u₀ v₀, onAxes p q u₁ v₀, onAxes p q u₁ v₁, onAxes p q u₀ v₁]

section Rectangle

variable (h : 0 < (q - p).norm)
include h

theorem parallelogram_rectangle (hu : u₀ < u₁) (hv : v₀ < v₁) :
    Parallelogram (onAxes p q u₀ v₀) (onAxes p q u₁ v₀) (onAxes p q u₁ v₁) (onAxes p q u₀ v₁) where
  x := by
    simp [onAxes]
    ring
  y := by
    simp [onAxes]
    ring
  pos := by
    simp only [cross_eq_run_rise h, run_onAxes h, rise_onAxes h]
    simpa using mul_pos (sub_pos.mpr hu) (sub_pos.mpr hv)

/-- A rectangle holds the points whose coordinates lie between those of its corners. -/
theorem Region.mem_points_rectangle (hu : u₀ < u₁) (hv : v₀ < v₁) :
    x ∈ (ofRing (Ring.rectangle p q u₀ u₁ v₀ v₁)).points ↔
      (v₀ ≤ rise p q x ∧ rise p q x ≤ v₁) ∧ u₀ ≤ run p q x ∧ run p q x ≤ u₁ := by
  have hsides : ∀ {s t : ℝ}, 0 < s → (0 ≤ s * t ↔ 0 ≤ t) := mul_nonneg_iff_of_pos_left
  have hab : 0 ≤ cross (onAxes p q u₀ v₀) (onAxes p q u₁ v₀) x ↔ v₀ ≤ rise p q x := by
    simp only [cross_eq_run_rise h, run_onAxes h, rise_onAxes h, sub_self, zero_mul, sub_zero]
    rw [hsides (sub_pos.mpr hu), sub_nonneg]
  have hcd : 0 ≤ cross (onAxes p q u₁ v₁) (onAxes p q u₀ v₁) x ↔ rise p q x ≤ v₁ := by
    simp only [cross_eq_run_rise h, run_onAxes h, rise_onAxes h, sub_self, zero_mul, sub_zero]
    rw [← neg_mul_neg, neg_sub, neg_sub, hsides (sub_pos.mpr hu), sub_nonneg]
  have hbc : 0 ≤ cross (onAxes p q u₁ v₀) (onAxes p q u₁ v₁) x ↔ run p q x ≤ u₁ := by
    simp only [cross_eq_run_rise h, run_onAxes h, rise_onAxes h, sub_self, zero_mul, zero_sub]
    rw [← mul_neg, neg_sub, hsides (sub_pos.mpr hv), sub_nonneg]
  have hda : 0 ≤ cross (onAxes p q u₀ v₁) (onAxes p q u₀ v₀) x ↔ u₀ ≤ run p q x := by
    simp only [cross_eq_run_rise h, run_onAxes h, rise_onAxes h, sub_self, zero_mul, zero_sub]
    rw [← neg_mul, neg_sub, hsides (sub_pos.mpr hv), sub_nonneg]
  rw [Ring.rectangle, mem_points_parallelogram (parallelogram_rectangle h hu hv),
    leftOfSides_iff, hab, hbc, hcd, hda]
  tauto

theorem Region.windsOnce_rectangle (hu : u₀ < u₁) (hv : v₀ < v₁) :
    (ofRing (Ring.rectangle p q u₀ u₁ v₀ v₁)).WindsOnce :=
  windsOnce_parallelogram (parallelogram_rectangle h hu hv)

theorem Region.area_rectangle (hu : u₀ < u₁) (hv : v₀ < v₁) :
    (ofRing (Ring.rectangle p q u₀ u₁ v₀ v₁)).area = (u₁ - u₀) * (v₁ - v₀) := by
  rw [Ring.rectangle, area_parallelogram (parallelogram_rectangle h hu hv), cross_eq_run_rise h]
  simp only [run_onAxes h, rise_onAxes h]
  ring

theorem near_onAxes {u v u' v' : ℝ} (hfar : 1e-10 ≤ |u - u'| ∨ 1e-10 ≤ |v - v'|) :
    near (onAxes p q u v) (onAxes p q u' v') = false := by
  have hlimit : (1e-12 : ℝ) ≤ 1e-10 := by norm_num
  rw [near_eq_false_iff, Apart, coincidence, Scalar.real_le, Scalar.real_decimal]
  refine hlimit.trans ?_
  cases hfar with
  | inl hu =>
    have hrun := abs_run_sub_le h (onAxes p q u v) (onAxes p q u' v')
    rw [run_onAxes h, run_onAxes h] at hrun
    exact hu.trans hrun
  | inr hv =>
    have hrise := abs_rise_sub_le h (onAxes p q u v) (onAxes p q u' v')
    rw [rise_onAxes h, rise_onAxes h] at hrise
    exact hv.trans hrise

/-- The corners of a rectangle that is not too narrow are a ring as they stand. -/
theorem Region.ofPoints?_rectangle (hu : 1e-10 ≤ u₁ - u₀) (hv : 1e-10 ≤ v₁ - v₀) :
    ofPoints? (Ring.rectangle p q u₀ u₁ v₀ v₁) =
      some (ofRing (Ring.rectangle p q u₀ u₁ v₀ v₁)) := by
  have hwidth : 0 < u₁ - u₀ := lt_of_lt_of_le (by norm_num) hu
  have hheight : 0 < v₁ - v₀ := lt_of_lt_of_le (by norm_num) hv
  have hcorners := parallelogram_rectangle h (sub_pos.mp hwidth) (sub_pos.mp hheight)
  have hsign : 0 ≤ Ring.signedArea (Ring.rectangle p q u₀ u₁ v₀ v₁) := by
    rw [Ring.signedArea_eq_sweptAbout (by simp [Ring.rectangle]), Ring.rectangle,
      Ring.sweptAbout_parallelogram hcorners, mul_div_cancel_left₀ _ two_ne_zero]
    exact hcorners.pos.le
  have hacross : 1e-10 ≤ |u₁ - u₀| := hu.trans (le_abs_self _)
  have hup : 1e-10 ≤ |v₁ - v₀| := hv.trans (le_abs_self _)
  have hring : Ring.ofPoints? (Ring.rectangle p q u₀ u₁ v₀ v₁) =
      some (Ring.rectangle p q u₀ u₁ v₀ v₁) := by
    rw [Ring.rectangle] at hsign ⊢
    rw [Ring.ofPoints?_of_apart (by simp), if_neg (not_lt.mpr hsign)]
    · simp only [List.isChain_cons_cons, List.isChain_singleton, and_true]
      exact ⟨near_onAxes h (.inl (abs_sub_comm u₁ u₀ ▸ hacross)),
        near_onAxes h (.inr (abs_sub_comm v₁ v₀ ▸ hup)), near_onAxes h (.inl hacross)⟩
    · intro last hlast
      obtain rfl : onAxes p q u₀ v₁ = last := by simpa using hlast
      exact near_onAxes h (.inr (abs_sub_comm v₁ v₀ ▸ hup))
  rw [ofPoints?, hring, Option.map_some]

end Rectangle

namespace Region

/-- The corners of the half plane of two points, in the coordinates of their line. -/
theorem ofHalfPlane?_eq (hlen : 1e-10 ≤ (q - p).norm) (hextent : 1e-10 ≤ extent) :
    ofHalfPlane? p q extent =
      some (ofRing (Ring.rectangle p q (-extent) ((q - p).norm + extent) 0 extent)) := by
  have h : 0 < (q - p).norm := lt_of_lt_of_le (by norm_num) hlen
  rw [← ofPoints?_rectangle h (by linarith) (by linarith)]
  have hstart : p - direction p q * extent = p + direction p q * (-extent) :=
    eq_of_coords (by simp [sub_eq_add_neg]) (by simp [sub_eq_add_neg])
  have hstop : q + direction p q * extent = p + direction p q * ((q - p).norm + extent) := by
    nth_rewrite 1 [← add_direction_mul_norm h]
    exact eq_of_coords (by simp [mul_add, add_assoc]) (by simp [mul_add, add_assoc])
  have hnear : ∀ u, onAxes p q u 0 = p + direction p q * u := fun u =>
    eq_of_coords (by simp [onAxes]) (by simp [onAxes])
  rw [Ring.rectangle, hnear, hnear, onAxes, onAxes, ← hstart, ← hstop]
  simp only [ofHalfPlane?, Scalar.real_le, Scalar.real_decimal, if_pos hlen]
  rfl

end Region

namespace Point

/-- On the segment the coordinate along its line runs from zero to its length. -/
theorem rise_run_of_mem_between (h : 0 < (q - p).norm) {m : Point ℝ} (hm : m ∈ between p q) :
    rise p q m = 0 ∧ 0 ≤ run p q m ∧ run p q m ≤ (q - p).norm := by
  obtain ⟨t, hlow, hhigh, rfl⟩ := hm
  have hstep : p + (q - p) * t = p + direction p q * ((q - p).norm * t) := by
    apply eq_of_coords
    · simp [direction, ← mul_assoc, div_mul_cancel₀ _ h.ne']
    · simp [direction, ← mul_assoc, div_mul_cancel₀ _ h.ne']
  rw [hstep, rise_add_direction, run_add_direction h, (rise_run_start p q).1,
    (rise_run_start p q).2, zero_add]
  exact ⟨rfl, by positivity, mul_le_of_le_one_right h.le hhigh⟩

theorem onAxes_mem_reach (h : 0 < (q - p).norm) {u v : ℝ} (hlow : 0 ≤ u)
    (hhigh : u ≤ (q - p).norm) (hv : |v| ≤ extent) : onAxes p q u v ∈ reach p q extent := by
  refine ⟨onAxes p q u 0, ⟨u / (q - p).norm, by positivity, (div_le_one h).mpr hhigh, ?_⟩, ?_⟩
  · apply eq_of_coords
    · simp [onAxes, direction]
      ring
    · simp [onAxes, direction]
      ring
  · refine le_trans (abs_le_of_sq_le_sq' ?_ (abs_nonneg v)).2 hv
    rw [norm_sub_sq_eq h, run_onAxes h, run_onAxes h, rise_onAxes h, rise_onAxes h, sq_abs]
    simp

/-- What is within reach of the segment lies in the rectangle that the two half planes make up. -/
theorem rise_run_of_mem_reach (h : 0 < (q - p).norm) (hx : x ∈ reach p q extent) :
    (-extent ≤ rise p q x ∧ rise p q x ≤ extent) ∧
      -extent ≤ run p q x ∧ run p q x ≤ (q - p).norm + extent := by
  obtain ⟨m, hm, hdist⟩ := hx
  obtain ⟨hline, hlow, hhigh⟩ := rise_run_of_mem_between h hm
  have hrise := abs_le.mp ((abs_rise_sub_le h x m).trans hdist)
  have hrun := abs_le.mp ((abs_run_sub_le h x m).trans hdist)
  rw [hline, sub_zero] at hrise
  exact ⟨hrise, by linarith [hrun.1], by linarith [hrun.2]⟩

end Point

namespace Region

/-- The half plane of two points holds what is left of their line, within its reach. -/
theorem mem_points_halfPlane (hlen : 1e-10 ≤ (q - p).norm) (hextent : 1e-10 ≤ extent)
    {left : Region ℝ} (hleft : ofHalfPlane? p q extent = some left) :
    x ∈ left.points ↔ (0 ≤ rise p q x ∧ rise p q x ≤ extent) ∧
      -extent ≤ run p q x ∧ run p q x ≤ (q - p).norm + extent := by
  have h : 0 < (q - p).norm := lt_of_lt_of_le (by norm_num) hlen
  have hpos : 0 < extent := lt_of_lt_of_le (by norm_num) hextent
  rw [ofHalfPlane?_eq hlen hextent, Option.some_inj] at hleft
  rw [← hleft, mem_points_rectangle h (by linarith) hpos]

theorem area_halfPlane (hlen : 1e-10 ≤ (q - p).norm) (hextent : 1e-10 ≤ extent)
    {left : Region ℝ} (hleft : ofHalfPlane? p q extent = some left) :
    left.area = extent * ((q - p).norm + 2 * extent) := by
  have h : 0 < (q - p).norm := lt_of_lt_of_le (by norm_num) hlen
  have hpos : 0 < extent := lt_of_lt_of_le (by norm_num) hextent
  rw [ofHalfPlane?_eq hlen hextent, Option.some_inj] at hleft
  rw [← hleft, area_rectangle h (by linarith) hpos]
  ring

/-- If the corners of a region are within reach of the segment, its points lie in the two half
planes. -/
theorem rise_run_of_mem_points (h : 0 < (q - p).norm) (hpos : 0 < extent) {r : Region ℝ}
    (hcorners : ∀ ring ∈ r.rings, ∀ w ∈ ring, w ∈ reach p q extent) (hx : x ∈ r.points) :
    (-extent ≤ rise p q x ∧ rise p q x ≤ extent) ∧
      -extent ≤ run p q x ∧ run p q x ≤ (q - p).norm + extent := by
  have hu : -extent < (q - p).norm + extent := by linarith
  have hv : -extent < extent := by linarith
  rw [← mem_points_rectangle h hu hv, Ring.rectangle,
    mem_points_parallelogram (parallelogram_rectangle h hu hv)]
  refine leftOfSides_of_mem_points (fun ring hring w hw => ?_) hx
  rw [← mem_points_parallelogram (parallelogram_rectangle h hu hv)]
  exact (mem_points_rectangle h hu hv).mpr (rise_run_of_mem_reach h (hcorners ring hring w hw))

end Region

end PlanarArea
