import PlanarArea.Proofs.Circle.CircleCut

/-!
# Where a line meets a circle

The equation of a line and a circle has two roots, one or none. Two hits are told apart if the root
of the discriminant is beyond the slack, and then they are all common points of the line and the
circle, one after the other. Closer roots, and those that are missed by no more than the slack,
count as one hit, which is the foot of the perpendicular from the center. Without a hit there is no
common point.
-/
namespace PlanarArea

/-- The points of the line through two points. -/
def Point.line (p q : Point ℝ) : Set (Point ℝ) :=
  {x | ∃ t : ℝ, x = p + (q - p) * t}

namespace Hit

/-- The discriminant of the equation of a line and a circle, in the parameter that is zero at `p`
and one at `q`. -/
noncomputable def discriminant (p q center : Point ℝ) (radius : ℝ) : ℝ :=
  (2 * (p - center).dot (q - p)) ^ 2 -
    4 * (q - p).dot (q - p) * ((p - center).dot (p - center) - radius * radius)

variable {p q center : Point ℝ} {radius : ℝ}

theorem discriminant_eq (p q center : Point ℝ) (radius : ℝ) :
    discriminant p q center radius = 4 * quarterDisc p q center radius := by
  rw [discriminant, quarterDisc, slope]
  ring

theorem sqrt_max_discriminant (p q center : Point ℝ) (radius : ℝ) :
    Real.sqrt (max (discriminant p q center radius) 0) =
      2 * Real.sqrt (quarterDisc p q center radius) := by
  rw [discriminant_eq, sqrt_max_four_mul]

theorem along_mem_line (p q center : Point ℝ) (t : ℝ) : (along p q center t).point ∈ p.line q :=
  ⟨t, rfl⟩

theorem exists_along_of_mem_line {x : Point ℝ} (h : x ∈ p.line q) (center : Point ℝ) :
    ∃ t, x = (along p q center t).point :=
  h

/-- How far a point of the line is from the foot of the perpendicular, in terms of its parameter. -/
theorem dot_along_direction (p q center : Point ℝ) (t : ℝ) :
    ((along p q center t).point - center).dot (q - p) =
      (q - p).dot (q - p) * t + slope p q center := by
  simp only [along, slope, Point.dot, Point.add_x, Point.add_y, Point.sub_x, Point.sub_y,
    Point.mul_x, Point.mul_y, Scalar.real_add, Scalar.real_sub, Scalar.real_mul]
  ring

/-- The common points of a line and a circle, by their parameters. -/
theorem along_mem_circle_iff (hr : 0 ≤ radius) (hlength : (q - p).dot (q - p) ≠ 0) {t : ℝ} :
    (along p q center t).point ∈ Point.circle center radius ↔
      ((q - p).dot (q - p) * t + slope p q center) ^ 2 = quarterDisc p q center radius :=
  (Point.mem_circle_iff hr).trans (dot_along_iff hlength)

/-- Unless the discriminant is negative, the common points are those of its two roots. -/
theorem mem_line_circle_iff (hr : 0 ≤ radius) (hlength : 0 < (q - p).dot (q - p))
    (hdisc : 0 ≤ quarterDisc p q center radius) (x : Point ℝ) :
    x ∈ p.line q ∧ x ∈ Point.circle center radius ↔
      x = (along p q center ((-slope p q center - Real.sqrt (quarterDisc p q center radius)) /
          (q - p).dot (q - p))).point ∨
        x = (along p q center ((-slope p q center + Real.sqrt (quarterDisc p q center radius)) /
          (q - p).dot (q - p))).point := by
  have hroots : ∀ t : ℝ, ((q - p).dot (q - p) * t + slope p q center) ^ 2 =
      quarterDisc p q center radius ↔
        t = (-slope p q center - Real.sqrt (quarterDisc p q center radius)) / (q - p).dot (q - p) ∨
        t = (-slope p q center + Real.sqrt (quarterDisc p q center radius)) /
          (q - p).dot (q - p) := by
    intro t
    rw [← Real.sq_sqrt hdisc, sq_eq_sq_iff_eq_or_eq_neg, Real.sq_sqrt hdisc, or_comm,
      eq_div_iff hlength.ne', eq_div_iff hlength.ne']
    constructor
    · rintro (h | h)
      · exact .inl (by linarith)
      · exact .inr (by linarith)
    · rintro (h | h)
      · exact .inl (by linarith)
      · exact .inr (by linarith)
  constructor
  · rintro ⟨hline, hcircle⟩
    obtain ⟨t, rfl⟩ := exists_along_of_mem_line hline center
    rw [along_mem_circle_iff hr hlength.ne', hroots] at hcircle
    exact hcircle.imp (congrArg fun t => (along p q center t).point)
      (congrArg fun t => (along p q center t).point)
  · rintro (rfl | rfl)
    · exact ⟨along_mem_line _ _ _ _,
        (along_mem_circle_iff hr hlength.ne').mpr ((hroots _).mpr (.inl rfl))⟩
    · exact ⟨along_mem_line _ _ _ _,
        (along_mem_circle_iff hr hlength.ne').mpr ((hroots _).mpr (.inr rfl))⟩

theorem not_mem_circle_of_quarterDisc_neg (hr : 0 ≤ radius) (hlength : (q - p).dot (q - p) ≠ 0)
    (hdisc : quarterDisc p q center radius < 0) {x : Point ℝ} (hx : x ∈ p.line q) :
    x ∉ Point.circle center radius := by
  obtain ⟨t, rfl⟩ := exists_along_of_mem_line hx center
  rw [along_mem_circle_iff hr hlength]
  exact fun h => absurd (sq_nonneg _) (not_le.mpr (h ▸ hdisc))

/-- The foot of the perpendicular is the point of the line at which the direction to the center is
perpendicular to it. -/
theorem eq_foot_iff (hlength : (q - p).dot (q - p) ≠ 0) (x : Point ℝ) :
    x = (along p q center (-slope p q center / (q - p).dot (q - p))).point ↔
      x ∈ p.line q ∧ (x - center).dot (q - p) = 0 := by
  constructor
  · rintro rfl
    refine ⟨along_mem_line _ _ _ _, ?_⟩
    rw [dot_along_direction, mul_div_cancel₀ _ hlength, neg_add_cancel]
  · rintro ⟨hline, hfoot⟩
    obtain ⟨t, rfl⟩ := exists_along_of_mem_line hline center
    rw [dot_along_direction] at hfoot
    have ht : t = -slope p q center / (q - p).dot (q - p) :=
      (eq_div_iff hlength).mpr (by linarith)
    rw [← ht]

/-- If the root of the discriminant is beyond the slack, there are two hits, one after the other on
the way from `p` to `q`, and these are the common points of the line and the circle. If it is not,
and the discriminant is not below zero by more than the slack, the only hit is the foot of the
perpendicular from the center. Otherwise there is no hit and no common point. The other way along
the line has the same hits, last one first. -/
theorem ofLine_meets {settings : Settings ℝ} (hmin : 0 < settings.minDirection)
    (hlength : settings.minDirection ≤ (q - p).dot (q - p)) (hr : 0 < radius)
    (hslack : 0 ≤ settings.discSlack) :
    let hits := ofLine settings p q center radius
    let disc := discriminant p q center radius
    (settings.discSlack < Real.sqrt (max disc 0) →
      ∃ s t, s < t ∧ hits = [along p q center s, along p q center t] ∧
        ∀ x, x ∈ p.line q ∧ x ∈ Point.circle center radius ↔
          x = (along p q center s).point ∨ x = (along p q center t).point) ∧
      (Real.sqrt (max disc 0) ≤ settings.discSlack → -settings.discSlack ≤ disc →
        ∃ t, hits = [along p q center t] ∧
          ∀ x, x = (along p q center t).point ↔ x ∈ p.line q ∧ (x - center).dot (q - p) = 0) ∧
      (Real.sqrt (max disc 0) ≤ settings.discSlack → disc < -settings.discSlack →
        hits = [] ∧ ∀ x ∈ p.line q, x ∉ Point.circle center radius) ∧
      ofLine settings q p center radius = hits.reverse := by
  intro hits disc
  have hpos : 0 < (q - p).dot (q - p) := hmin.trans_le hlength
  have hroot : Real.sqrt (max disc 0) = 2 * Real.sqrt (quarterDisc p q center radius) :=
    sqrt_max_discriminant p q center radius
  have hdisc : disc = 4 * quarterDisc p q center radius := discriminant_eq p q center radius
  have hhits : hits = _ := ofLine_eq settings p q center radius
  rw [if_neg (not_lt.mpr hlength), ← hdisc, ← hroot] at hhits
  refine ⟨?_, ?_, ?_, ofLine_swap settings p q center radius⟩
  · intro hbeyond
    have hquarter : 0 < quarterDisc p q center radius := by
      by_contra hle
      rw [hroot, Real.sqrt_eq_zero_of_nonpos (not_lt.mp hle)] at hbeyond
      linarith
    have hsqrt := Real.sqrt_pos.mpr hquarter
    rw [if_neg (by linarith), if_pos hbeyond] at hhits
    exact ⟨_, _, div_lt_div_of_pos_right (by linarith) hpos, hhits,
      mem_line_circle_iff hr.le hpos hquarter.le⟩
  · intro hwithin hclose
    rw [if_neg (not_lt.mpr hclose), if_neg (not_lt.mpr hwithin)] at hhits
    exact ⟨_, hhits, eq_foot_iff hpos.ne'⟩
  · intro _ hfar
    rw [if_pos hfar] at hhits
    exact ⟨hhits, fun x => not_mem_circle_of_quarterDisc_neg hr.le hpos.ne' (by linarith)⟩

section Heights

theorem discriminant_height (y : ℝ) :
    discriminant ⟨-10, y⟩ ⟨10, y⟩ ⟨0, 0⟩ 5 = 1600 * (5 ^ 2 - y ^ 2) := by
  norm_num [discriminant, Point.dot]
  ring

theorem point_along_height (y t : ℝ) :
    (along ⟨-10, y⟩ ⟨10, y⟩ (⟨0, 0⟩ : Point ℝ) t).point = ⟨-10 + 20 * t, y⟩ := by
  apply Point.eq_of_coords
  · simp only [along, Point.add_x, Point.sub_x, Point.mul_x, Scalar.real_add, Scalar.real_sub,
      Scalar.real_mul]
    ring
  · simp [along]

theorem mem_line_height (x y : ℝ) : (⟨x, y⟩ : Point ℝ) ∈ Point.line ⟨-10, y⟩ ⟨10, y⟩ := by
  refine ⟨(x + 10) / 20, ?_⟩
  apply Point.eq_of_coords
  · simp
    ring
  · simp

theorem minDirection_le_height (y : ℝ) : (Settings.default : Settings ℝ).minDirection ≤
    ((⟨10, y⟩ : Point ℝ) - ⟨-10, y⟩).dot (⟨10, y⟩ - ⟨-10, y⟩) := by
  norm_num [Settings.default, Point.dot]

/-- The points of the circle at height 3, in their order along the line. -/
theorem eq_of_common_three {s t : ℝ} (hst : s < t)
    (hcommon : ∀ x : Point ℝ, x ∈ Point.line ⟨-10, 3⟩ ⟨10, 3⟩ ∧ x ∈ Point.circle ⟨0, 0⟩ 5 ↔
      x = (along ⟨-10, 3⟩ ⟨10, 3⟩ ⟨0, 0⟩ s).point ∨ x = (along ⟨-10, 3⟩ ⟨10, 3⟩ ⟨0, 0⟩ t).point) :
    -10 + 20 * s = -4 ∧ -10 + 20 * t = 4 := by
  have hcircle : ∀ x : ℝ, x ^ 2 = 16 → -10 + 20 * s = x ∨ -10 + 20 * t = x := by
    intro x hx
    have hmem : (⟨x, 3⟩ : Point ℝ) ∈ Point.circle ⟨0, 0⟩ 5 := by
      rw [Point.mem_circle_iff (by norm_num), Point.dot_self]
      norm_num [hx]
    simpa [point_along_height, eq_comm] using (hcommon ⟨x, 3⟩).mp ⟨mem_line_height x 3, hmem⟩
  obtain h | h := hcircle (-4) (by norm_num) <;> obtain h' | h' := hcircle 4 (by norm_num)
  · linarith
  · exact ⟨h, h'⟩
  · linarith
  · linarith

/-- The lines at the heights 3, 5 and 6 over the center of a circle of radius 5. -/
theorem ofLine_meets_heights :
    let settings : Settings ℝ := Settings.default
    let hits := fun y : ℝ => ofLine settings ⟨-10, y⟩ ⟨10, y⟩ ⟨0, 0⟩ 5
    (0 < settings.minDirection ∧
      (∀ y : ℝ, settings.minDirection ≤ ((⟨10, y⟩ : Point ℝ) - ⟨-10, y⟩).dot (⟨10, y⟩ - ⟨-10, y⟩)) ∧
      (0 : ℝ) < 5 ∧ 0 ≤ settings.discSlack) ∧
      (hits 3).map Hit.point = [⟨-4, 3⟩, ⟨4, 3⟩] ∧ (hits 5).map Hit.point = [⟨0, 5⟩] ∧
      hits 6 = [] := by
  intro settings hits
  have hmin : 0 < settings.minDirection := by norm_num [settings, Settings.default]
  have hslack : 0 < settings.discSlack := by norm_num [settings, Settings.default]
  have hr : (0 : ℝ) < 5 := by norm_num
  have hmeets := fun y : ℝ => @ofLine_meets ⟨-10, y⟩ ⟨10, y⟩ ⟨0, 0⟩ 5 settings hmin
    (minDirection_le_height y) hr hslack.le
  refine ⟨⟨hmin, minDirection_le_height, hr, hslack.le⟩, ?_, ?_, ?_⟩
  · obtain ⟨s, t, hst, hhits, hcommon⟩ := (hmeets 3).1 (by
      rw [discriminant_height, max_eq_left (by norm_num)]
      exact (by norm_num [settings, Settings.default] : settings.discSlack < 100).trans
        (Real.lt_sqrt_of_sq_lt (by norm_num)))
    simp only [hits, hhits, List.map_cons, List.map_nil, point_along_height,
      eq_of_common_three hst hcommon]
  · obtain ⟨t, hhits, hfoot⟩ := (hmeets 5).2.1
      (by rw [discriminant_height, sub_self, mul_zero, max_self, Real.sqrt_zero]; exact hslack.le)
      (by rw [discriminant_height, sub_self, mul_zero]; linarith)
    have htop := (hfoot ⟨0, 5⟩).mpr ⟨mem_line_height 0 5, by simp [Point.dot]⟩
    simp only [hits, hhits, List.map_cons, List.map_nil, ← htop]
  · refine ((hmeets 6).2.2.1 ?_ ?_).1
    · rw [discriminant_height, max_eq_right (by norm_num), Real.sqrt_zero]
      exact hslack.le
    · rw [discriminant_height]
      norm_num [settings, Settings.default]

end Heights

end Hit

end PlanarArea
