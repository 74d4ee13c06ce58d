import PlanarArea.Proofs.Circle.Chord
import PlanarArea.Proofs.Plane.Wrap
import PlanarArea.Proofs.Region.Fan

/-!
# Secants

A line that meets a circle twice parts it into two ways from the first point to the second one. The
counter-clockwise way lies right of the line and the clockwise way left of it. The points are those
that solve the equation of the line and the circle; in the other direction the line meets them in
the opposite order.
-/
namespace PlanarArea

namespace Point

/-- The sides of a line, told by two other points of it. -/
theorem cross_along (p q x : Point ℝ) (s t : ℝ) :
    cross (p + (q - p) * s) (p + (q - p) * t) x = (t - s) * cross p q x := by
  simp only [cross_eq, add_x, add_y, sub_x, sub_y, mul_x, mul_y, Scalar.real_add, Scalar.real_sub,
    Scalar.real_mul]
  ring

/-- A point straight left of a line. -/
theorem cross_turnLeft (p q : Point ℝ) :
    cross p q (p + (q - p).turnLeft) = (q - p).dot (q - p) := by
  simp only [cross_eq, turnLeft, dot, add_x, add_y, sub_x, sub_y, Scalar.real_add, Scalar.real_sub,
    Scalar.real_mul, Scalar.real_neg]
  ring

theorem dot_self (p : Point ℝ) : p.dot p = p.x ^ 2 + p.y ^ 2 := by
  simp only [dot, Scalar.real_add, Scalar.real_mul]
  ring

theorem dot_swap (p q : Point ℝ) : (p - q).dot (p - q) = (q - p).dot (q - p) := by
  simp only [dot_self, sub_x, sub_y, Scalar.real_sub]
  ring

end Point

namespace Angle

variable {center p : Point ℝ} {radius : ℝ}

/-- A point of a circle is the one at its angle. -/
theorem onCircle_about (hr : 0 < radius) (h : (p - center).dot (p - center) = radius * radius) :
    onCircle center radius (about center p) = p := by
  rw [Point.dot_self] at h
  simp only [Point.sub_x, Point.sub_y, Scalar.real_sub] at h
  have hnorm : ‖(⟨p.x - center.x, p.y - center.y⟩ : ℂ)‖ = radius := by
    rw [← abs_of_pos hr, ← Real.sqrt_mul_self_eq_abs, ← h, Complex.norm_def, Complex.normSq_mk]
    ring_nf
  have hcos := Complex.norm_mul_cos_arg ⟨p.x - center.x, p.y - center.y⟩
  have hsin := Complex.norm_mul_sin_arg ⟨p.x - center.x, p.y - center.y⟩
  rw [hnorm] at hcos hsin
  simp only [onCircle, about, Scalar.real_atan2, Scalar.real_cos, Scalar.real_sin, Scalar.real_add,
    Point.sub_x, Point.sub_y, Scalar.real_sub, hcos, hsin]
  exact Point.eq_of_coords (add_sub_cancel _ _) (add_sub_cancel _ _)

theorem onCircle_congr {a b : ℝ} (h : (a : Real.Angle) = b) :
    onCircle center radius a = onCircle center radius b := by
  simp only [onCircle, Scalar.real_cos, Scalar.real_sin, ← Real.Angle.cos_coe,
    ← Real.Angle.sin_coe, h]

/-- A counter-clockwise sweep leads to the point at its end. -/
theorem onCircle_add_ccwSweep (center : Point ℝ) (radius start stop : ℝ) :
    onCircle center radius (start + ccwSweep start stop) = onCircle center radius stop := by
  apply onCircle_congr
  rw [Real.Angle.coe_add, coe_ccwSweep, add_sub_cancel]

/-- Both ways round from a point lead to the same point. -/
theorem onCircle_other_way (center : Point ℝ) (radius start sweep : ℝ) :
    onCircle center radius (start + (sweep - 2 * Real.pi)) =
      onCircle center radius (start + sweep) := by
  apply onCircle_congr
  rw [← add_sub_assoc, Real.Angle.coe_sub, Real.Angle.coe_two_pi, sub_zero]

/-- The side of a chord on which a point of the circle lies. -/
theorem cross_chord (center : Point ℝ) (radius a c u : ℝ) :
    Point.cross (onCircle center radius a) (onCircle center radius (a + c))
        (onCircle center radius (a + u)) =
      4 * radius ^ 2 * (Real.sin (c / 2) * (Real.sin (u / 2) * Real.sin ((u - c) / 2))) := by
  have hfactor := sin_two_mul_add_sub (c / 2) ((u - c) / 2)
  have hsum : c / 2 + (u - c) / 2 = u / 2 := by ring
  rw [hsum, mul_div_cancel₀ c two_ne_zero, mul_div_cancel₀ (u - c) two_ne_zero,
    mul_div_cancel₀ u two_ne_zero] at hfactor
  rw [← onEllipse_circle, cross_onEllipse, add_sub_cancel_left, add_sub_cancel_left,
    add_sub_add_left_eq_sub, hfactor]
  ring

/-- The side of a chord on which the center lies. -/
theorem cross_chord_center (center : Point ℝ) (radius a c : ℝ) :
    Point.cross (onCircle center radius a) (onCircle center radius (a + c)) center =
      radius ^ 2 * Real.sin c := by
  have hsin : Real.sin c = Real.sin (a + c - a) := by rw [add_sub_cancel_left]
  simp only [Point.cross_eq, onCircle, Scalar.real_add, Scalar.real_mul, Scalar.real_cos,
    Scalar.real_sin]
  rw [hsin, Real.sin_sub (a + c) a]
  ring

end Angle

namespace Hit

variable {settings : Settings ℝ} {p q center : Point ℝ} {radius : ℝ} {first second : Hit ℝ}

/-- The point at `t` along the line from `p` to `q`, with its angle. -/
noncomputable def along (p q center : Point ℝ) (t : ℝ) : Hit ℝ :=
  ⟨p + (q - p) * t, Angle.about center (p + (q - p) * t)⟩

/-- Half the linear coefficient of the equation of a line and a circle. -/
noncomputable def slope (p q center : Point ℝ) : ℝ :=
  (p - center).dot (q - p)

/-- A quarter of the discriminant of that equation. -/
noncomputable def quarterDisc (p q center : Point ℝ) (radius : ℝ) : ℝ :=
  slope p q center ^ 2 - (q - p).dot (q - p) * ((p - center).dot (p - center) - radius * radius)

/-- A negative discriminant counts as none. -/
theorem sqrt_max_four_mul (x : ℝ) : Real.sqrt (max (4 * x) 0) = 2 * Real.sqrt x := by
  cases le_total 0 x with
  | inl h =>
    have hsquare : 4 * x = 2 ^ 2 * x := by ring
    rw [max_eq_left (by linarith), hsquare, Real.sqrt_mul (by positivity),
      Real.sqrt_sq (by positivity)]
  | inr h =>
    rw [max_eq_right (by linarith), Real.sqrt_zero, Real.sqrt_eq_zero_of_nonpos h, mul_zero]

theorem ofLine_eq (settings : Settings ℝ) (p q center : Point ℝ) (radius : ℝ) :
    ofLine settings p q center radius =
      if (q - p).dot (q - p) < settings.minDirection then []
      else if 4 * quarterDisc p q center radius < -settings.discSlack then []
      else if settings.discSlack < 2 * Real.sqrt (quarterDisc p q center radius) then
        [along p q center ((-slope p q center - Real.sqrt (quarterDisc p q center radius)) /
            (q - p).dot (q - p)),
          along p q center ((-slope p q center + Real.sqrt (quarterDisc p q center radius)) /
            (q - p).dot (q - p))]
      else [along p q center (-slope p q center / (q - p).dot (q - p))] := by
  have hdisc : 2 * slope p q center * (2 * slope p q center) - 4 * (q - p).dot (q - p) *
      ((p - center).dot (p - center) - radius * radius) = 4 * quarterDisc p q center radius := by
    rw [quarterDisc]
    ring
  have hlength : 0 ≤ (q - p).dot (q - p) := by
    rw [Point.dot_self]
    positivity
  have hslope : (p - center).dot (q - p) = slope p q center := rfl
  have hroots : ∀ x : ℝ,
      (-(2 * slope p q center) + x * (2 * Real.sqrt (quarterDisc p q center radius))) /
          (2 * (q - p).dot (q - p)) =
        (-slope p q center + x * Real.sqrt (quarterDisc p q center radius)) /
          (q - p).dot (q - p) := by
    intro x
    rw [← mul_div_mul_left _ _ (two_ne_zero' ℝ)]
    ring
  simp only [ofLine, Scalar.real_sub, Scalar.real_mul, Scalar.real_abs, Scalar.real_lt,
    Scalar.real_neg, Scalar.real_max, Scalar.real_sqrt, Scalar.real_zero, Scalar.real_one,
    Scalar.real_div, Scalar.real_add, hslope, hdisc, sqrt_max_four_mul, abs_of_nonneg hlength]
  split
  · rfl
  · split
    · rfl
    · split
      · simp only [List.map_cons, List.map_nil, hroots, along, neg_one_mul, one_mul, sub_eq_add_neg]
      · simp only [List.map_cons, List.map_nil, hroots, along, zero_mul, add_zero]

theorem along_swap (p q center : Point ℝ) (t : ℝ) :
    along q p center t = along p q center (1 - t) := by
  have hpoint : q + (p - q) * t = p + (q - p) * (1 - t) := by
    apply Point.eq_of_coords
    · simp only [Point.add_x, Point.sub_x, Point.mul_x, Scalar.real_add, Scalar.real_sub,
        Scalar.real_mul]
      ring
    · simp only [Point.add_y, Point.sub_y, Point.mul_y, Scalar.real_add, Scalar.real_sub,
        Scalar.real_mul]
      ring
  rw [along, along, hpoint]

theorem slope_swap (p q center : Point ℝ) :
    slope q p center = -(slope p q center + (q - p).dot (q - p)) := by
  simp only [slope, Point.dot, Point.sub_x, Point.sub_y, Scalar.real_sub, Scalar.real_mul,
    Scalar.real_add]
  ring

theorem quarterDisc_swap (p q center : Point ℝ) (radius : ℝ) :
    quarterDisc q p center radius = quarterDisc p q center radius := by
  rw [quarterDisc, quarterDisc, slope_swap]
  simp only [slope, Point.dot, Point.sub_x, Point.sub_y, Scalar.real_sub, Scalar.real_mul,
    Scalar.real_add]
  ring

/-- The root with one sign in one direction is that with the other sign in the other direction. -/
theorem along_root_swap (p q center : Point ℝ) (x : ℝ) :
    along q p center ((-slope q p center + x) / (p - q).dot (p - q)) =
      along p q center ((-slope p q center - x) / (q - p).dot (q - p)) := by
  rw [Point.dot_swap, slope_swap]
  by_cases hlength : (q - p).dot (q - p) = 0
  · have hsame : q = p := by
      rw [Point.dot_self] at hlength
      simp only [Point.sub_x, Point.sub_y, Scalar.real_sub] at hlength
      exact Point.eq_of_coords (by nlinarith) (by nlinarith)
    rw [hlength, div_zero, div_zero, hsame]
  · rw [along_swap]
    congr 1
    field_simp
    ring

/-- Walking along a line the other way meets a circle in the same points, last one first. -/
theorem ofLine_swap (settings : Settings ℝ) (p q center : Point ℝ) (radius : ℝ) :
    ofLine settings q p center radius = (ofLine settings p q center radius).reverse := by
  have hminus := along_root_swap p q center (-Real.sqrt (quarterDisc p q center radius))
  have hplus := along_root_swap p q center (Real.sqrt (quarterDisc p q center radius))
  have htangent := along_root_swap p q center 0
  rw [ofLine_eq, ofLine_eq]
  rw [← sub_eq_add_neg, sub_neg_eq_add] at hminus
  rw [add_zero, sub_zero] at htangent
  rw [quarterDisc_swap, hminus, hplus, htangent, Point.dot_swap]
  split
  · rfl
  · split
    · rfl
    · split <;> rfl

/-- The points of the line that lie on the circle are the roots of the equation. -/
theorem dot_along_iff {t : ℝ} (hlength : (q - p).dot (q - p) ≠ 0) :
    ((along p q center t).point - center).dot ((along p q center t).point - center) =
        radius * radius ↔
      ((q - p).dot (q - p) * t + slope p q center) ^ 2 = quarterDisc p q center radius := by
  have hexpand : ((along p q center t).point - center).dot ((along p q center t).point - center) =
      (p - center).dot (p - center) + 2 * slope p q center * t +
        (q - p).dot (q - p) * t ^ 2 := by
    simp only [along, slope, Point.dot, Point.add_x, Point.add_y, Point.sub_x, Point.sub_y,
      Point.mul_x, Point.mul_y, Scalar.real_add, Scalar.real_sub, Scalar.real_mul]
    ring
  rw [hexpand, quarterDisc]
  constructor
  · intro h
    linear_combination (q - p).dot (q - p) * h
  · intro h
    apply mul_left_cancel₀ hlength
    linear_combination h

/-- Two hits are two points of the circle, one after the other along the line. -/
theorem exists_of_ofLine_pair (h : ofLine settings p q center radius = [first, second]) :
    ∃ s t : ℝ, s < t ∧ 0 < (q - p).dot (q - p) ∧
      first = along p q center s ∧ second = along p q center t ∧
      (first.point - center).dot (first.point - center) = radius * radius ∧
      (second.point - center).dot (second.point - center) = radius * radius := by
  rw [ofLine_eq] at h
  split at h
  · cases h
  split at h
  · cases h
  split at h
  · rename_i hdisc hsplit
    rw [not_lt] at hdisc
    -- Whatever the sign of the slack, the discriminant is positive where two hits are told apart.
    have hdiscriminant : 0 < quarterDisc p q center radius := by
      by_contra hle
      rw [Real.sqrt_eq_zero_of_nonpos (not_lt.mp hle)] at hsplit
      linarith
    have hroot := Real.sqrt_pos.mpr hdiscriminant
    have hsquare := Real.sq_sqrt hdiscriminant.le
    have hlength : 0 < (q - p).dot (q - p) := by
      have hnonneg : 0 ≤ (q - p).dot (q - p) := by
        rw [Point.dot_self]
        positivity
      refine hnonneg.lt_of_ne fun hzero => ?_
      rw [quarterDisc, ← hzero, zero_mul, sub_zero] at hdiscriminant
      rw [eq_comm, Point.dot_self] at hzero
      have hx : (q - p).x = 0 := by nlinarith
      have hy : (q - p).y = 0 := by nlinarith
      simp [slope, Point.dot, hx, hy] at hdiscriminant
    obtain ⟨rfl, hrest⟩ := List.cons.inj h
    obtain ⟨rfl, -⟩ := List.cons.inj hrest
    refine ⟨_, _, ?_, hlength, rfl, rfl, (dot_along_iff hlength.ne').mpr ?_,
      (dot_along_iff hlength.ne').mpr ?_⟩
    · exact div_lt_div_of_pos_right (by linarith) hlength
    · rw [mul_div_cancel₀ _ hlength.ne']
      linear_combination hsquare
    · rw [mul_div_cancel₀ _ hlength.ne']
      linear_combination hsquare
  · cases h

end Hit

/-- The line from `p` to `q` enters or leaves the circle at the angle `start` and then, after a
counter-clockwise sweep, a second time. -/
structure Secant (p q center : Point ℝ) (radius start sweep : ℝ) : Prop where
  radius_pos : 0 < radius
  sweep_pos : 0 < sweep
  sweep_lt : sweep < 2 * Real.pi
  /-- From the first crossing to the second one the line runs the way it is directed. -/
  exists_scale : ∃ k, 0 < k ∧ ∀ x, Point.cross (Angle.onCircle center radius start)
    (Angle.onCircle center radius (start + sweep)) x = k * Point.cross p q x

namespace Secant

variable {p q center : Point ℝ} {radius start sweep : ℝ}

theorem sin_half_pos (h : Secant p q center radius start sweep) : 0 < Real.sin (sweep / 2) := by
  have hpos := h.sweep_pos
  have hlt := h.sweep_lt
  exact Real.sin_pos_of_pos_of_lt_pi (by linarith) (by linarith)

/-- The side of the line on which a point of the circle lies. -/
theorem exists_cross_eq (h : Secant p q center radius start sweep) :
    ∃ k, 0 < k ∧ ∀ u, Point.cross p q (Angle.onCircle center radius (start + u)) =
      k * (Real.sin (u / 2) * Real.sin ((u - sweep) / 2)) := by
  obtain ⟨k, hk, hscale⟩ := h.exists_scale
  have hr := h.radius_pos
  have hsin := h.sin_half_pos
  refine ⟨4 * radius ^ 2 * Real.sin (sweep / 2) / k, by positivity, fun u => ?_⟩
  have hcross := Angle.cross_chord center radius start sweep u
  rw [hscale] at hcross
  field_simp
  linear_combination hcross

/-- The counter-clockwise way between the crossings lies right of the line. -/
theorem cross_neg (h : Secant p q center radius start sweep) {u : ℝ} (hu : u ∈ Set.Ioo 0 sweep) :
    Point.cross p q (Angle.onCircle center radius (start + u)) < 0 := by
  obtain ⟨k, hk, hcross⟩ := h.exists_cross_eq
  obtain ⟨hpos, hlt⟩ := hu
  have hturn := h.sweep_lt
  have hfirst := Real.sin_pos_of_pos_of_lt_pi (x := u / 2) (by linarith) (by linarith)
  have hsecond := Real.sin_neg_of_neg_of_neg_pi_lt (x := (u - sweep) / 2) (by linarith)
    (by linarith)
  rw [hcross]
  exact mul_neg_of_pos_of_neg hk (mul_neg_of_pos_of_neg hfirst hsecond)

/-- The clockwise way lies left of it. -/
theorem cross_pos (h : Secant p q center radius start sweep) {u : ℝ}
    (hu : u ∈ Set.Ioo (sweep - 2 * Real.pi) 0) :
    0 < Point.cross p q (Angle.onCircle center radius (start + u)) := by
  obtain ⟨k, hk, hcross⟩ := h.exists_cross_eq
  obtain ⟨hlt, hneg⟩ := hu
  have hpos := h.sweep_pos
  have hfirst := Real.sin_neg_of_neg_of_neg_pi_lt (x := u / 2) (by linarith) (by linarith)
  have hsecond := Real.sin_neg_of_neg_of_neg_pi_lt (x := (u - sweep) / 2) (by linarith)
    (by linarith)
  rw [hcross]
  exact mul_pos hk (mul_pos_of_neg_of_neg hfirst hsecond)

/-- The crossings lie on the line. -/
theorem cross_eq_zero (h : Secant p q center radius start sweep) {u : ℝ}
    (hu : u = 0 ∨ u = sweep ∨ u = sweep - 2 * Real.pi) :
    Point.cross p q (Angle.onCircle center radius (start + u)) = 0 := by
  obtain ⟨k, hk, hcross⟩ := h.exists_cross_eq
  rw [hcross]
  obtain rfl | rfl | rfl := hu
  · rw [zero_div, Real.sin_zero, zero_mul, mul_zero]
  · rw [sub_self, zero_div, Real.sin_zero, mul_zero, mul_zero]
  · have hhalf : (sweep - 2 * Real.pi - sweep) / 2 = -Real.pi := by ring
    rw [hhalf, Real.sin_neg, Real.sin_pi, neg_zero, mul_zero, mul_zero]

theorem cross_nonpos (h : Secant p q center radius start sweep) {u : ℝ}
    (hu : u ∈ Set.Icc 0 sweep) :
    Point.cross p q (Angle.onCircle center radius (start + u)) ≤ 0 := by
  obtain ⟨hlow, hhigh⟩ := hu
  cases hlow.eq_or_lt with
  | inl hzero => exact (h.cross_eq_zero (.inl hzero.symm)).le
  | inr hpos =>
    cases hhigh.eq_or_lt with
    | inl hend => exact (h.cross_eq_zero (.inr (.inl hend))).le
    | inr hlt => exact (h.cross_neg ⟨hpos, hlt⟩).le

theorem cross_nonneg (h : Secant p q center radius start sweep) {u : ℝ}
    (hu : u ∈ Set.Icc (sweep - 2 * Real.pi) 0) :
    0 ≤ Point.cross p q (Angle.onCircle center radius (start + u)) := by
  obtain ⟨hlow, hhigh⟩ := hu
  cases hhigh.eq_or_lt with
  | inl hzero => exact (h.cross_eq_zero (.inl hzero)).ge
  | inr hneg =>
    cases hlow.eq_or_lt with
    | inl hend => exact (h.cross_eq_zero (.inr (.inr hend.symm))).ge
    | inr hlt => exact (h.cross_pos ⟨hlt, hneg⟩).le

/-- Every point of the circle is reached from the first crossing on one of the two ways. -/
theorem exists_turn (h : Secant p q center radius start sweep) {x : Point ℝ}
    (hx : (x - center).dot (x - center) = radius * radius) :
    ∃ u ∈ Set.Ico (sweep - 2 * Real.pi) sweep, x = Angle.onCircle center radius (start + u) := by
  refine ⟨toIcoMod Real.two_pi_pos (sweep - 2 * Real.pi) (Angle.about center x - start), ?_, ?_⟩
  · have hmem := toIcoMod_mem_Ico Real.two_pi_pos (sweep - 2 * Real.pi)
      (Angle.about center x - start)
    rwa [sub_add_cancel] at hmem
  · refine (Angle.onCircle_about h.radius_pos hx).symm.trans (Angle.onCircle_congr ?_)
    rw [Real.Angle.coe_add, Real.Angle.coe_toIcoMod, Real.Angle.coe_sub, add_sub_cancel]

/-- The side of the line on which the center lies. -/
theorem exists_cross_center (h : Secant p q center radius start sweep) :
    ∃ k, 0 < k ∧ Point.cross p q center = k * Real.sin sweep := by
  obtain ⟨k, hk, hscale⟩ := h.exists_scale
  have hr := h.radius_pos
  have hcenter := Angle.cross_chord_center center radius start sweep
  rw [hscale] at hcenter
  refine ⟨radius ^ 2 / k, by positivity, ?_⟩
  field_simp
  linear_combination hcenter

/-- With the center on the left the counter-clockwise way is the shorter one. -/
theorem sweep_lt_pi (h : Secant p q center radius start sweep)
    (hcenter : 0 < Point.cross p q center) : sweep < Real.pi := by
  obtain ⟨k, hk, heq⟩ := h.exists_cross_center
  have hlt := h.sweep_lt
  by_contra hle
  rw [not_lt] at hle
  have hsin := Real.sin_nonpos_of_nonpos_of_neg_pi_le (x := sweep - 2 * Real.pi) (by linarith)
    (by linarith)
  rw [Real.sin_sub_two_pi] at hsin
  rw [heq] at hcenter
  exact absurd (pos_of_mul_pos_right hcenter hk.le) (not_lt.mpr hsin)

/-- With the center on the right it is the longer one. -/
theorem pi_lt_sweep (h : Secant p q center radius start sweep)
    (hcenter : Point.cross p q center < 0) : Real.pi < sweep := by
  obtain ⟨k, hk, heq⟩ := h.exists_cross_center
  by_contra hle
  have hsin := Real.sin_nonneg_of_nonneg_of_le_pi h.sweep_pos.le (not_lt.mp hle)
  rw [heq] at hcenter
  exact absurd (mul_nonneg hk.le hsin) (not_le.mpr hcenter)

end Secant

namespace Hit

variable {settings : Settings ℝ} {p q center : Point ℝ} {radius : ℝ} {first second : Hit ℝ}

/-- Each hit is the point of the circle at its angle, and the line runs from the first to the second
one. -/
theorem secant_of_ofLine_pair (hr : 0 < radius)
    (h : ofLine settings p q center radius = [first, second]) :
    Angle.onCircle center radius first.angle = first.point ∧
      Angle.onCircle center radius second.angle = second.point ∧
      Secant p q center radius first.angle (Angle.ccwSweep first.angle second.angle) := by
  obtain ⟨s, t, hst, hlength, hfirst, hsecond, hdot, hdot'⟩ := exists_of_ofLine_pair h
  have hpoint : Angle.onCircle center radius first.angle = first.point := by
    have hangle := Angle.onCircle_about hr hdot
    rwa [hfirst] at hangle ⊢
  have hpoint' : Angle.onCircle center radius second.angle = second.point := by
    have hangle := Angle.onCircle_about hr hdot'
    rwa [hsecond] at hangle ⊢
  have hend : Angle.onCircle center radius
      (first.angle + Angle.ccwSweep first.angle second.angle) = second.point := by
    rw [Angle.onCircle_add_ccwSweep, hpoint']
  have hscale : ∀ x, Point.cross first.point second.point x = (t - s) * Point.cross p q x := by
    intro x
    rw [hfirst, hsecond]
    exact Point.cross_along p q x s t
  refine ⟨hpoint, hpoint', hr, ?_, Angle.ccwSweep_lt _ _, t - s, sub_pos.mpr hst, ?_⟩
  · refine (Angle.ccwSweep_nonneg _ _).lt_of_ne fun hzero => ?_
    -- The two points would be one, but the line has a point off it.
    have hcross := hscale (p + (q - p).turnLeft)
    rw [← hend, ← hzero, add_zero, hpoint, Point.cross_turnLeft] at hcross
    have hself : Point.cross first.point first.point (p + (q - p).turnLeft) = 0 := by
      rw [Point.cross_eq]
      ring
    rw [hself] at hcross
    exact (mul_pos (sub_pos.mpr hst) hlength).ne hcross
  · rw [hpoint, hend]
    exact hscale

end Hit

end PlanarArea
