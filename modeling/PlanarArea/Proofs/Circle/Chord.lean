import PlanarArea.Circle.Hit
import PlanarArea.Proofs.Region.Corners

/-!
# Chords

The angle of a point of a circle, and the crossings of a line through two points of a circle.
-/
namespace PlanarArea

namespace Point

theorem add_sub_mul_zero (p q : Point ℝ) : p + (q - p) * (0 : ℝ) = p := by
  apply eq_of_coords
  · simp
  · simp

theorem add_sub_mul_one (p q : Point ℝ) : p + (q - p) * (1 : ℝ) = q := by
  apply eq_of_coords
  · simp
  · simp

end Point

namespace Angle

variable {center : Point ℝ} {radius : ℝ}

/-- The point at an angle of the principal range lies at that angle. -/
theorem about_onCircle {angle : ℝ} (hr : 0 < radius) (h : angle ∈ Set.Ioc (-Real.pi) Real.pi) :
    about center (onCircle center radius angle) = angle := by
  have hvector : (⟨(onCircle center radius angle).x - center.x,
      (onCircle center radius angle).y - center.y⟩ : ℂ) =
      radius * (Complex.cos angle + Complex.sin angle * Complex.I) := by
    apply Complex.ext
    · simp [onCircle, Complex.cos_ofReal_re, Complex.sin_ofReal_re]
    · simp [onCircle, Complex.cos_ofReal_re, Complex.sin_ofReal_re]
  simp only [about, Scalar.real_atan2, Point.sub_x, Point.sub_y, Scalar.real_sub, hvector]
  exact Complex.arg_mul_cos_add_sin_mul_I hr h

theorem dot_onCircle (angle : ℝ) :
    (onCircle center radius angle - center).dot (onCircle center radius angle - center) =
      radius * radius := by
  simp only [onCircle, Point.dot, Point.sub_x, Point.sub_y, Scalar.real_sub, Scalar.real_add,
    Scalar.real_mul, Scalar.real_cos, Scalar.real_sin]
  linear_combination radius * radius * Real.sin_sq_add_cos_sq angle

end Angle

namespace Hit

variable {settings : Settings ℝ} {center : Point ℝ} {radius : ℝ}

/-- A line through two points of a circle meets the circle in them, in their order. -/
theorem ofLine_chord {p q : Point ℝ} (hp : (p - center).dot (p - center) = radius * radius)
    (hq : (q - center).dot (q - center) = radius * radius) (hslack : 0 ≤ settings.discSlack)
    (hapart : max settings.discSlack settings.minDirection < (q - p).dot (q - p)) :
    ofLine settings p q center radius =
      [⟨p, Angle.about center p⟩, ⟨q, Angle.about center q⟩] := by
  simp only [Point.dot, Point.sub_x, Point.sub_y, Scalar.real_sub, Scalar.real_mul,
    Scalar.real_add] at hp hq hapart
  generalize hs : (q.x - p.x) * (q.x - p.x) + (q.y - p.y) * (q.y - p.y) = s at hapart
  obtain ⟨hdisc, hmin⟩ := max_lt_iff.mp hapart
  have hpos : 0 < s := hslack.trans_lt hdisc
  have hb : 2 * ((p.x - center.x) * (q.x - p.x) + (p.y - center.y) * (q.y - p.y)) = -s := by
    linear_combination hq - hp - hs
  have hc : (p.x - center.x) * (p.x - center.x) + (p.y - center.y) * (p.y - center.y) -
      radius * radius = 0 := by linarith
  have hroot : Real.sqrt (max (-s * -s - 4 * s * 0) 0) = s := by
    rw [mul_zero, sub_zero, neg_mul_neg, max_eq_left (mul_self_nonneg s),
      Real.sqrt_mul_self hpos.le]
  have hsquare : ¬ -s * -s - 4 * s * 0 < -settings.discSlack := by nlinarith
  have hzero : (- -s + -1 * s) / (2 * s) = 0 := by
    rw [neg_neg, neg_one_mul, add_neg_cancel, zero_div]
  have hone : (- -s + 1 * s) / (2 * s) = 1 := by
    rw [neg_neg, one_mul, ← two_mul, div_self (by positivity)]
  simp only [ofLine, Point.dot, Point.sub_x, Point.sub_y, Scalar.real_sub, Scalar.real_mul,
    Scalar.real_add, Scalar.real_abs, Scalar.real_lt, Scalar.real_neg, Scalar.real_max,
    Scalar.real_sqrt, Scalar.real_zero, Scalar.real_one, hs, hb, hc, hroot, if_neg hsquare,
    if_pos hdisc, abs_of_pos hpos, if_neg (not_lt.mpr hmin.le)]
  simp only [List.map_cons, List.map_nil, hzero, hone, Point.add_sub_mul_zero,
    Point.add_sub_mul_one]

/-- The same with the angles of the two points. -/
theorem ofLine_onCircle {a b : ℝ} (hr : 0 < radius) (ha : a ∈ Set.Ioc (-Real.pi) Real.pi)
    (hb : b ∈ Set.Ioc (-Real.pi) Real.pi) (hslack : 0 ≤ settings.discSlack)
    (hapart : max settings.discSlack settings.minDirection <
      radius * radius * (2 - 2 * Real.cos (b - a))) :
    ofLine settings (Angle.onCircle center radius a) (Angle.onCircle center radius b) center
        radius =
      [⟨Angle.onCircle center radius a, a⟩, ⟨Angle.onCircle center radius b, b⟩] := by
  have hchord : (Angle.onCircle center radius b - Angle.onCircle center radius a).dot
      (Angle.onCircle center radius b - Angle.onCircle center radius a) =
      radius * radius * (2 - 2 * Real.cos (b - a)) := by
    simp only [Angle.onCircle, Point.dot, Point.sub_x, Point.sub_y, Scalar.real_sub,
      Scalar.real_add, Scalar.real_mul, Scalar.real_cos, Scalar.real_sin, Real.cos_sub]
    linear_combination radius * radius *
      (Real.sin_sq_add_cos_sq a + Real.sin_sq_add_cos_sq b)
  rw [← hchord] at hapart
  rw [ofLine_chord (Angle.dot_onCircle a) (Angle.dot_onCircle b) hslack hapart,
    Angle.about_onCircle hr ha, Angle.about_onCircle hr hb]

end Hit

end PlanarArea
