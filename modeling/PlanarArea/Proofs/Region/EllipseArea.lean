import Mathlib.Analysis.Convex.SpecificFunctions.Deriv
import PlanarArea.Eval.Tagged
import PlanarArea.Proofs.Region.EqualSteps

/-!
# The area of a sampled ellipse

The corners of a sampled ellipse are the images of those of a regular polygon. Neither their
distances nor the area that they enclose depend on the center and on the rotation. The area is the
number of corners times the sine of a step, up to a constant, so it grows with the number of corners
and stays below that of the ellipse.
-/
namespace PlanarArea

namespace Angle

/-- The distance of two points of an ellipse, wherever it lies. -/
noncomputable def ellipseChord (rx ry t u : ℝ) : ℝ :=
  Real.sqrt ((rx * (Real.cos t - Real.cos u)) ^ 2 + (ry * (Real.sin t - Real.sin u)) ^ 2)

theorem norm_onEllipse_sub (center : Point ℝ) (rx ry rotation t u : ℝ) :
    (onEllipse center rx ry rotation t - onEllipse center rx ry rotation u).norm =
      ellipseChord rx ry t u := by
  simp only [onEllipse, Point.norm, ellipseChord, Point.sub_x, Point.sub_y, Scalar.real_sub,
    Scalar.real_add, Scalar.real_mul, Scalar.real_sqrt]
  congr 1
  linear_combination ((rx * (Real.cos t - Real.cos u)) ^ 2 +
    (ry * (Real.sin t - Real.sin u)) ^ 2) * Real.sin_sq_add_cos_sq rotation

theorem apart_onEllipse_iff {center : Point ℝ} {rx ry rotation t u : ℝ} :
    Point.Apart (onEllipse center rx ry rotation t) (onEllipse center rx ry rotation u) ↔
      Point.coincidence ≤ ellipseChord rx ry t u := by
  rw [Point.Apart, norm_onEllipse_sub]

theorem ellipseChord_comm (rx ry t u : ℝ) : ellipseChord rx ry t u = ellipseChord rx ry u t := by
  rw [ellipseChord, ellipseChord]
  congr 1
  ring

/-- An ellipse is its own mirror image. -/
theorem ellipseChord_neg (rx ry t u : ℝ) :
    ellipseChord rx ry (-t) (-u) = ellipseChord rx ry t u := by
  rw [ellipseChord, ellipseChord, Real.cos_neg, Real.cos_neg, Real.sin_neg, Real.sin_neg]
  congr 1
  ring

theorem ellipseChord_congr (rx ry : ℝ) {t u : ℝ} (h : (t : Real.Angle) = u) (v : ℝ) :
    ellipseChord rx ry t v = ellipseChord rx ry u v := by
  rw [ellipseChord, ellipseChord, ← Real.Angle.cos_coe t, ← Real.Angle.sin_coe t, h,
    Real.Angle.cos_coe, Real.Angle.sin_coe]

end Angle

namespace Ring

theorem area_onEllipse (center : Point ℝ) (rx ry rotation : ℝ) (angles : List ℝ) :
    area (angles.map (Angle.onEllipse center rx ry rotation)) =
      |rx * ry| / 2 * |Angle.sinSteps angles| := by
  apply area_map_of_swept (o := center)
  intro t u
  simp only [Angle.onEllipse, Point.sub_x, Point.sub_y, Scalar.real_sub, Real.sin_sub]
  linear_combination rx * ry * (Real.sin u * Real.cos t - Real.cos u * Real.sin t) *
    Real.sin_sq_add_cos_sq rotation

end Ring

namespace Region

/-- The corners of an ellipse with so many samples. -/
noncomputable def ellipseCorners (center : Point ℝ) (rx ry rotation : ℝ) (samples : ℕ) :
    List (Point ℝ) :=
  (Angle.equalSteps 0 (2 * Real.pi / (max samples 3 : ℕ)) (max samples 3)).map
    (Angle.onEllipse center rx ry rotation)

/-- The area of an ellipse with so many corners. -/
noncomputable def ellipseArea (rx ry : ℝ) (corners : ℕ) : ℝ :=
  corners / 2 * rx * ry * Real.sin (2 * Real.pi / corners)

variable {center : Point ℝ} {rx ry rotation : ℝ} {samples n m : ℕ}

@[simp] theorem length_ellipseCorners (center : Point ℝ) (rx ry rotation : ℝ) (samples : ℕ) :
    List.length (ellipseCorners center rx ry rotation samples) = max samples 3 := by
  rw [ellipseCorners, List.length_map, Angle.length_equalSteps]

theorem ofEllipse?_eq_corners (hx : 0 < rx) (hy : 0 < ry) :
    ofEllipse? center rx ry rotation samples =
      ofPoints? (ellipseCorners center rx ry rotation samples) := by
  rw [ofEllipse?_eq hx hy, ellipseCorners, Angle.equalSteps]
  congr 3
  funext k
  ring

theorem isChain_ellipseCorners_iff :
    List.IsChain Point.Apart (ellipseCorners center rx ry rotation samples) ↔
      ∀ k < max samples 3 - 1, Point.coincidence ≤
        Angle.ellipseChord rx ry (k * (2 * Real.pi / (max samples 3 : ℕ)))
          ((k + 1 : ℕ) * (2 * Real.pi / (max samples 3 : ℕ))) := by
  rw [ellipseCorners, Angle.equalSteps, List.map_map, List.isChain_map, List.isChain_range]
  simp only [Function.comp_def, Nat.succ_eq_add_one, Angle.apart_onEllipse_iff, zero_add]

theorem turn_of_steps (n : ℕ) (hn : 0 < n) :
    ((n * (2 * Real.pi / n) : ℝ) : Real.Angle) = 0 := by
  rw [mul_div_cancel₀ _ (Nat.cast_ne_zero.mpr hn.ne'), Real.Angle.coe_two_pi]

/-- Neighbours that are apart are all kept. The last corner and the first one are as far from each
other as the first two. -/
theorem kept_ellipseCorners
    (h : List.IsChain Point.Apart (ellipseCorners center rx ry rotation samples)) :
    Ring.kept (ellipseCorners center rx ry rotation samples) =
      ellipseCorners center rx ry rotation samples := by
  have hsteps := isChain_ellipseCorners_iff.mp h
  obtain ⟨m, hm⟩ : ∃ m, max samples 3 = m + 1 := ⟨max samples 3 - 1, by omega⟩
  have hpos : 0 < m := by omega
  have hturn := turn_of_steps (m + 1) m.succ_pos
  rw [hm, Nat.add_sub_cancel] at hsteps
  refine (Ring.kept_of_chain ?_).1
  rw [ellipseCorners, hm, Angle.equalSteps, List.map_map]
  apply Ring.chain_map_range
  · intro k hk
    simpa only [Function.comp, zero_add, Angle.apart_onEllipse_iff] using hsteps k hk
  · have hfirst := hsteps 0 hpos
    simp only [Function.comp, zero_add, Angle.apart_onEllipse_iff]
    rw [Nat.cast_zero, zero_mul, zero_add, Nat.cast_one, one_mul] at hfirst
    rw [Angle.ellipseChord_congr rx ry (Angle.coe_mul_of_turn hturn), Nat.cast_zero, zero_mul,
      ← neg_zero, Angle.ellipseChord_neg, Angle.ellipseChord_comm]
    exact hfirst

/-- Whether the corners are apart does not depend on the center and the rotation. -/
theorem isChain_ellipseCorners_move (center' : Point ℝ) (rotation' : ℝ)
    (h : List.IsChain Point.Apart (ellipseCorners center rx ry rotation samples)) :
    List.IsChain Point.Apart (ellipseCorners center' rx ry rotation' samples) :=
  isChain_ellipseCorners_iff.mpr (isChain_ellipseCorners_iff.mp h)

theorem step_pos_lt_pi (h : 3 ≤ n) : 0 < 2 * Real.pi / n ∧ 2 * Real.pi / n < Real.pi := by
  have hn : (3 : ℝ) ≤ n := by exact_mod_cast h
  have hpi := Real.pi_pos
  refine ⟨by positivity, ?_⟩
  rw [div_lt_iff₀ (by linarith)]
  nlinarith

/-- An ellipse whose neighbouring corners are apart has the area that its half axes and the number
of corners give. -/
theorem exists_ofEllipse? (hx : 0 < rx) (hy : 0 < ry)
    (h : List.IsChain Point.Apart (ellipseCorners center rx ry rotation samples)) :
    ∃ region, ofEllipse? center rx ry rotation samples = some region ∧
      region.area = ellipseArea rx ry (max samples 3) := by
  obtain ⟨m, hm⟩ : ∃ m, max samples 3 = m + 1 := ⟨max samples 3 - 1, by omega⟩
  have hkept := kept_ellipseCorners h
  have hthree : 3 ≤ List.length
      (Ring.kept (ellipseCorners center rx ry rotation samples)) := by
    rw [hkept, length_ellipseCorners]
    exact le_max_right _ _
  obtain ⟨region, hregion, harea⟩ := exists_of_kept hthree
  have hsin : 0 < Real.sin (2 * Real.pi / (m + 1 : ℕ)) := by
    obtain ⟨hpos, hlt⟩ := step_pos_lt_pi (n := m + 1) (by omega)
    exact Real.sin_pos_of_pos_of_lt_pi hpos hlt
  refine ⟨region, (ofEllipse?_eq_corners hx hy).trans hregion, ?_⟩
  rw [harea, hkept, ellipseCorners, hm, Ring.area_onEllipse,
    Angle.sinSteps_of_turn 0 (turn_of_steps (m + 1) m.succ_pos), abs_of_pos (mul_pos hx hy),
    abs_of_pos (by positivity), ellipseArea]
  ring

/-- The sine of a smaller angle is the larger part of it. -/
theorem sin_div_lt {x y : ℝ} (hx : 0 < x) (hxy : x < y) (hy : y ≤ Real.pi) :
    Real.sin y / y < Real.sin x / x := by
  have hsecant := strictConcaveOn_sin_Icc.secant_strict_mono (a := 0) (x := x) (y := y)
    ⟨le_rfl, Real.pi_pos.le⟩ ⟨hx.le, hxy.le.trans hy⟩ ⟨(hx.trans hxy).le, hy⟩ hx.ne'
    (hx.trans hxy).ne' hxy
  simpa only [Real.sin_zero, sub_zero] using hsecant

theorem ellipseArea_eq (h : 0 < n) : ellipseArea rx ry n =
    Real.pi * rx * ry * (Real.sin (2 * Real.pi / n) / (2 * Real.pi / n)) := by
  have hn : (n : ℝ) ≠ 0 := Nat.cast_ne_zero.mpr h.ne'
  have hpi := Real.pi_ne_zero
  rw [ellipseArea]
  field_simp

/-- More corners enclose more. -/
theorem ellipseArea_lt_of_lt (hx : 0 < rx) (hy : 0 < ry) (hn : 3 ≤ n) (h : n < m) :
    ellipseArea rx ry n < ellipseArea rx ry m := by
  have hn0 : (0 : ℝ) < n := Nat.cast_pos.mpr (by omega)
  have hstep : 2 * Real.pi / m < 2 * Real.pi / n :=
    div_lt_div_of_pos_left (by positivity) hn0 (Nat.cast_lt.mpr h)
  rw [ellipseArea_eq (by omega), ellipseArea_eq (by omega)]
  exact mul_lt_mul_of_pos_left (sin_div_lt (step_pos_lt_pi (by omega)).1 hstep
    (step_pos_lt_pi hn).2.le) (by positivity)

/-- All of them enclose less than the ellipse. -/
theorem ellipseArea_lt (hx : 0 < rx) (hy : 0 < ry) (hn : 3 ≤ n) :
    ellipseArea rx ry n < Real.pi * rx * ry := by
  have hpos := (step_pos_lt_pi hn).1
  rw [ellipseArea_eq (by omega)]
  exact mul_lt_of_lt_one_right (by positivity) ((div_lt_one hpos).mpr (Real.sin_lt hpos))

end Region

namespace Shape

/-- The ellipses with these half axes, and the circles with their radius for both, anywhere in the
plane and turned by any angle. -/
inductive HasHalfAxes : Shape ℝ → ℝ → ℝ → Prop
  | ellipse (center : Point ℝ) (rx ry rotation : ℝ) :
    HasHalfAxes (.ellipse center rx ry rotation) rx ry
  | circle (center : Point ℝ) (radius : ℝ) : HasHalfAxes (.circle center radius) radius radius

/-- With so many corners for curves the shape stands for a region of this area. -/
def Encloses (shape : Shape ℝ) (samples : ℕ) (area : ℝ) : Prop :=
  ∀ (settings : Settings ℝ) (name : String), settings.curvePoints = samples →
    ∃ tagged region, Tagged.ofShape settings name shape = .ok tagged ∧
      tagged.toRegion settings = .ok region ∧ region.area = area

variable {shape : Shape ℝ} {center : Point ℝ} {rx ry rotation : ℝ} {samples : ℕ}

theorem HasHalfAxes.encloses (hshape : shape.HasHalfAxes rx ry) (hx : 0 < rx) (hy : 0 < ry)
    (h : List.IsChain Point.Apart (Region.ellipseCorners center rx ry rotation samples)) :
    shape.Encloses samples (Region.ellipseArea rx ry (max samples 3)) := by
  rintro settings name rfl
  have hpositive : ∀ {x : ℝ}, 0 < x → isPositive x = true := by
    intro x hx
    simp [isPositive, hx]
  cases hshape with
  | ellipse center' rx ry rotation' =>
    obtain ⟨region, hregion, harea⟩ := Region.exists_ofEllipse? hx hy
      (Region.isChain_ellipseCorners_move center' (Angle.ofDegrees rotation') h)
    refine ⟨⟨name, .ellipse, .resolved region, .ellipse center' rx ry rotation'⟩, region, ?_, rfl,
      harea⟩
    simp [Tagged.ofShape, hpositive hx, hpositive hy, hregion, Tagged.orDefect, Except.map]
  | circle center' radius =>
    obtain ⟨region, hregion, harea⟩ := Region.exists_ofEllipse? hx hy
      (Region.isChain_ellipseCorners_move center' 0 h)
    refine ⟨⟨name, .circle, .resolved region, .circle center' rx⟩, region, ?_, rfl, harea⟩
    simp [Tagged.ofShape, hpositive hx, Region.ofCircle?, hregion, Tagged.orDefect, Except.map]

/-- A sampled ellipse whose neighbouring corners are apart makes a region with the area that its
half axes and the number of corners give. So it is the same for every ellipse or circle with these
half axes, less than the area of the ellipse, and more for more corners. -/
theorem area_of_ellipse (hx : 0 < rx) (hy : 0 < ry)
    (h : List.IsChain Point.Apart (Region.ellipseCorners center rx ry rotation samples)) :
    let area := Region.ellipseArea rx ry (max samples 3)
    (∀ center' rotation', ∃ region, Region.ofEllipse? center' rx ry rotation' samples =
        some region ∧ region.area = area) ∧
      (∀ shape : Shape ℝ, shape.HasHalfAxes rx ry → shape.Encloses samples area) ∧
      area < Real.pi * rx * ry ∧
      ∀ finer, max samples 3 < max finer 3 →
        List.IsChain Point.Apart (Region.ellipseCorners center rx ry rotation finer) →
        ∀ shape : Shape ℝ, shape.HasHalfAxes rx ry →
          ∃ area', shape.Encloses finer area' ∧ area < area' ∧ area' < Real.pi * rx * ry := by
  intro area
  refine ⟨fun center' rotation' => ?_, fun shape hshape => hshape.encloses hx hy h,
    Region.ellipseArea_lt hx hy (le_max_right _ _), fun finer hmore hfiner shape hshape => ?_⟩
  · exact Region.exists_ofEllipse? hx hy (Region.isChain_ellipseCorners_move center' rotation' h)
  · exact ⟨_, hshape.encloses hx hy hfiner,
      Region.ellipseArea_lt_of_lt hx hy (le_max_right _ _) hmore,
      Region.ellipseArea_lt hx hy (le_max_right _ _)⟩

section FourAndTwelve

theorem chord_le_ellipseChord (hx : 1 ≤ rx) (hy : 1 ≤ ry) (t u : ℝ) :
    2 * |1 * Real.sin ((u - t) / 2)| ≤ Angle.ellipseChord rx ry t u := by
  rw [← Angle.norm_onCircle_sub ⟨0, 0⟩, ← Angle.onEllipse_circle, Angle.norm_onEllipse_sub,
    Angle.ellipseChord, Angle.ellipseChord]
  apply Real.sqrt_le_sqrt
  simp only [mul_pow]
  gcongr

theorem isChain_ellipseCorners {samples : ℕ} (hx : 1 ≤ rx) (hy : 1 ≤ ry)
    (hlow : 3 ≤ samples) (hhigh : samples ≤ 12) :
    List.IsChain Point.Apart (Region.ellipseCorners center rx ry rotation samples) := by
  rw [Region.isChain_ellipseCorners_iff, max_eq_left hlow]
  intro k _
  have hpi := Real.pi_pos
  have hlow' : (3 : ℝ) ≤ samples := by exact_mod_cast hlow
  have hhigh' : (samples : ℝ) ≤ 12 := by exact_mod_cast hhigh
  have hpos : (0 : ℝ) < samples := by linarith
  refine le_trans ?_ (chord_le_ellipseChord hx hy _ _)
  have hstep := Angle.add_step_sub 0 (2 * Real.pi / samples) k
  rw [zero_add, zero_add] at hstep
  rw [hstep]
  apply Arc.separates_of_mem (le_refl 1)
  · rw [div_le_div_iff₀ (by norm_num) hpos]
    nlinarith
  · rw [div_le_iff₀ hpos]
    nlinarith

/-- An ellipse with half axes four and one has the area eight with four corners and twelve with
twelve of them. -/
theorem area_of_ellipse_twelve :
    let shape : Shape ℝ := .ellipse ⟨0, 0⟩ 4 1 45
    List.IsChain Point.Apart (Region.ellipseCorners ⟨1, 2⟩ 4 1 0 4) ∧
      List.IsChain Point.Apart (Region.ellipseCorners ⟨1, 2⟩ 4 1 0 12) ∧
      shape.HasHalfAxes 4 1 ∧ shape.Encloses 4 8 ∧ shape.Encloses 12 12 ∧
      12 < Real.pi * 4 * 1 := by
  intro shape
  have hfour : List.IsChain Point.Apart (Region.ellipseCorners ⟨1, 2⟩ 4 1 0 4) :=
    isChain_ellipseCorners (by norm_num) le_rfl (by norm_num) (by norm_num)
  have htwelve : List.IsChain Point.Apart (Region.ellipseCorners ⟨1, 2⟩ 4 1 0 12) :=
    isChain_ellipseCorners (by norm_num) le_rfl (by norm_num) (by norm_num)
  have hshape : shape.HasHalfAxes 4 1 := .ellipse _ _ _ _
  have harea : Region.ellipseArea 4 1 4 = 8 := by
    have hangle : 2 * Real.pi / (4 : ℕ) = Real.pi / 2 := by
      push_cast
      ring
    rw [Region.ellipseArea, hangle, Real.sin_pi_div_two]
    norm_num
  have harea' : Region.ellipseArea 4 1 12 = 12 := by
    have hangle : 2 * Real.pi / (12 : ℕ) = Real.pi / 6 := by
      push_cast
      ring
    rw [Region.ellipseArea, hangle, Real.sin_pi_div_six]
    norm_num
  obtain ⟨-, hcoarse, -⟩ := area_of_ellipse four_pos one_pos hfour
  obtain ⟨-, hfine, hbound, -⟩ := area_of_ellipse four_pos one_pos htwelve
  have hcoarse := hcoarse shape hshape
  have hfine := hfine shape hshape
  rw [max_eq_left (by norm_num), harea] at hcoarse
  rw [max_eq_left (by norm_num), harea'] at hfine hbound
  exact ⟨hfour, htwelve, hshape, hcoarse, hfine, hbound⟩

end FourAndTwelve

end Shape

end PlanarArea
