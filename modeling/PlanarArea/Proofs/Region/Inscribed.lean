import Mathlib.Analysis.SpecialFunctions.Trigonometric.Bounds
import PlanarArea.Proofs.Region.Corners

/-!
# Rings inscribed in a circle

The area of a ring is the same sum over its edges about any point. About the center of a circle on
which the corners lie it becomes a sum of sines of the steps from corner to corner, which is at most
the area of the circular segment that the corners span.
-/
namespace PlanarArea

/-- The sines of the steps around a cycle of angles, added up. -/
noncomputable def Angle.sinSteps (angles : List ℝ) : ℝ :=
  ((angles.zip (angles.tail ++ angles.take 1)).map fun s => Real.sin (s.2 - s.1)).sum

/-- Twice the area of the segment that an arc of length `w` cuts off the unit circle. -/
noncomputable def Angle.capOf (w : ℝ) : ℝ :=
  w - Real.sin w

namespace Ring

/-- Twice the signed area that the edges of a ring sweep about `o`. -/
noncomputable def sweptAbout (o : Point ℝ) (ring : Ring ℝ) : ℝ :=
  (ring.edges.map fun e => (e.1 - o).x * (e.2 - o).y - (e.1 - o).y * (e.2 - o).x).sum

/-- The swept area does not depend on the point about which it is taken. -/
theorem sweptAbout_eq (o o' : Point ℝ) (ring : Ring ℝ) :
    ring.sweptAbout o = ring.sweptAbout o' := by
  have hcancel := sum_edges_sub (fun z => (o.x - o'.x) * z.y - (o.y - o'.y) * z.x) ring
  have hsplit : ring.sweptAbout o' = ring.sweptAbout o + (ring.edges.map fun e =>
      ((o.x - o'.x) * e.2.y - (o.y - o'.y) * e.2.x) -
        ((o.x - o'.x) * e.1.y - (o.y - o'.y) * e.1.x)).sum := by
    rw [sweptAbout, sweptAbout, ← List.sum_map_add]
    congr 1
    apply List.map_congr_left
    intro e _
    simp only [Point.sub_x, Point.sub_y, Scalar.real_sub]
    ring
  rw [hsplit, hcancel, add_zero]

theorem area_eq_sweptAbout (o : Point ℝ) (ring : Ring ℝ) : ring.area = |ring.sweptAbout o / 2| := by
  cases ring with
  | nil => simp [area, sweptAbout, edges]
  | cons base rest =>
    rw [sweptAbout_eq o base]
    simp only [area, sweptAbout, Scalar.real_sum, Scalar.real_abs, Scalar.real_div,
      Scalar.real_sub, Scalar.real_mul]

/-- The area of a ring along a curve, any two points of which sweep about `o` as much as two points
of a circle with these angles, `k` times over. -/
theorem area_map_of_swept {curve : ℝ → Point ℝ} {o : Point ℝ} {k : ℝ}
    (h : ∀ t u, (curve t - o).x * (curve u - o).y - (curve t - o).y * (curve u - o).x =
      k * Real.sin (u - t)) (angles : List ℝ) :
    area (angles.map curve) = |k| / 2 * |Angle.sinSteps angles| := by
  have hswept : sweptAbout o (angles.map curve) = k * Angle.sinSteps angles := by
    rw [sweptAbout, edges, ← List.map_tail, ← List.map_take, ← List.map_append, List.zip_map,
      List.map_map, Angle.sinSteps, ← List.sum_map_mul_left]
    congr 1
    apply List.map_congr_left
    intro e _
    exact h e.1 e.2
  rw [area_eq_sweptAbout o, hswept, abs_div, abs_mul, abs_two]
  ring

/-- The area of a ring with corners on a circle. -/
theorem area_onCircle (center : Point ℝ) (radius : ℝ) (angles : List ℝ) :
    area (angles.map (Angle.onCircle center radius)) =
      radius ^ 2 / 2 * |Angle.sinSteps angles| := by
  rw [area_map_of_swept (o := center) (k := radius ^ 2), abs_of_nonneg (sq_nonneg radius)]
  intro t u
  simp only [Angle.onCircle, Point.sub_x, Point.sub_y, Scalar.real_sub, Scalar.real_add,
    Scalar.real_mul, Scalar.real_cos, Scalar.real_sin, Real.sin_sub]
  ring

end Ring

namespace Angle

theorem capOf_mono {v w : ℝ} (h : v ≤ w) : capOf v ≤ capOf w := by
  have hsin := le_trans (le_abs_self _) (Real.abs_sin_sub_sin_le w v)
  rw [abs_of_nonneg (sub_nonneg.mpr h)] at hsin
  simp only [capOf]
  linarith

theorem capOf_nonneg {w : ℝ} (h : 0 ≤ w) : 0 ≤ capOf w :=
  sub_nonneg.mpr (Real.sin_le h)

theorem sin_two_mul_add_sub (p q : ℝ) :
    Real.sin (2 * p) + Real.sin (2 * q) - Real.sin (2 * (p + q)) =
      4 * (Real.sin p * Real.sin q * Real.sin (p + q)) := by
  have hp := Real.sin_sq_add_cos_sq p
  have hq := Real.sin_sq_add_cos_sq q
  rw [Real.sin_two_mul, Real.sin_two_mul, Real.sin_two_mul, Real.sin_add, Real.cos_add]
  linear_combination (-2 * Real.sin p * Real.cos p) * hq + (-2 * Real.sin q * Real.cos q) * hp

/-- Two steps gain on one step over both, within a full turn. -/
theorem sin_add_le {a b : ℝ} (ha : 0 ≤ a) (hb : 0 ≤ b) (hab : a + b ≤ 2 * Real.pi) :
    Real.sin (a + b) ≤ Real.sin a + Real.sin b := by
  have hsin : ∀ {x : ℝ}, 0 ≤ x → x ≤ 2 * Real.pi → 0 ≤ Real.sin (x / 2) :=
    fun h0 h1 => Real.sin_nonneg_of_nonneg_of_le_pi (by linarith) (by linarith)
  have hpos : 0 ≤ Real.sin (a / 2) * Real.sin (b / 2) * Real.sin (a / 2 + b / 2) := by
    rw [← add_div]
    exact mul_nonneg (mul_nonneg (hsin ha (by linarith)) (hsin hb (by linarith)))
      (hsin (add_nonneg ha hb) hab)
  have hfactor := sin_two_mul_add_sub (a / 2) (b / 2)
  rw [mul_add, mul_div_cancel₀ a two_ne_zero, mul_div_cancel₀ b two_ne_zero] at hfactor
  linarith

/-- The sines along ascending angles and on to `stop` lie between those of one step and the angle
walked. -/
theorem sum_sin_ascending (stop : ℝ) {x : ℝ} {xs : List ℝ} (h : (x :: xs).Pairwise (· ≤ ·))
    (hspan : ∀ a ∈ x :: xs, a ≤ x + 2 * Real.pi) :
    ∃ last ∈ x :: xs, x ≤ last ∧
      Real.sin (last - x) + Real.sin (stop - last) ≤
        (((x :: xs).zip (xs ++ [stop])).map fun s => Real.sin (s.2 - s.1)).sum ∧
      (((x :: xs).zip (xs ++ [stop])).map fun s => Real.sin (s.2 - s.1)).sum ≤
        last - x + Real.sin (stop - last) := by
  induction xs generalizing x with
  | nil => exact ⟨x, List.mem_singleton.mpr rfl, le_refl x, by simp, by simp⟩
  | cons y ys ih =>
    obtain ⟨hx, hys⟩ := List.pairwise_cons.mp h
    have hxy : x ≤ y := hx y List.mem_cons_self
    have hspan' : ∀ a ∈ y :: ys, a ≤ y + 2 * Real.pi :=
      fun a ha => (hspan a (List.mem_cons_of_mem x ha)).trans (by linarith)
    obtain ⟨last, hmem, hle, hlow, hhigh⟩ := ih hys hspan'
    have hstep := sin_add_le (sub_nonneg.mpr hxy) (sub_nonneg.mpr hle)
      (by linarith [hspan last (List.mem_cons_of_mem x hmem)])
    have htotal : y - x + (last - y) = last - x := by ring
    rw [htotal] at hstep
    have hsine : Real.sin (y - x) ≤ y - x := Real.sin_le (sub_nonneg.mpr hxy)
    refine ⟨last, List.mem_cons_of_mem x hmem, hxy.trans hle, ?_, ?_⟩
    · simp only [List.cons_append, List.zip_cons_cons, List.map_cons, List.sum_cons] at hlow ⊢
      linarith
    · simp only [List.cons_append, List.zip_cons_cons, List.map_cons, List.sum_cons] at hhigh ⊢
      linarith

/-- Ascending angles within `w` go round at most the cap of `w`. -/
theorem sinSteps_ascending {angles : List ℝ} {lo w : ℝ} (hw : 0 ≤ w) (hturn : w ≤ 2 * Real.pi)
    (hsort : angles.Pairwise (· ≤ ·)) (hmem : ∀ a ∈ angles, lo ≤ a ∧ a ≤ lo + w) :
    0 ≤ sinSteps angles ∧ sinSteps angles ≤ capOf w := by
  cases angles with
  | nil => exact ⟨le_refl _, capOf_nonneg hw⟩
  | cons x xs =>
    have hx := (hmem x List.mem_cons_self).1
    obtain ⟨last, hlast, hle, hlow, hhigh⟩ := sum_sin_ascending x hsort
      fun a ha => (hmem a ha).2.trans (by linarith)
    have hback : Real.sin (x - last) = -Real.sin (last - x) := by
      rw [← Real.sin_neg, neg_sub]
    have hcap := capOf_mono (v := last - x) (w := w) (by linarith [(hmem last hlast).2])
    rw [hback] at hlow hhigh
    rw [capOf] at hcap
    simp only [sinSteps, List.tail_cons, List.take_succ_cons, List.take_zero]
    exact ⟨by linarith, by linarith⟩

theorem sinSteps_map_neg (angles : List ℝ) : sinSteps (angles.map (-·)) = -sinSteps angles := by
  rw [sinSteps, ← List.map_tail, ← List.map_take, ← List.map_append, List.zip_map, List.map_map,
    sinSteps, ← neg_one_mul, ← List.sum_map_mul_left]
  congr 1
  apply List.map_congr_left
  intro s _
  simp only [Function.comp, Prod.map, neg_one_mul, ← Real.sin_neg]
  congr 1
  ring

/-- Angles within `w`, all ascending or all descending, go round at most the cap of `w`. -/
theorem abs_sinSteps_le {angles : List ℝ} {lo w : ℝ} (hw : 0 ≤ w) (hturn : w ≤ 2 * Real.pi)
    (hsort : angles.Pairwise (· ≤ ·) ∨ angles.Pairwise (· ≥ ·))
    (hmem : ∀ a ∈ angles, lo ≤ a ∧ a ≤ lo + w) : |sinSteps angles| ≤ capOf w := by
  cases hsort with
  | inl hup =>
    obtain ⟨hlow, hhigh⟩ := sinSteps_ascending hw hturn hup hmem
    rwa [abs_of_nonneg hlow]
  | inr hdown =>
    have hup : (angles.map (-·)).Pairwise (· ≤ ·) := by
      rw [List.pairwise_map]
      exact hdown.imp fun h => neg_le_neg h
    have hmem' : ∀ a ∈ angles.map (-·), -(lo + w) ≤ a ∧ a ≤ -(lo + w) + w := by
      intro a ha
      obtain ⟨b, hb, rfl⟩ := List.mem_map.mp ha
      have hb := hmem b hb
      exact ⟨by linarith, by linarith⟩
    obtain ⟨hlow, hhigh⟩ := sinSteps_ascending hw hturn hup hmem'
    rw [sinSteps_map_neg] at hlow hhigh
    rwa [abs_of_nonpos (by linarith)]

/-- The angles at which a sweep is sampled. -/
noncomputable def sampleAngles (start sweep : ℝ) (intervals : ℕ) : List ℝ :=
  (List.range (max intervals 1 + 1)).map fun i : ℕ =>
    start + (i : ℝ) / (max intervals 1 : ℕ) * sweep

variable {start sweep : ℝ} {intervals : ℕ}

theorem sampleSweep_eq_map (center : Point ℝ) (radius : ℝ) :
    sampleSweep center radius start sweep intervals =
      (sampleAngles start sweep intervals).map (onCircle center radius) := by
  simp only [sampleSweep, sampleAngles, List.map_map, Function.comp_def, Scalar.real_add,
    Scalar.real_mul, Scalar.real_div, Scalar.real_ofNat]

theorem mem_uIcc_of_mem_sampleAngles {angle : ℝ} (h : angle ∈ sampleAngles start sweep intervals) :
    angle ∈ Set.uIcc start (start + sweep) := by
  obtain ⟨i, hi, rfl⟩ := List.mem_map.mp h
  have hn : (0 : ℝ) < (max intervals 1 : ℕ) := Nat.cast_pos.mpr (by omega)
  have hle : (i : ℝ) ≤ (max intervals 1 : ℕ) :=
    Nat.cast_le.mpr (Nat.lt_succ_iff.mp (List.mem_range.mp hi))
  have hlow : 0 ≤ (i : ℝ) / (max intervals 1 : ℕ) := div_nonneg (Nat.cast_nonneg i) hn.le
  have hhigh : (i : ℝ) / (max intervals 1 : ℕ) ≤ 1 := (div_le_one hn).mpr hle
  rw [Set.mem_uIcc]
  cases le_total 0 sweep with
  | inl hs => exact .inl ⟨by nlinarith, by nlinarith⟩
  | inr hs => exact .inr ⟨by nlinarith, by nlinarith⟩

variable (start sweep intervals) in
theorem sampleAngles_sorted : (sampleAngles start sweep intervals).Pairwise (· ≤ ·) ∨
    (sampleAngles start sweep intervals).Pairwise (· ≥ ·) := by
  have hn : (0 : ℝ) ≤ (max intervals 1 : ℕ) := Nat.cast_nonneg _
  have hstep : ∀ {i j : ℕ}, i < j →
      (i : ℝ) / (max intervals 1 : ℕ) ≤ (j : ℝ) / (max intervals 1 : ℕ) :=
    fun hij => div_le_div_of_nonneg_right (Nat.cast_le.mpr hij.le) hn
  simp only [sampleAngles, List.pairwise_map]
  cases le_total 0 sweep with
  | inl hs =>
    apply Or.inl
    exact List.pairwise_lt_range.imp fun hij =>
      add_le_add_right (mul_le_mul_of_nonneg_right (hstep hij) hs) start
  | inr hs =>
    apply Or.inr
    exact List.pairwise_lt_range.imp fun hij =>
      add_le_add_right (mul_le_mul_of_nonpos_right (hstep hij) hs) start

end Angle

namespace Region

/-- The region through points of a curve keeps some of them, in their order or in the opposite
one. -/
theorem exists_of_ofPoints?_map {curve : ℝ → Point ℝ} {angles : List ℝ} {region : Region ℝ}
    (hsort : angles.Pairwise (· ≤ ·) ∨ angles.Pairwise (· ≥ ·))
    (h : ofPoints? (angles.map curve) = some region) :
    ∃ kept : List ℝ, region = ofRing (kept.map curve) ∧ kept ⊆ angles ∧
      (kept.Pairwise (· ≤ ·) ∨ kept.Pairwise (· ≥ ·)) := by
  obtain ⟨ring, hring, rfl⟩ := Option.map_eq_some_iff.mp h
  cases Ring.sublist_of_ofPoints? hring with
  | inl hsub =>
    obtain ⟨kept, hkept, rfl⟩ := List.sublist_map_iff.mp hsub
    exact ⟨kept, rfl, hkept.subset, hsort.imp (·.sublist hkept) (·.sublist hkept)⟩
  | inr hsub =>
    rw [← List.map_reverse] at hsub
    obtain ⟨kept, hkept, rfl⟩ := List.sublist_map_iff.mp hsub
    refine ⟨kept, rfl, fun a ha => List.mem_reverse.mp (hkept.subset ha), ?_⟩
    cases hsort with
    | inl hup => exact .inr ((List.pairwise_reverse.mpr hup).sublist hkept)
    | inr hdown => exact .inl ((List.pairwise_reverse.mpr hdown).sublist hkept)

/-- A region made from the samples of a sweep has its corners on the circle, at angles of the sweep
taken all in one sense. -/
theorem exists_angles_of_sampleSweep {center : Point ℝ} {radius start sweep : ℝ} {intervals : ℕ}
    {region : Region ℝ}
    (h : ofPoints? (Angle.sampleSweep center radius start sweep intervals) = some region) :
    ∃ angles : List ℝ, region = ofRing (angles.map (Angle.onCircle center radius)) ∧
      (∀ a ∈ angles, a ∈ Set.uIcc start (start + sweep)) ∧
      (angles.Pairwise (· ≤ ·) ∨ angles.Pairwise (· ≥ ·)) := by
  rw [Angle.sampleSweep_eq_map] at h
  obtain ⟨angles, hregion, hsub, hsort⟩ :=
    exists_of_ofPoints?_map (Angle.sampleAngles_sorted start sweep intervals) h
  exact ⟨angles, hregion, fun a ha => Angle.mem_uIcc_of_mem_sampleAngles (hsub ha), hsort⟩

/-- The samples of a sweep enclose at most the circular segment of the sweep. -/
theorem area_le_of_sampleSweep {center : Point ℝ} {radius start sweep : ℝ} {intervals : ℕ}
    {region : Region ℝ} (hsweep : |sweep| ≤ 2 * Real.pi)
    (h : ofPoints? (Angle.sampleSweep center radius start sweep intervals) = some region) :
    region.area ≤ radius ^ 2 / 2 * Angle.capOf |sweep| := by
  obtain ⟨angles, rfl, hmem, hsort⟩ := exists_angles_of_sampleSweep h
  rw [area_ofRing, Ring.area_onCircle]
  have hwithin : ∀ a ∈ angles, min start (start + sweep) ≤ a ∧
      a ≤ min start (start + sweep) + |sweep| := by
    intro a ha
    have hspan := max_sub_min_eq_abs start (start + sweep)
    rw [add_sub_cancel_left] at hspan
    obtain ⟨hlow, hhigh⟩ := hmem a ha
    exact ⟨hlow, by linarith⟩
  exact mul_le_mul_of_nonneg_left (Angle.abs_sinSteps_le (abs_nonneg sweep) hsweep hsort hwithin)
    (by positivity)

end Region

end PlanarArea
