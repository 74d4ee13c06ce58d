import PlanarArea.Circle.Cut
import PlanarArea.Proofs.Circle.ArcCut
import PlanarArea.Proofs.Circle.Secant

/-!
# Cuts of circles

The piece of a circle that a line cuts off is the part of the circle on one closed side of the line:
the right one if the center lies clearly on the left, and the left one otherwise. So the piece lies
away from the center, and the direction of the line does not matter, unless the line passes through
the center or nearly so; then the two directions cut off the two parts of the circle.
-/
namespace PlanarArea

namespace Angle

variable {start sweep : ℝ}

theorem head?_sampleSweep (center : Point ℝ) (radius start sweep : ℝ) (intervals : ℕ) :
    (sampleSweep center radius start sweep intervals).head? =
      some (onCircle center radius start) := by
  rw [sampleSweep_eq_map, sampleAngles, List.range_succ_eq_map, List.map_cons, List.map_cons,
    List.head?_cons, Nat.cast_zero, zero_div, zero_mul, add_zero]

theorem getLast?_sampleSweep (center : Point ℝ) (radius start sweep : ℝ) (intervals : ℕ) :
    (sampleSweep center radius start sweep intervals).getLast? =
      some (onCircle center radius (start + sweep)) := by
  have hn : ((max intervals 1 : ℕ) : ℝ) ≠ 0 := Nat.cast_ne_zero.mpr (by omega)
  rw [sampleSweep_eq_map, sampleAngles, List.range_succ, List.map_append, List.map_append,
    List.map_singleton, List.map_singleton, List.getLast?_concat, div_self hn, one_mul]

/-- The same stretch sampled from its other end. -/
theorem sampleSweep_flip (center : Point ℝ) (radius : ℝ) (intervals : ℕ) {stop : ℝ}
    (h : (stop : Real.Angle) = ((start + sweep : ℝ) : Real.Angle)) :
    sampleSweep center radius stop (-sweep) intervals =
      (sampleSweep center radius start sweep intervals).reverse := by
  have hn : (0 : ℝ) < (max intervals 1 : ℕ) := Nat.cast_pos.mpr (by omega)
  rw [sampleSweep_eq_map, sampleSweep_eq_map, sampleAngles, sampleAngles, List.map_map,
    List.map_map]
  apply List.ext_getElem
  · simp
  · intro i hi hi'
    have hle : i ≤ max intervals 1 := by simpa [Nat.lt_succ_iff] using hi
    simp only [List.getElem_reverse, List.getElem_map, List.getElem_range, List.length_map,
      List.length_range, Function.comp, Nat.add_sub_cancel]
    apply onCircle_congr
    rw [Real.Angle.coe_add, h, ← Real.Angle.coe_add, Nat.cast_sub hle]
    congr 1
    field_simp
    ring

end Angle

theorem Settings.intervals_neg (settings : Settings ℝ) (sweep : ℝ) (least : ℕ) :
    settings.intervals (-sweep) least = settings.intervals sweep least := by
  simp only [intervals, Scalar.real_abs, abs_neg]

namespace Arc

/-- The points of an arc. -/
def trace (arc : Arc ℝ) : Set (Point ℝ) :=
  Angle.onCircle arc.center arc.radius '' arc.angles

/-- The points at which a cut stretch of an arc is sampled. -/
noncomputable def cutSamples (settings : Settings ℝ) (arc : Arc ℝ) : List (Point ℝ) :=
  arc.sample (settings.intervals arc.sweep settings.cutMinPoints)

theorem mem_trace_of_mem_sample {arc : Arc ℝ} {intervals : ℕ} {x : Point ℝ}
    (h : x ∈ arc.sample intervals) : x ∈ arc.trace := by
  rw [sample, Angle.sampleSweep_eq_map] at h
  obtain ⟨angle, hangle, rfl⟩ := List.mem_map.mp h
  exact ⟨angle, Angle.mem_uIcc_of_mem_sampleAngles hangle, rfl⟩

end Arc

/-- The points of a circle. -/
def Point.circle (center : Point ℝ) (radius : ℝ) : Set (Point ℝ) :=
  {x | (x - center).norm = radius}

theorem Point.mem_circle_iff {center x : Point ℝ} {radius : ℝ} (hr : 0 ≤ radius) :
    x ∈ circle center radius ↔ (x - center).dot (x - center) = radius * radius := by
  have hnorm : (x - center).norm = Real.sqrt ((x - center).dot (x - center)) := rfl
  have hdot : 0 ≤ (x - center).dot (x - center) := by
    rw [dot_self]
    positivity
  rw [circle, Set.mem_ofPred_eq, hnorm, Real.sqrt_eq_iff_mul_self_eq hdot hr, eq_comm]

theorem Angle.onCircle_mem_circle {radius : ℝ} (hr : 0 ≤ radius) (center : Point ℝ) (angle : ℝ) :
    onCircle center radius angle ∈ Point.circle center radius :=
  (Point.mem_circle_iff hr).mpr (dot_onCircle angle)

namespace Secant

variable {p q center : Point ℝ} {radius start sweep : ℝ}

/-- The counter-clockwise way is the part of the circle right of the line. -/
theorem image_right (h : Secant p q center radius start sweep) :
    Angle.onCircle center radius '' Set.uIcc start (start + sweep) =
      {x | x ∈ Point.circle center radius ∧ Point.cross p q x ≤ 0} := by
  have hpos := h.sweep_pos
  have hr := h.radius_pos.le
  rw [Set.uIcc_of_le (by linarith)]
  apply Set.Subset.antisymm
  · rintro x ⟨angle, ⟨hlow, hhigh⟩, rfl⟩
    refine ⟨Angle.onCircle_mem_circle hr center angle, ?_⟩
    rw [← add_sub_cancel start angle]
    exact h.cross_nonpos ⟨by linarith, by linarith⟩
  · rintro x ⟨hx, hside⟩
    obtain ⟨u, ⟨hlow, hhigh⟩, rfl⟩ := h.exists_turn ((Point.mem_circle_iff hr).mp hx)
    -- Turned clockwise, only the second crossing does not lie left of the line.
    cases le_or_gt 0 u with
    | inl hu => exact ⟨start + u, ⟨by linarith, by linarith⟩, rfl⟩
    | inr hu =>
      cases hlow.eq_or_lt with
      | inl hend =>
        refine ⟨start + sweep, ⟨by linarith, le_rfl⟩, ?_⟩
        rw [← hend, Angle.onCircle_other_way]
      | inr hlt => exact absurd hside (not_le.mpr (h.cross_pos ⟨hlt, hu⟩))

/-- The clockwise way is the part left of it. -/
theorem image_left (h : Secant p q center radius start sweep) :
    Angle.onCircle center radius '' Set.uIcc start (start + (sweep - 2 * Real.pi)) =
      {x | x ∈ Point.circle center radius ∧ 0 ≤ Point.cross p q x} := by
  have hlt := h.sweep_lt
  have hr := h.radius_pos.le
  rw [Set.uIcc_of_ge (by linarith)]
  apply Set.Subset.antisymm
  · rintro x ⟨angle, ⟨hlow, hhigh⟩, rfl⟩
    refine ⟨Angle.onCircle_mem_circle hr center angle, ?_⟩
    rw [← add_sub_cancel start angle]
    exact h.cross_nonneg ⟨by linarith, by linarith⟩
  · rintro x ⟨hx, hside⟩
    obtain ⟨u, ⟨hlow, hhigh⟩, rfl⟩ := h.exists_turn ((Point.mem_circle_iff hr).mp hx)
    cases le_or_gt u 0 with
    | inl hu => exact ⟨start + u, ⟨by linarith, by linarith⟩, rfl⟩
    | inr hu => exact absurd hside (not_le.mpr (h.cross_neg ⟨hu, hhigh⟩))

/-- Only the two crossings lie on both sides. -/
theorem crossings (h : Secant p q center radius start sweep) :
    {x | x ∈ Point.circle center radius ∧ Point.cross p q x = 0} =
      {Angle.onCircle center radius start, Angle.onCircle center radius (start + sweep)} := by
  have hr := h.radius_pos.le
  ext x
  rw [Set.mem_ofPred_eq, Set.mem_insert_iff, Set.mem_singleton_iff]
  constructor
  · rintro ⟨hx, hzero⟩
    obtain ⟨u, ⟨hlow, hhigh⟩, rfl⟩ := h.exists_turn ((Point.mem_circle_iff hr).mp hx)
    obtain hneg | rfl | hpos := lt_trichotomy u 0
    · cases hlow.eq_or_lt with
      | inl hend =>
        exact .inr (by rw [← hend, Angle.onCircle_other_way])
      | inr hlt => exact absurd hzero (h.cross_pos ⟨hlt, hneg⟩).ne'
    · exact .inl (by rw [add_zero])
    · exact absurd hzero (h.cross_neg ⟨hpos, hhigh⟩).ne
  · rintro (rfl | rfl)
    · have hzero := h.cross_eq_zero (.inl rfl)
      rw [add_zero] at hzero
      exact ⟨Angle.onCircle_mem_circle hr center start, hzero⟩
    · exact ⟨Angle.onCircle_mem_circle hr center _, h.cross_eq_zero (.inr (.inl rfl))⟩

end Secant

namespace Cut

/-- The signed distance of the center from a line, positive if the center lies on the left. -/
noncomputable def centerOffset (p q center : Point ℝ) : ℝ :=
  Point.cross p q center / (q - p).norm

/-- Up to this distance from the center a line counts as one through the center. -/
noncomputable def centerSlack (radius : ℝ) : ℝ :=
  1e-9 * max radius 1

variable {settings : Settings ℝ} {p q center : Point ℝ} {radius start stop : ℝ}

theorem centerSlack_nonneg (radius : ℝ) : 0 ≤ centerSlack radius := by
  unfold centerSlack
  positivity

theorem centerOffset_swap (p q center : Point ℝ) :
    centerOffset q p center = -centerOffset p q center := by
  have hnorm : (p - q).norm = (q - p).norm := congrArg Real.sqrt (Point.dot_swap p q)
  rw [centerOffset, centerOffset, Point.cross_swap, hnorm, neg_div]

theorem cross_pos_of_centerOffset (h : 0 < centerOffset p q center) :
    0 < Point.cross p q center := by
  by_contra hle
  exact absurd h (not_lt.mpr (div_nonpos_of_nonpos_of_nonneg (not_lt.mp hle) (Real.sqrt_nonneg _)))

theorem cross_neg_of_centerOffset (h : centerOffset p q center < 0) :
    Point.cross p q center < 0 := by
  by_contra hle
  exact absurd h (not_lt.mpr (div_nonneg (not_lt.mp hle) (Real.sqrt_nonneg _)))

theorem wantedSide_eq :
    wantedSide p q center radius =
      if centerSlack radius < centerOffset p q center then -1 else 1 := by
  simp only [wantedSide, centerSlack, centerOffset, Scalar.real_decimal, Scalar.real_max,
    Scalar.real_lt, Scalar.real_mul, Scalar.real_div, Scalar.real_one, Scalar.real_neg]
  congr

/-- A cut takes the counter-clockwise way if the center lies clearly on the left. -/
theorem sweep_circleArc (h : Secant p q center radius start (Angle.ccwSweep start stop)) :
    (circleArc p q center radius start stop).sweep =
      if centerSlack radius < centerOffset p q center then Angle.ccwSweep start stop
      else Angle.ccwSweep start stop - 2 * Real.pi := by
  have hpos := h.sweep_pos
  have hmiddle := h.cross_neg (u := 0.5 * Angle.ccwSweep start stop)
    ⟨by positivity, by norm_num; linarith⟩
  have hside : Scalar.signum (Point.cross p q (Angle.onCircle center radius
      (start + 0.5 * Angle.ccwSweep start stop))) = -1 := if_pos hmiddle
  simp only [circleArc, Scalar.real_add, Scalar.real_mul, Scalar.real_decimal, hside,
    Scalar.real_same, wantedSide_eq, Angle.turn_eq, Scalar.real_neg, Scalar.real_sub]
  split
  · simp
  · norm_num

/-- A cut traces the part of the circle on the side that it takes. -/
theorem trace_circleArc (h : Secant p q center radius start (Angle.ccwSweep start stop)) :
    (circleArc p q center radius start stop).trace =
      {x | x ∈ Point.circle center radius ∧
        if centerSlack radius < centerOffset p q center then Point.cross p q x ≤ 0
        else 0 ≤ Point.cross p q x} := by
  have hstart : (circleArc p q center radius start stop).start = start := rfl
  have hcenter : (circleArc p q center radius start stop).center = center := rfl
  have hradius : (circleArc p q center radius start stop).radius = radius := rfl
  rw [Arc.trace, Arc.angles, sweep_circleArc h, hstart, hcenter, hradius]
  split
  · exact h.image_right
  · exact h.image_left

/-- A cut ends in the direction of the second crossing. -/
theorem coe_stop (h : Secant p q center radius start (Angle.ccwSweep start stop)) :
    (stop : Real.Angle) =
      ((start + (circleArc p q center radius start stop).sweep : ℝ) : Real.Angle) := by
  rw [Real.Angle.coe_add, sweep_circleArc h]
  split
  · rw [Angle.coe_ccwSweep, add_sub_cancel]
  · rw [Real.Angle.coe_sub, Angle.coe_ccwSweep, Real.Angle.coe_two_pi, sub_zero, add_sub_cancel]

/-- Away from the center a cut takes at most half the circle. -/
theorem abs_sweep_circleArc_le (h : Secant p q center radius start (Angle.ccwSweep start stop))
    (haway : centerSlack radius < |centerOffset p q center|) :
    |(circleArc p q center radius start stop).sweep| ≤ Real.pi := by
  have hslack := centerSlack_nonneg radius
  have hpos := h.sweep_pos
  have hlt := h.sweep_lt
  rw [sweep_circleArc h]
  cases lt_abs.mp haway with
  | inl hleft =>
    have hhalf := h.sweep_lt_pi (cross_pos_of_centerOffset (hslack.trans_lt hleft))
    rw [if_pos hleft, abs_of_pos hpos]
    exact hhalf.le
  | inr hright =>
    have hhalf := h.pi_lt_sweep (cross_neg_of_centerOffset (by linarith))
    rw [if_neg (by linarith), abs_of_neg (by linarith)]
    linarith

/-- Away from the center the line in the other direction makes the same cut, from its other end. -/
theorem sweep_circleArc_swap (h : Secant p q center radius start (Angle.ccwSweep start stop))
    (h' : Secant q p center radius stop (Angle.ccwSweep stop start))
    (haway : centerSlack radius < |centerOffset p q center|) :
    (circleArc q p center radius stop start).sweep =
      -(circleArc p q center radius start stop).sweep := by
  have hslack := centerSlack_nonneg radius
  rw [sweep_circleArc h, sweep_circleArc h', centerOffset_swap p q, Angle.ccwSweep_swap h.sweep_pos]
  cases lt_abs.mp haway with
  | inl hleft =>
    rw [if_pos hleft, if_neg (by linarith)]
    ring
  | inr hright =>
    rw [if_pos hright, if_neg (by linarith)]
    ring

theorem trace_circleArc_swap (h : Secant p q center radius start (Angle.ccwSweep start stop))
    (h' : Secant q p center radius stop (Angle.ccwSweep stop start))
    (haway : centerSlack radius < |centerOffset p q center|) :
    (circleArc q p center radius stop start).trace =
      (circleArc p q center radius start stop).trace := by
  have hslack := centerSlack_nonneg radius
  rw [trace_circleArc h, trace_circleArc h', centerOffset_swap p q]
  simp only [Point.cross_swap p q, Left.neg_nonpos_iff, Left.nonneg_neg_iff]
  cases lt_abs.mp haway with
  | inl hleft =>
    have hright : ¬ centerSlack radius < -centerOffset p q center := by linarith
    simp only [if_pos hleft, if_neg hright]
  | inr hright =>
    have hleft : ¬ centerSlack radius < centerOffset p q center := by linarith
    simp only [if_pos hright, if_neg hleft]

/-- Next to the center the two directions of the line cut off the two parts of the circle. -/
theorem trace_circleArc_complement
    (h : Secant p q center radius start (Angle.ccwSweep start stop))
    (h' : Secant q p center radius stop (Angle.ccwSweep stop start))
    (hnext : |centerOffset p q center| ≤ centerSlack radius) :
    (circleArc p q center radius start stop).trace ∪
        (circleArc q p center radius stop start).trace = Point.circle center radius ∧
      (circleArc p q center radius start stop).trace ∩
        (circleArc q p center radius stop start).trace =
          {x | x ∈ Point.circle center radius ∧ Point.cross p q x = 0} := by
  obtain ⟨hright, hleft⟩ := abs_le.mp hnext
  have hback : ¬ centerSlack radius < -centerOffset p q center := not_lt.mpr (neg_le.mp hright)
  rw [trace_circleArc h, trace_circleArc h', centerOffset_swap p q]
  simp only [if_neg (not_lt.mpr hleft), if_neg hback, Point.cross_swap p q, Left.nonneg_neg_iff]
  constructor
  · ext x
    simp only [Set.mem_union, Set.mem_ofPred_eq, ← and_or_left, le_total, and_true]
  · ext x
    simp only [Set.mem_inter_iff, Set.mem_ofPred_eq, ← and_and_left, le_antisymm_iff]
    tauto

variable {first second : Hit ℝ}

/-- Let a line meet a circle twice. The samples of the cut lead from the first point to the second
one along the circle, on the right of the line if the center lies on the left beyond the slack, and
on the left of the line otherwise. If the center lies beyond the slack on either side, the cut takes
at most half a turn and is the same in both directions of the line. Within the slack the cuts in the
two directions make up the circle and have only the two points in common. -/
theorem circle?_takes_side (hr : 0 < radius)
    (hhits : Hit.ofLine settings p q center radius = [first, second]) :
    let cut := circleArc p q center radius first.angle second.angle
    let back := circleArc q p center radius second.angle first.angle
    let offset := centerOffset p q center
    circle? settings center radius p q = Region.ofPoints? (cut.cutSamples settings) ∧
      circle? settings center radius q p = Region.ofPoints? (back.cutSamples settings) ∧
      (cut.cutSamples settings).head? = some first.point ∧
      (cut.cutSamples settings).getLast? = some second.point ∧
      (∀ x ∈ cut.cutSamples settings, x ∈ Point.circle center radius ∧
        if centerSlack radius < offset then Point.cross p q x ≤ 0 else 0 ≤ Point.cross p q x) ∧
      (centerSlack radius < |offset| → |cut.sweep| ≤ Real.pi ∧ back.trace = cut.trace ∧
        back.cutSamples settings = (cut.cutSamples settings).reverse) ∧
      (|offset| ≤ centerSlack radius → cut.trace ∪ back.trace = Point.circle center radius ∧
        cut.trace ∩ back.trace = {first.point, second.point}) := by
  intro cut back offset
  have hback : Hit.ofLine settings q p center radius = [second, first] := by
    rw [Hit.ofLine_swap, hhits]
    rfl
  obtain ⟨hfirst, hsecond, hsecant⟩ := Hit.secant_of_ofLine_pair hr hhits
  obtain ⟨-, -, hsecant'⟩ := Hit.secant_of_ofLine_pair hr hback
  have hcut := trace_circleArc hsecant
  have hcut' := trace_circleArc hsecant'
  refine ⟨?_, ?_, ?_, ?_, ?_, ?_, ?_⟩
  · simp only [circle?, hhits]
    rfl
  · simp only [circle?, hback]
    rfl
  · rw [← hfirst]
    exact Angle.head?_sampleSweep center radius _ _ _
  · rw [← hsecond, Angle.onCircle_congr (coe_stop hsecant)]
    exact Angle.getLast?_sampleSweep center radius _ _ _
  · intro x hx
    have hmem := Arc.mem_trace_of_mem_sample hx
    rwa [hcut] at hmem
  · intro haway
    refine ⟨abs_sweep_circleArc_le hsecant haway, trace_circleArc_swap hsecant hsecant' haway, ?_⟩
    have hsweep := sweep_circleArc_swap hsecant hsecant' haway
    rw [Arc.cutSamples, Arc.cutSamples, hsweep, Settings.intervals_neg, Arc.sample, hsweep]
    exact Angle.sampleSweep_flip center radius _ (coe_stop hsecant)
  · intro hnext
    obtain ⟨hunion, hinter⟩ := trace_circleArc_complement hsecant hsecant' hnext
    have hcrossings := hsecant.crossings
    have hend : Angle.onCircle center radius
        (first.angle + Angle.ccwSweep first.angle second.angle) = second.point := by
      rw [Angle.onCircle_add_ccwSweep, hsecond]
    rw [hfirst, hend] at hcrossings
    exact ⟨hunion, hinter.trans hcrossings⟩

theorem ofLine_right_left : Hit.ofLine Settings.default ⟨5, 0⟩ ⟨-5, 0⟩ (⟨0, 0⟩ : Point ℝ) 5 =
    [⟨⟨5, 0⟩, 0⟩, ⟨⟨-5, 0⟩, Real.pi⟩] := by
  have hpi := Real.pi_pos
  have hline : Hit.ofLine Settings.default (Angle.onCircle ⟨0, 0⟩ 5 0)
      (Angle.onCircle ⟨0, 0⟩ 5 Real.pi) (⟨0, 0⟩ : Point ℝ) 5 =
        [⟨Angle.onCircle ⟨0, 0⟩ 5 0, 0⟩, ⟨Angle.onCircle ⟨0, 0⟩ 5 Real.pi, Real.pi⟩] := by
    apply Hit.ofLine_onCircle (by norm_num) ⟨by linarith, hpi.le⟩ ⟨by linarith, le_rfl⟩
    · simp only [Settings.default, Scalar.real_decimal]
      norm_num
    · simp only [Settings.default, Scalar.real_decimal, sub_zero, Real.cos_pi]
      norm_num
  rwa [onCircle_quarters.1, onCircle_quarters.2.2] at hline

theorem centerSlack_five_lt : centerSlack 5 < 3 := by
  rw [centerSlack, max_eq_left (by norm_num)]
  norm_num

theorem centerOffset_right_top : 3 < centerOffset ⟨5, 0⟩ ⟨0, 5⟩ ⟨0, 0⟩ := by
  have hcross : Point.cross ⟨5, 0⟩ ⟨0, 5⟩ (⟨0, 0⟩ : Point ℝ) = 25 := by
    rw [Point.cross_eq]
    norm_num
  have hdot : ((⟨0, 5⟩ : Point ℝ) - ⟨5, 0⟩).dot (⟨0, 5⟩ - ⟨5, 0⟩) = 50 := by
    rw [Point.dot_self]
    norm_num [Point.sub_x, Point.sub_y]
  have hnorm : ((⟨0, 5⟩ : Point ℝ) - ⟨5, 0⟩).norm = Real.sqrt 50 := congrArg Real.sqrt hdot
  have hroot : Real.sqrt 50 < 8 := by
    rw [Real.sqrt_lt' (by norm_num)]
    norm_num
  rw [centerOffset, hcross, hnorm, lt_div_iff₀ (Real.sqrt_pos.mpr (by norm_num))]
  linarith

theorem centerOffset_right_left : centerOffset ⟨5, 0⟩ ⟨-5, 0⟩ ⟨0, 0⟩ = 0 := by
  have hcross : Point.cross ⟨5, 0⟩ ⟨-5, 0⟩ (⟨0, 0⟩ : Point ℝ) = 0 := by
    rw [Point.cross_eq]
    norm_num
  rw [centerOffset, hcross, zero_div]

/-- The line from `(5, 0)` to `(0, 5)` has the center clearly on the left and cuts off the quarter
on its right; the one from `(5, 0)` to `(-5, 0)` passes through the center, and the two directions
cut off two halves. -/
theorem circle?_takes_quarter_and_halves :
    let settings : Settings ℝ := Settings.default
    let center : Point ℝ := ⟨0, 0⟩
    let quarter := circleArc ⟨5, 0⟩ ⟨0, 5⟩ center 5 0 (Real.pi / 2)
    let upper := circleArc ⟨5, 0⟩ ⟨-5, 0⟩ center 5 0 Real.pi
    let lower := circleArc ⟨-5, 0⟩ ⟨5, 0⟩ center 5 Real.pi 0
    (0 : ℝ) < 5 ∧
      Hit.ofLine settings ⟨5, 0⟩ ⟨0, 5⟩ center 5 = [⟨⟨5, 0⟩, 0⟩, ⟨⟨0, 5⟩, Real.pi / 2⟩] ∧
      circle? settings center 5 ⟨5, 0⟩ ⟨0, 5⟩ = Region.ofPoints? (quarter.cutSamples settings) ∧
      (quarter.cutSamples settings).head? = some ⟨5, 0⟩ ∧
      (quarter.cutSamples settings).getLast? = some ⟨0, 5⟩ ∧
      (∀ x ∈ quarter.cutSamples settings, x ∈ Point.circle center 5 ∧
        Point.cross ⟨5, 0⟩ ⟨0, 5⟩ x ≤ 0) ∧
      |quarter.sweep| ≤ Real.pi ∧
      Hit.ofLine settings ⟨5, 0⟩ ⟨-5, 0⟩ center 5 = [⟨⟨5, 0⟩, 0⟩, ⟨⟨-5, 0⟩, Real.pi⟩] ∧
      upper.trace ∪ lower.trace = Point.circle center 5 ∧
      upper.trace ∩ lower.trace = {⟨5, 0⟩, ⟨-5, 0⟩} := by
  intro settings center quarter upper lower
  have hr : (0 : ℝ) < 5 := by norm_num
  have hbeyond : centerSlack 5 < centerOffset ⟨5, 0⟩ ⟨0, 5⟩ ⟨0, 0⟩ :=
    centerSlack_five_lt.trans centerOffset_right_top
  obtain ⟨hcut, -, hhead, hlast, hside, haway, -⟩ := circle?_takes_side hr ofLine_right_top
  obtain ⟨-, -, -, -, -, -, hnext⟩ := circle?_takes_side hr ofLine_right_left
  rw [centerOffset_right_left, abs_zero] at hnext
  simp only [if_pos hbeyond] at hside
  obtain ⟨hlength, -⟩ := haway (hbeyond.trans_le (le_abs_self _))
  exact ⟨hr, ofLine_right_top, hcut, hhead, hlast, hside, hlength, ofLine_right_left,
    hnext (centerSlack_nonneg 5)⟩

end Cut

end PlanarArea
