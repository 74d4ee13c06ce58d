import PlanarArea.Proofs.Circle.Reversal

/-!
# Minor and major arcs

From one direction to another an arc turns counter-clockwise by the sweep between them or clockwise
by what is left of a full turn. A minor arc takes the shorter of these ways and a major arc the
longer one, so together they are the circle, apart but for their ends. The arc between the same
points in the other order is the same one, traced backwards. Between opposite directions both ways
are half a turn, and every arc takes the counter-clockwise one.
-/
namespace PlanarArea.Arc

/-- The directions from the center to the points of an arc. -/
def directions (arc : Arc ℝ) : Set Real.Angle :=
  (fun angle : ℝ => (angle : Real.Angle)) '' arc.angles

theorem mem_directions_iff {arc : Arc ℝ} {angle : Real.Angle} :
    angle ∈ arc.directions ↔
      ∃ u ∈ Set.uIcc 0 arc.sweep, angle = ((arc.start + u : ℝ) : Real.Angle) := by
  have hangles : arc.angles = (fun u => arc.start + u) '' Set.uIcc 0 arc.sweep := by
    rw [Set.image_const_add_uIcc, add_zero, angles]
  rw [directions, hangles, Set.image_image]
  simp only [Set.mem_image, eq_comm]

section Ways

variable {start stop : ℝ}

theorem sweepBetween_minor (start stop : ℝ) :
    sweepBetween start stop false =
      if Real.pi < Angle.ccwSweep start stop then Angle.ccwSweep start stop - 2 * Real.pi
      else Angle.ccwSweep start stop := by
  simp only [sweepBetween, Bool.false_eq_true, if_false, Angle.turn_eq, Scalar.real_lt,
    Scalar.real_pi, Scalar.real_sub, neg_sub]

theorem sweepBetween_major (start stop : ℝ) :
    sweepBetween start stop true =
      if Angle.ccwSweep start stop < Real.pi then Angle.ccwSweep start stop - 2 * Real.pi
      else Angle.ccwSweep start stop := by
  simp only [sweepBetween, if_true, Angle.turn_eq, Scalar.real_lt, Scalar.real_pi,
    Scalar.real_sub, neg_sub]

/-- Either kind of arc ends in the direction of the second point. -/
theorem coe_start_add_sweepBetween (start stop : ℝ) (major : Bool) :
    ((start + sweepBetween start stop major : ℝ) : Real.Angle) = stop := by
  have hways : ((sweepBetween start stop major : ℝ) : Real.Angle) =
      ((Angle.ccwSweep start stop : ℝ) : Real.Angle) := by
    cases major with
    | false =>
      rw [sweepBetween_minor]
      split <;> simp
    | true =>
      rw [sweepBetween_major]
      split <;> simp
  rw [Real.Angle.coe_add, hways, Angle.coe_ccwSweep, add_sub_cancel]

theorem abs_sweepBetween_minor_le (start stop : ℝ) :
    |sweepBetween start stop false| ≤ Real.pi := by
  have hlow := Angle.ccwSweep_nonneg start stop
  have hhigh := Angle.ccwSweep_lt start stop
  rw [sweepBetween_minor, abs_le]
  split <;> constructor <;> linarith

theorem pi_le_abs_sweepBetween_major (start stop : ℝ) :
    Real.pi ≤ |sweepBetween start stop true| := by
  have hlow := Angle.ccwSweep_nonneg start stop
  rw [sweepBetween_major, le_abs]
  split
  · exact .inr (by linarith)
  · exact .inl (by linarith)

/-- Unless the directions are opposite, one kind of arc turns counter-clockwise and the other
clockwise. -/
theorem sweepBetween_ways (h : Angle.ccwSweep start stop ≠ Real.pi) :
    (sweepBetween start stop false = Angle.ccwSweep start stop ∧
        sweepBetween start stop true = Angle.ccwSweep start stop - 2 * Real.pi) ∨
      (sweepBetween start stop false = Angle.ccwSweep start stop - 2 * Real.pi ∧
        sweepBetween start stop true = Angle.ccwSweep start stop) := by
  rw [sweepBetween_minor, sweepBetween_major]
  cases lt_or_gt_of_ne h with
  | inl hlt => exact .inl ⟨if_neg hlt.not_gt, if_pos hlt⟩
  | inr hgt => exact .inr ⟨if_pos hgt, if_neg hgt.not_gt⟩

/-- Between other directions, the way back is the same way. -/
theorem sweepBetween_swap (hzero : Angle.ccwSweep start stop ≠ 0)
    (hpi : Angle.ccwSweep start stop ≠ Real.pi) (major : Bool) :
    sweepBetween stop start major = -sweepBetween start stop major := by
  have hback := Angle.ccwSweep_swap ((Angle.ccwSweep_nonneg start stop).lt_of_ne' hzero)
  cases major with
  | false =>
    rw [sweepBetween_minor, sweepBetween_minor, hback]
    cases lt_or_gt_of_ne hpi with
    | inl hlt =>
      rw [if_pos (by linarith), if_neg hlt.not_gt]
      ring
    | inr hgt =>
      rw [if_neg (by linarith), if_pos hgt]
      ring
  | true =>
    rw [sweepBetween_major, sweepBetween_major, hback]
    cases lt_or_gt_of_ne hpi with
    | inl hlt =>
      rw [if_neg (by linarith), if_pos hlt]
      ring
    | inr hgt =>
      rw [if_pos (by linarith), if_neg hgt.not_gt]
      ring

end Ways

/-- The two ways from a direction to another one are the whole circle and meet in the two
directions. -/
theorem directions_both_ways {ccw clockwise : Arc ℝ} (hstart : clockwise.start = ccw.start)
    (hsweep : clockwise.sweep = ccw.sweep - 2 * Real.pi) (hlow : 0 ≤ ccw.sweep)
    (hhigh : ccw.sweep ≤ 2 * Real.pi) :
    ccw.directions ∪ clockwise.directions = Set.univ ∧
      ccw.directions ∩ clockwise.directions =
        {(ccw.start : Real.Angle), ((ccw.start + ccw.sweep : ℝ) : Real.Angle)} := by
  have hccw : ∀ angle : Real.Angle, angle ∈ ccw.directions ↔
      ∃ u, 0 ≤ u ∧ u ≤ ccw.sweep ∧ angle = ((ccw.start + u : ℝ) : Real.Angle) := by
    intro angle
    rw [mem_directions_iff, Set.uIcc_of_le hlow]
    simp only [Set.mem_Icc, and_assoc]
  have hclockwise : ∀ angle : Real.Angle, angle ∈ clockwise.directions ↔
      ∃ u, ccw.sweep - 2 * Real.pi ≤ u ∧ u ≤ 0 ∧
        angle = ((ccw.start + u : ℝ) : Real.Angle) := by
    intro angle
    rw [mem_directions_iff, hstart, hsweep, Set.uIcc_of_ge (by linarith)]
    simp only [Set.mem_Icc, and_assoc]
  constructor
  · ext angle
    simp only [Set.mem_univ, iff_true, Set.mem_union, hccw, hclockwise]
    induction angle using Real.Angle.induction_on with
    | _ x =>
      have hcoe : (x : Real.Angle) =
          ((ccw.start + Angle.ccwSweep ccw.start x : ℝ) : Real.Angle) := by
        rw [Real.Angle.coe_add, Angle.coe_ccwSweep, add_sub_cancel]
      have hnonneg := Angle.ccwSweep_nonneg ccw.start x
      have hlt := Angle.ccwSweep_lt ccw.start x
      cases le_or_gt (Angle.ccwSweep ccw.start x) ccw.sweep with
      | inl hle => exact .inl ⟨_, hnonneg, hle, hcoe⟩
      | inr hgt =>
        refine .inr ⟨Angle.ccwSweep ccw.start x - 2 * Real.pi, by linarith, by linarith, ?_⟩
        rw [hcoe, ← add_sub_assoc, Real.Angle.coe_sub, Real.Angle.coe_two_pi, sub_zero]
  · ext angle
    simp only [Set.mem_inter_iff, hccw, hclockwise, Set.mem_insert_iff, Set.mem_singleton_iff]
    constructor
    · rintro ⟨⟨u, hu, hu', rfl⟩, v, hv, hv', heq⟩
      -- The two turns differ by nothing or by one full turn.
      rw [Real.Angle.angle_eq_iff_two_pi_dvd_sub] at heq
      obtain ⟨k, hk⟩ := heq
      have hpi := Real.pi_pos
      have hk0 : (0 : ℝ) ≤ k := by nlinarith
      have hk1 : (k : ℝ) ≤ 1 := by nlinarith
      have hk : k = 0 ∨ k = 1 := by
        have h0 : 0 ≤ k := by exact_mod_cast hk0
        have h1 : k ≤ 1 := by exact_mod_cast hk1
        omega
      obtain rfl | rfl := hk
      · left
        have hzero : u = 0 := by
          push_cast at *
          linarith
        rw [hzero, add_zero]
      · right
        have hend : u = ccw.sweep := by
          push_cast at *
          linarith
        rw [hend]
    · rintro (rfl | rfl)
      · exact ⟨⟨0, le_rfl, hlow, by rw [add_zero]⟩, 0, by linarith, le_rfl, by rw [add_zero]⟩
      · refine ⟨⟨ccw.sweep, hlow, le_rfl, rfl⟩, ccw.sweep - 2 * Real.pi, le_rfl, by linarith, ?_⟩
        rw [← add_sub_assoc, Real.Angle.coe_sub, Real.Angle.coe_two_pi, sub_zero]

/-- Sizes and senses of the two ways. -/
theorem sweeps_both_ways {ccw clockwise : Arc ℝ}
    (hsweep : clockwise.sweep = ccw.sweep - 2 * Real.pi) (hlow : 0 ≤ ccw.sweep)
    (hhigh : ccw.sweep < 2 * Real.pi) :
    |ccw.sweep| + |clockwise.sweep| = 2 * Real.pi ∧
      (ccw.sweep ≠ 0 → ccw.sweep * clockwise.sweep < 0) := by
  rw [hsweep, abs_of_nonneg hlow, abs_of_neg (by linarith)]
  refine ⟨by ring, fun hzero => ?_⟩
  exact mul_neg_of_pos_of_neg (hlow.lt_of_ne' hzero) (by linarith)

/-- An arc between two points starts in the direction of the first one and ends in that of the
second one. A minor arc sweeps half a turn at most, and a major arc from half a turn to a full one.
Unless the directions are opposite, the two sweeps make up a full turn, in opposite senses if the
directions differ, and the two arcs are the whole circle and meet in their ends only. If the
directions neither agree nor are opposite, the arc between the points in the other order is the same
arc backwards. -/
theorem ofEndpoints_minor_major (center : Point ℝ) (radius : ℝ) (p q : Point ℝ) :
    let start := Angle.about center p
    let stop := Angle.about center q
    let arc := ofEndpoints center radius p q
    (∀ major, (arc major).start = start ∧
      (((arc major).start + (arc major).sweep : ℝ) : Real.Angle) = stop) ∧
      (|(arc false).sweep| ≤ Real.pi ∧ Real.pi ≤ |(arc true).sweep| ∧
        |(arc true).sweep| ≤ 2 * Real.pi) ∧
      (Angle.ccwSweep start stop ≠ Real.pi →
        |(arc false).sweep| + |(arc true).sweep| = 2 * Real.pi ∧
        (Angle.ccwSweep start stop ≠ 0 → (arc false).sweep * (arc true).sweep < 0) ∧
        (arc false).directions ∪ (arc true).directions = Set.univ ∧
        (arc false).directions ∩ (arc true).directions =
          {(start : Real.Angle), (stop : Real.Angle)}) ∧
      (Angle.ccwSweep start stop ≠ 0 → Angle.ccwSweep start stop ≠ Real.pi → ∀ major,
        let back := ofEndpoints center radius q p major
        back.sweep = -(arc major).sweep ∧ back.trace = (arc major).trace ∧
          ∀ intervals, back.sample intervals = ((arc major).sample intervals).reverse) := by
  intro start stop arc
  have hnonneg := Angle.ccwSweep_nonneg start stop
  have hlt := Angle.ccwSweep_lt start stop
  have hstop : ∀ major, (((arc major).start + (arc major).sweep : ℝ) : Real.Angle) = stop :=
    coe_start_add_sweepBetween start stop
  have hways : ∀ {one other}, (arc one).sweep = Angle.ccwSweep start stop →
      (arc other).sweep = Angle.ccwSweep start stop - 2 * Real.pi →
      (|(arc one).sweep| + |(arc other).sweep| = 2 * Real.pi ∧
        ((arc one).sweep ≠ 0 → (arc one).sweep * (arc other).sweep < 0)) ∧
      (arc one).directions ∪ (arc other).directions = Set.univ ∧
      (arc one).directions ∩ (arc other).directions =
        {(start : Real.Angle), (stop : Real.Angle)} := by
    intro one other hone hother
    rw [← hone] at hnonneg hlt hother
    have hdirections := @directions_both_ways (arc one) (arc other) rfl hother hnonneg hlt.le
    rw [hstop] at hdirections
    exact ⟨@sweeps_both_ways (arc one) (arc other) hother hnonneg hlt, hdirections⟩
  refine ⟨fun major => ⟨rfl, hstop major⟩, ⟨abs_sweepBetween_minor_le start stop,
    pi_le_abs_sweepBetween_major start stop, abs_sweepBetween_le start stop true⟩, ?_, ?_⟩
  · intro hpi
    obtain ⟨hminor, hmajor⟩ | ⟨hminor, hmajor⟩ := sweepBetween_ways hpi
    · obtain ⟨⟨hsizes, hsenses⟩, hunion, hinter⟩ := @hways false true hminor hmajor
      exact ⟨hsizes, fun hzero => hsenses (hminor.trans_ne hzero), hunion, hinter⟩
    · obtain ⟨⟨hsizes, hsenses⟩, hunion, hinter⟩ := @hways true false hmajor hminor
      rw [add_comm] at hsizes
      rw [mul_comm] at hsenses
      rw [Set.union_comm] at hunion
      rw [Set.inter_comm] at hinter
      exact ⟨hsizes, fun hzero => hsenses (hmajor.trans_ne hzero), hunion, hinter⟩
  · intro hzero hpi major back
    have hsweep : back.sweep = -(arc major).sweep := sweepBetween_swap hzero hpi major
    have hstart : (back.start : Real.Angle) =
        (((arc major).start + (arc major).sweep : ℝ) : Real.Angle) := (hstop major).symm
    refine ⟨hsweep, ?_, ?_⟩
    · rw [trace, angles, hsweep]
      exact Angle.image_uIcc_flip center radius hstart
    · intro intervals
      rw [sample, hsweep]
      exact Angle.sampleSweep_flip center radius intervals hstart

/-- The arcs between the ends of a quarter of a circle. -/
theorem ofEndpoints_minor_major_quarter :
    let start := Angle.about (⟨0, 0⟩ : Point ℝ) ⟨5, 0⟩
    let stop := Angle.about (⟨0, 0⟩ : Point ℝ) ⟨0, 5⟩
    let arc := ofEndpoints (⟨0, 0⟩ : Point ℝ) 5 ⟨5, 0⟩ ⟨0, 5⟩
    (Angle.ccwSweep start stop ≠ 0 ∧ Angle.ccwSweep start stop ≠ Real.pi) ∧
      (arc false).sweep = Real.pi / 2 ∧ (arc true).sweep = -(3 * Real.pi / 2) ∧
      (ofEndpoints (⟨0, 0⟩ : Point ℝ) 5 ⟨0, 5⟩ ⟨5, 0⟩ true).sweep = 3 * Real.pi / 2 := by
  intro start stop arc
  have hpi := Real.pi_pos
  have hright : start = 0 := by
    rw [show start = Angle.about ⟨0, 0⟩ ⟨5, 0⟩ from rfl, ← Cut.onCircle_quarters.1]
    exact Angle.about_onCircle (by norm_num) ⟨by linarith, hpi.le⟩
  have htop : stop = Real.pi / 2 := by
    rw [show stop = Angle.about ⟨0, 0⟩ ⟨0, 5⟩ from rfl, ← Cut.onCircle_quarters.2.1]
    exact Angle.about_onCircle (by norm_num) ⟨by linarith, by linarith⟩
  have hccw : Angle.ccwSweep start stop = Real.pi / 2 := by
    apply Angle.ccwSweep_eq_of_coe (by linarith) (by linarith)
    rw [hright, htop, Real.Angle.coe_zero, sub_zero]
  have hzero : Angle.ccwSweep start stop ≠ 0 := by rw [hccw]; positivity
  have hhalf : Angle.ccwSweep start stop ≠ Real.pi := by rw [hccw]; linarith
  have hminor : (arc false).sweep = Real.pi / 2 := by
    rw [show (arc false).sweep = _ from sweepBetween_minor start stop, hccw, if_neg (by linarith)]
  obtain ⟨-, -, hways, hback⟩ := ofEndpoints_minor_major ⟨0, 0⟩ 5 ⟨5, 0⟩ ⟨0, 5⟩
  obtain ⟨hsizes, hsenses, -, -⟩ := hways hhalf
  have hmajor : (arc true).sweep = -(3 * Real.pi / 2) := by
    have hneg : (arc true).sweep < 0 := by
      refine (pos_iff_neg_of_mul_neg (hsenses hzero)).mp ?_
      exact hminor ▸ (by linarith : 0 < Real.pi / 2)
    change |(arc false).sweep| + |(arc true).sweep| = 2 * Real.pi at hsizes
    rw [hminor, abs_of_pos (by linarith), abs_of_neg hneg] at hsizes
    linarith
  refine ⟨⟨hzero, hhalf⟩, hminor, hmajor, ?_⟩
  rw [(hback hzero hhalf true).1]
  change -(arc true).sweep = _
  rw [hmajor, neg_neg]

end PlanarArea.Arc
