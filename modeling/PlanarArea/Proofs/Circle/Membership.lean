import PlanarArea.Proofs.Circle.Offset

/-!
# The slack of a membership test

A direction is tested by the angle that leads to it from the start of the arc, turning the way the
arc turns. This angle is compared with the sweep at the far end only. So the slack counts beyond the
end of an arc and not before its start, and the start itself, when it is given as an angle that lies
whole turns ahead, is measured as a full turn. In all other cases the test is the one with the slack
at both ends.
-/
namespace PlanarArea.Arc

/-- The sign of the sweep: the way in which the arc turns. -/
noncomputable def heading (arc : Arc ℝ) : ℝ :=
  if 0 ≤ arc.sweep then 1 else -1

/-- Turning from the start the way the arc turns, the direction is reached within the sweep and the
slack. No turning at all counts only if the angle does not lie ahead of the start. -/
def Reaches (arc : Arc ℝ) (slack angle : ℝ) : Prop :=
  ∃ u, (angle : Real.Angle) = ((arc.start + arc.heading * u : ℝ) : Real.Angle) ∧ 0 ≤ u ∧
    u ≤ |arc.sweep| + slack ∧ (u = 0 → arc.heading * (angle - arc.start) ≤ 0)

/-- The direction lies before the start by at most the slack, or it is the start given as an angle
ahead of it, and the arc ends with its slack before it comes round to the direction. -/
def Misses (arc : Arc ℝ) (slack angle : ℝ) : Prop :=
  ∃ v, (angle : Real.Angle) = ((arc.start - arc.heading * v : ℝ) : Real.Angle) ∧ 0 ≤ v ∧
    v ≤ slack ∧ |arc.sweep| + slack + v < 2 * Real.pi ∧
    (v = 0 → 0 < arc.heading * (angle - arc.start))

variable {arc : Arc ℝ} {angle slack : ℝ}

theorem heading_of_nonneg (h : 0 ≤ arc.sweep) : arc.heading = 1 := if_pos h

theorem heading_of_neg (h : arc.sweep < 0) : arc.heading = -1 := if_neg (not_le.mpr h)

/-- Either way of turning comes back to the same direction after whole turns. -/
theorem coe_heading_mul_eq_iff {u v : ℝ} :
    ((arc.start + arc.heading * u : ℝ) : Real.Angle) =
        ((arc.start + arc.heading * v : ℝ) : Real.Angle) ↔
      ∃ k : ℤ, u = v + 2 * Real.pi * k := by
  rw [Real.Angle.angle_eq_iff_two_pi_dvd_sub]
  cases lt_or_ge arc.sweep 0 with
  | inl h =>
    rw [heading_of_neg h]
    constructor
    · rintro ⟨k, hk⟩
      refine ⟨-k, ?_⟩
      push_cast
      linarith
    · rintro ⟨k, hk⟩
      refine ⟨-k, ?_⟩
      push_cast
      linarith
  | inr h =>
    rw [heading_of_nonneg h]
    constructor
    · rintro ⟨k, hk⟩
      exact ⟨k, by linarith⟩
    · rintro ⟨k, hk⟩
      exact ⟨k, by linarith⟩

/-- What the membership test measures, for either way of turning: an angle in `[0, 2π]`, which is
zero or a full turn only for the start. -/
theorem exists_contains_iff (arc : Arc ℝ) (angle slack : ℝ) :
    ∃ r, 0 ≤ r ∧ r ≤ 2 * Real.pi ∧
      (angle : Real.Angle) = ((arc.start + arc.heading * r : ℝ) : Real.Angle) ∧
      (r = 0 → arc.heading * (angle - arc.start) ≤ 0) ∧
      (r = 2 * Real.pi → 0 < arc.heading * (angle - arc.start)) ∧
      (arc.contains angle slack = true ↔ r ≤ |arc.sweep| + slack) := by
  cases lt_or_ge arc.sweep 0 with
  | inl h =>
    obtain ⟨r, hturn, hneg, hcoe, hzero, hfull, hiff⟩ := exists_contains_iff_of_neg h angle slack
    rw [heading_of_neg h, abs_of_neg h]
    refine ⟨-r, neg_nonneg.mpr hneg, neg_le.mp hturn, ?_, ?_, ?_, ?_⟩
    · rw [neg_one_mul, neg_neg, Real.Angle.coe_add, hcoe, add_sub_cancel]
    · intro hr
      linarith [hzero (neg_eq_zero.mp hr)]
    · intro hr
      linarith [hfull (neg_eq_iff_eq_neg.mp hr)]
    · rw [hiff]
      constructor <;> intro h <;> linarith
  | inr h =>
    obtain ⟨r, hnonneg, hturn, hcoe, hzero, hfull, hiff⟩ :=
      exists_contains_iff_of_nonneg h angle slack
    rw [heading_of_nonneg h, abs_of_nonneg h]
    refine ⟨r, hnonneg, hturn, ?_, ?_, ?_, hiff⟩
    · rw [one_mul, Real.Angle.coe_add, hcoe, add_sub_cancel]
    · intro hr
      linarith [hzero hr]
    · intro hr
      linarith [hfull hr]

/-- The slack at both ends, in terms of the way in which the arc turns. -/
theorem covers_iff :
    arc.Covers slack angle ↔
      ∃ u, (angle : Real.Angle) = ((arc.start + arc.heading * u : ℝ) : Real.Angle) ∧
        -slack ≤ u ∧ u ≤ |arc.sweep| + slack := by
  cases lt_or_ge arc.sweep 0 with
  | inl h =>
    rw [Covers, heading_of_neg h, abs_of_neg h, min_eq_right h.le, max_eq_left h.le]
    constructor
    · rintro ⟨u, hu, hlow, hhigh⟩
      exact ⟨-u, by rwa [neg_one_mul, neg_neg], by linarith, by linarith⟩
    · rintro ⟨u, hu, hlow, hhigh⟩
      exact ⟨-u, by rwa [neg_one_mul] at hu, by linarith, by linarith⟩
  | inr h =>
    rw [Covers, heading_of_nonneg h, abs_of_nonneg h, min_eq_left h, max_eq_right h]
    simp only [one_mul, zero_sub]

/-- The membership test finds the directions that the arc reaches. -/
theorem contains_iff_reaches : arc.contains angle slack = true ↔ arc.Reaches slack angle := by
  obtain ⟨r, hnonneg, hturn, hcoe, hzero, hfull, hiff⟩ := exists_contains_iff arc angle slack
  rw [hiff]
  constructor
  · exact fun hr => ⟨r, hcoe, hnonneg, hr, hzero⟩
  · rintro ⟨u, hu, hpos, hle, hstart⟩
    by_contra hlt
    rw [not_le] at hlt
    rw [hcoe, coe_heading_mul_eq_iff] at hu
    obtain ⟨k, hk⟩ := hu
    -- A shorter way than the measured one can only be no turn instead of a full one.
    have hpi := Real.pi_pos
    have hk0 : (0 : ℝ) < k := by nlinarith
    have hk1 : (1 : ℝ) ≤ k := by exact_mod_cast Int.cast_pos.mp hk0
    have hr : r = 2 * Real.pi := by nlinarith
    have hu0 : u = 0 := by nlinarith
    linarith [hstart hu0, hfull hr]

theorem covers_of_contains (hslack : 0 ≤ slack) (h : arc.contains angle slack = true) :
    arc.Covers slack angle := by
  obtain ⟨u, hu, hpos, hle, -⟩ := contains_iff_reaches.mp h
  exact covers_iff.mpr ⟨u, hu, by linarith, hle⟩

/-- What lies within the slack of an arc and is not found is missed at the start. -/
theorem misses_iff :
    arc.Misses slack angle ↔ arc.Covers slack angle ∧ ¬ arc.contains angle slack = true := by
  obtain ⟨r, hnonneg, hturn, hcoe, hzero, hfull, hiff⟩ := exists_contains_iff arc angle slack
  have hpi := Real.pi_pos
  rw [hiff, covers_iff, not_le]
  constructor
  · rintro ⟨v, hv, hpos, hle, hend, hstart⟩
    rw [sub_eq_add_neg, ← mul_neg] at hv
    refine ⟨⟨-v, hv, neg_le_neg hle, by linarith [abs_nonneg arc.sweep]⟩, ?_⟩
    by_contra hr
    rw [not_lt] at hr
    rw [hv, coe_heading_mul_eq_iff] at hcoe
    obtain ⟨k, hk⟩ := hcoe
    have hk0 : (0 : ℝ) ≤ k := by
      by_contra hneg
      have hk1 : (k : ℝ) ≤ -1 := by
        have : k < 0 := by exact_mod_cast not_le.mp hneg
        exact_mod_cast (by omega : k ≤ -1)
      nlinarith
    have hv0 : v = 0 := by nlinarith
    have hr0 : r = 0 := by nlinarith
    linarith [hstart hv0, hzero hr0]
  · rintro ⟨⟨u, hu, hlow, hhigh⟩, hr⟩
    rw [hcoe, coe_heading_mul_eq_iff] at hu
    obtain ⟨k, hk⟩ := hu
    have hk1 : (1 : ℝ) ≤ k := by
      have hk0 : (0 : ℝ) < k := by nlinarith
      exact_mod_cast Int.cast_pos.mp hk0
    refine ⟨2 * Real.pi - r, ?_, by linarith, by nlinarith, by linarith, ?_⟩
    · rw [hcoe, sub_eq_add_neg, ← mul_neg, coe_heading_mul_eq_iff]
      exact ⟨1, by push_cast; ring⟩
    · exact fun hv => hfull (by linarith)

/-- The membership test finds exactly the directions that the arc reaches. For all directions but
those that it misses at the start this is the test with the slack at both ends, in which whole turns
make no difference. -/
theorem contains_slack_beyond_end (hslack : 0 ≤ slack) :
    (arc.contains angle slack = true ↔ arc.Reaches slack angle) ∧
      ((arc.contains angle slack = true ↔ arc.Covers slack angle) ↔ ¬ arc.Misses slack angle) := by
  refine ⟨contains_iff_reaches, ?_⟩
  rw [misses_iff]
  constructor
  · rintro hiff ⟨hcovers, hnot⟩
    exact hnot (hiff.mpr hcovers)
  · intro hfound
    refine ⟨covers_of_contains hslack, fun hcovers => ?_⟩
    by_contra hnot
    exact hfound ⟨hcovers, hnot⟩

/-- A direction just beyond the end of a clockwise arc, a turn off. -/
theorem contains_slack_beyond_end_clockwise :
    let arc : Arc ℝ := ⟨⟨0, 0⟩, 1, 0, -1⟩
    let angle : ℝ := 2 * Real.pi - 21 / 20
    (0 : ℝ) ≤ 1 / 10 ∧ arc.contains angle (1 / 10) = true ∧ arc.Covers (1 / 10) angle := by
  intro arc angle
  have hslack : (0 : ℝ) ≤ 1 / 10 := by norm_num
  have hneg : arc.sweep < 0 := neg_one_lt_zero
  have hpi := Real.two_le_pi
  have hangle : (angle : Real.Angle) =
      ((arc.start + arc.heading * (21 / 20) : ℝ) : Real.Angle) := by
    rw [heading_of_neg hneg, Real.Angle.angle_eq_iff_two_pi_dvd_sub]
    exact ⟨1, by simp only [angle, arc]; push_cast; ring⟩
  have hreaches : arc.Reaches (1 / 10) angle := by
    refine ⟨21 / 20, hangle, by norm_num, ?_, by norm_num⟩
    rw [abs_of_neg hneg]
    norm_num [arc]
  have hfound : ¬ arc.Misses (1 / 10) angle := by
    rintro ⟨v, hv, hpos, hle, -, -⟩
    rw [hangle, sub_eq_add_neg, ← mul_neg, coe_heading_mul_eq_iff] at hv
    obtain ⟨k, hk⟩ := hv
    have hk0 : (0 : ℝ) < k := by nlinarith
    have hk1 : (1 : ℝ) ≤ k := by exact_mod_cast Int.cast_pos.mp hk0
    nlinarith
  obtain ⟨hiff, hends⟩ := @contains_slack_beyond_end arc angle (1 / 10) hslack
  have hcontains := hiff.mpr hreaches
  exact ⟨hslack, hcontains, (hends.mpr hfound).mp hcontains⟩

/-- The test misses a direction before the start of an arc, though within the slack, and without any
slack the start itself a full turn ahead. -/
theorem contains_misses_before_start :
    let arc : Arc ℝ := ⟨⟨0, 0⟩, 1, 0, 1⟩
    |arc.sweep| ≤ 2 * Real.pi ∧
      (arc.Covers (1 / 10) (-1 / 20) ∧ ¬ arc.contains (-1 / 20) (1 / 10) = true) ∧
      (arc.Covers 0 (2 * Real.pi) ∧ ¬ arc.contains (2 * Real.pi) 0 = true) := by
  intro arc
  have hnonneg : 0 ≤ arc.sweep := zero_le_one
  have hpi := Real.two_le_pi
  have hsweep : |arc.sweep| = 1 := abs_one
  refine ⟨by rw [hsweep]; linarith, ?_, ?_⟩
  · apply misses_iff.mp
    refine ⟨1 / 20, ?_, by norm_num, by norm_num, by rw [hsweep]; linarith, by norm_num⟩
    rw [heading_of_nonneg hnonneg]
    norm_num [arc]
  · apply misses_iff.mp
    refine ⟨0, ?_, le_rfl, le_rfl, by rw [hsweep]; linarith, fun _ => ?_⟩
    · rw [Real.Angle.coe_two_pi, mul_zero, sub_zero]
      exact Real.Angle.coe_zero.symm
    · rw [heading_of_nonneg hnonneg]
      simp only [arc]
      linarith

end PlanarArea.Arc
