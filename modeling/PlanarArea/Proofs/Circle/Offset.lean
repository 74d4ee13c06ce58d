import PlanarArea.Circle.Arc
import PlanarArea.Proofs.Plane.Wrap

/-!
# Directions on an arc

The offset of a direction from the start of an arc is taken counter-clockwise in one turn, with the
start itself counted as a full turn. Membership in an arc is a condition on such an offset.
-/
namespace PlanarArea

namespace Arc

/-- The angles of an arc, from its start across its sweep. -/
def angles (arc : Arc ℝ) : Set ℝ :=
  Set.uIcc arc.start (arc.start + arc.sweep)

/-- The angles strictly between the ends of an arc. -/
def innerAngles (arc : Arc ℝ) : Set ℝ :=
  Set.uIoo arc.start (arc.start + arc.sweep)

/-- The direction `angle` lies on the arc, or beyond an end of it by at most `slack`. -/
def Covers (arc : Arc ℝ) (slack angle : ℝ) : Prop :=
  ∃ u, (angle : Real.Angle) = ((arc.start + u : ℝ) : Real.Angle) ∧
    min 0 arc.sweep - slack ≤ u ∧ u ≤ max 0 arc.sweep + slack

/-- The offset of a direction from the start, in `(0, 2π]`. -/
noncomputable def offset (arc : Arc ℝ) (angle : ℝ) : ℝ :=
  toIocMod Real.two_pi_pos 0 (angle - arc.start)

variable {arc : Arc ℝ} {angle slack : ℝ}

theorem offset_mem (arc : Arc ℝ) (angle : ℝ) : arc.offset angle ∈ Set.Ioc 0 (2 * Real.pi) := by
  have h := toIocMod_mem_Ioc Real.two_pi_pos 0 (angle - arc.start)
  rwa [zero_add] at h

theorem coe_offset (arc : Arc ℝ) (angle : ℝ) :
    (arc.offset angle : Real.Angle) = (angle : Real.Angle) - arc.start := by
  rw [offset, Real.Angle.coe_toIocMod, Real.Angle.coe_sub]

theorem offset_eq_of_coe {x : ℝ} (hx : 0 < x) (hle : x ≤ 2 * Real.pi)
    (h : (x : Real.Angle) = (angle : Real.Angle) - arc.start) : arc.offset angle = x := by
  rw [offset, toIocMod_eq_iff]
  refine ⟨⟨hx, by simpa using hle⟩, ?_⟩
  rw [← Real.Angle.coe_sub, eq_comm, Real.Angle.angle_eq_iff_two_pi_dvd_sub] at h
  obtain ⟨k, hk⟩ := h
  refine ⟨k, ?_⟩
  rw [zsmul_eq_mul]
  linarith

/-- Only the start has the offset of a full turn. -/
theorem offset_eq_two_pi_iff :
    arc.offset angle = 2 * Real.pi ↔ (angle : Real.Angle) = arc.start := by
  constructor
  · intro h
    have hcoe := coe_offset arc angle
    rw [h, Real.Angle.coe_two_pi, eq_comm, sub_eq_zero] at hcoe
    exact hcoe
  · intro h
    apply offset_eq_of_coe Real.two_pi_pos (le_refl _)
    rw [h, sub_self, Real.Angle.coe_two_pi]

/-- Membership in a counter-clockwise arc compares the sweep with an angle in `[0, 2π]` that leads
from the start to the direction. The start is measured as a full turn if it lies whole turns
ahead. -/
theorem exists_contains_iff_of_nonneg (hsweep : 0 ≤ arc.sweep) (angle slack : ℝ) :
    ∃ r, 0 ≤ r ∧ r ≤ 2 * Real.pi ∧ (r : Real.Angle) = (angle : Real.Angle) - arc.start ∧
      (r = 0 → angle ≤ arc.start) ∧ (r = 2 * Real.pi → arc.start < angle) ∧
      (arc.contains angle slack = true ↔ r ≤ arc.sweep + slack) := by
  obtain ⟨k, hraised, hk, hbelow⟩ := Angle.exists_wrapWhile_up Real.two_pi_pos
    (fun y hy => decide_eq_false (not_lt.mpr hy)) (angle - arc.start)
  obtain ⟨m, hlowered, hm, habove⟩ := Angle.exists_wrapWhile_down Real.two_pi_pos
    (fun y hy => decide_eq_false (not_lt.mpr (hy.trans Real.two_pi_pos.le)))
    (angle - arc.start + k * (2 * Real.pi))
  have hturn := Real.two_pi_pos
  -- A turn is taken off only from more than one, and then more than nothing is left.
  have hleft : m ≠ 0 → 0 < angle - arc.start + k * (2 * Real.pi) - m * (2 * Real.pi) := by
    intro hm0
    obtain ⟨m, rfl⟩ := Nat.exists_eq_succ_of_ne_zero hm0
    have hlast := of_decide_eq_true (habove m (Nat.lt_succ_self m))
    push_cast
    linarith
  refine ⟨angle - arc.start + k * (2 * Real.pi) - m * (2 * Real.pi), ?_, ?_, ?_, ?_, ?_, ?_⟩
  · have hnonneg := not_lt.mp (of_decide_eq_false hk)
    cases m with
    | zero => simpa using hnonneg
    | succ m => exact (hleft (Nat.succ_ne_zero m)).le
  · exact not_lt.mp (of_decide_eq_false hm)
  · rw [← Real.Angle.coe_sub, Real.Angle.angle_eq_iff_two_pi_dvd_sub]
    refine ⟨k - m, ?_⟩
    push_cast
    ring
  · intro hzero
    have hm0 : m = 0 := by
      by_contra hm0
      exact (hleft hm0).ne' hzero
    have hturns : 0 ≤ (k : ℝ) * (2 * Real.pi) := by positivity
    rw [hm0, Nat.cast_zero] at hzero
    linarith
  · intro hfull
    cases k with
    | zero =>
      have hturns : 0 ≤ (m : ℝ) * (2 * Real.pi) := by positivity
      rw [Nat.cast_zero] at hfull
      linarith
    | succ k =>
      have hlast := of_decide_eq_true (hbelow k (Nat.lt_succ_self k))
      have hm0 : m = 0 := by
        by_contra hm0
        have hfirst := of_decide_eq_true (habove 0 (Nat.pos_of_ne_zero hm0))
        push_cast at hfirst
        linarith
      rw [hm0] at hfull
      push_cast at hfull
      linarith
  · simp only [contains, Scalar.real_le, Scalar.real_lt, Scalar.real_zero, Scalar.real_add,
      Scalar.real_sub, Angle.turn_eq, if_pos hsweep, hraised, hlowered, decide_eq_true_eq]

/-- The arc reflected in the ray of angle zero. -/
def mirror (arc : Arc ℝ) : Arc ℝ :=
  ⟨arc.center, arc.radius, -arc.start, -arc.sweep⟩

/-- A clockwise arc is tested like its counter-clockwise mirror image. -/
theorem contains_mirror (hsweep : arc.sweep < 0) (angle slack : ℝ) :
    arc.mirror.contains (-angle) slack = arc.contains angle slack := by
  have hoffset : -angle - -arc.start = -(angle - arc.start) := by ring
  have hraise (turn : ℝ) : (fun y => -(-y + turn)) = fun y => y - turn := by
    funext y
    ring
  have hlower (turn : ℝ) : (fun y => -(-y - turn)) = fun y => y + turn := by
    funext y
    ring
  have hfar (turn : ℝ) : (fun y => decide (turn < -y)) = fun y => decide (y < -turn) := by
    funext y
    simp only [lt_neg]
  simp only [contains, mirror, Scalar.real_le, Scalar.real_lt, Scalar.real_zero, Scalar.real_add,
    Scalar.real_sub, Scalar.real_neg, Angle.turn_eq, if_neg (not_le.mpr hsweep),
    if_pos (neg_nonneg.mpr hsweep.le), hoffset, Angle.wrapWhile_neg, hraise, hlower, hfar,
    Left.neg_neg_iff, decide_eq_decide]
  constructor <;> intro h <;> linarith

/-- Membership in a clockwise arc, likewise with an angle in `[-2π, 0]`. -/
theorem exists_contains_iff_of_neg (hsweep : arc.sweep < 0) (angle slack : ℝ) :
    ∃ r, -(2 * Real.pi) ≤ r ∧ r ≤ 0 ∧ (r : Real.Angle) = (angle : Real.Angle) - arc.start ∧
      (r = 0 → arc.start ≤ angle) ∧ (r = -(2 * Real.pi) → angle < arc.start) ∧
      (arc.contains angle slack = true ↔ arc.sweep - slack ≤ r) := by
  have hmirror : 0 ≤ arc.mirror.sweep := neg_nonneg.mpr hsweep.le
  obtain ⟨r, hnonneg, hturn, hcoe, hzero, hfull, hiff⟩ :=
    exists_contains_iff_of_nonneg hmirror (-angle) slack
  rw [contains_mirror hsweep] at hiff
  simp only [mirror, Real.Angle.coe_neg] at hcoe hzero hfull hiff
  refine ⟨-r, neg_le_neg hturn, neg_nonpos.mpr hnonneg, ?_, ?_, ?_, ?_⟩
  · rw [Real.Angle.coe_neg, hcoe]
    abel
  · exact fun h => neg_le_neg_iff.mp (hzero (neg_eq_zero.mp h))
  · exact fun h => neg_lt_neg_iff.mp (hfull (neg_injective h))
  · rw [hiff]
    constructor <;> intro h <;> linarith

/-- Where nothing wraps, membership in a counter-clockwise arc is a comparison. -/
theorem contains_of_le (hlow : arc.start ≤ angle) (hturn : angle - arc.start ≤ 2 * Real.pi)
    (hsweep : 0 ≤ arc.sweep) (hle : angle - arc.start ≤ arc.sweep + slack) :
    arc.contains angle slack = true := by
  have hraised := Angle.wrapWhile_of_stop (2 * Real.pi) (fun y => decide (y < 0))
    (fun y => y + 2 * Real.pi) (decide_eq_false (not_lt.mpr (sub_nonneg.mpr hlow)))
  have hlowered := Angle.wrapWhile_of_stop (2 * Real.pi) (fun y => decide (2 * Real.pi < y))
    (fun y => y - 2 * Real.pi) (decide_eq_false (not_lt.mpr hturn))
  simp only [contains, Scalar.real_le, Scalar.real_lt, Scalar.real_zero, Scalar.real_add,
    Scalar.real_sub, Angle.turn_eq, if_pos hsweep, hraised, hlowered]
  exact decide_eq_true hle

/-- A direction on a counter-clockwise arc has an offset within the sweep, or it is the start. -/
theorem offset_of_contains (hsweep : 0 ≤ arc.sweep) (h : arc.contains angle slack = true) :
    (angle : Real.Angle) = arc.start ∨ arc.offset angle ≤ arc.sweep + slack := by
  obtain ⟨r, hpos, hle, hcoe, -, -, hiff⟩ := exists_contains_iff_of_nonneg hsweep angle slack
  cases hpos.eq_or_lt with
  | inl hzero =>
    rw [← hzero, Real.Angle.coe_zero, eq_comm, sub_eq_zero] at hcoe
    exact .inl hcoe
  | inr hpos =>
    rw [offset_eq_of_coe hpos hle hcoe]
    exact .inr (hiff.mp h)

/-- A direction on a clockwise arc has an offset at most the sweep before the full turn. -/
theorem offset_of_contains_of_neg (hsweep : arc.sweep < 0) (h : arc.contains angle slack = true) :
    2 * Real.pi + arc.sweep - slack ≤ arc.offset angle := by
  obtain ⟨r, hle, hneg, hcoe, -, -, hiff⟩ := exists_contains_iff_of_neg hsweep angle slack
  have hr := hiff.mp h
  cases hle.eq_or_lt with
  | inl hturn =>
    have hstart : arc.offset angle = 2 * Real.pi := by
      rw [offset_eq_two_pi_iff, ← sub_eq_zero, ← hcoe, ← hturn, Real.Angle.coe_neg,
        Real.Angle.coe_two_pi, neg_zero]
    linarith [Real.two_pi_pos]
  | inr hlt =>
    have hoffset : arc.offset angle = r + 2 * Real.pi := by
      apply offset_eq_of_coe (by linarith) (by linarith)
      rw [Real.Angle.coe_add, hcoe, Real.Angle.coe_two_pi, add_zero]
    linarith

/-- A direction is covered if its angle from the start, or the angle less a full turn, is. -/
theorem covers_of_offset {angle v : ℝ}
    (hangle : (angle : Real.Angle) = ((arc.start + v : ℝ) : Real.Angle))
    (hv : (min 0 arc.sweep - slack ≤ v ∧ v ≤ max 0 arc.sweep + slack) ∨
      (min 0 arc.sweep - slack ≤ v - 2 * Real.pi ∧ v - 2 * Real.pi ≤ max 0 arc.sweep + slack)) :
    arc.Covers slack angle := by
  cases hv with
  | inl hv => exact ⟨v, hangle, hv⟩
  | inr hv =>
    refine ⟨v - 2 * Real.pi, ?_, hv⟩
    rw [hangle, Real.Angle.coe_add, Real.Angle.coe_add, Real.Angle.coe_sub, Real.Angle.coe_two_pi,
      sub_zero]

end Arc

end PlanarArea
