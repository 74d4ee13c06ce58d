import PlanarArea.Proofs.Circle.CircleCut
import PlanarArea.Proofs.Region.NormalForm

/-!
# Samples at equal steps

Points of a circle at equal steps are as far from one to the next everywhere. So it depends only on
the radius, the length of the sweep and the number of steps whether the samples of an arc are told
apart, and what area the ring through them encloses: the sine of one step for each of them less the
sine of the sweep, for the chord that closes the ring. After a full turn there is no chord, and the
last sample, which is the first one again, is dropped.
-/
namespace PlanarArea

/-- The pairs of neighbours in a sequence that is closed to a cycle. -/
theorem zip_map_range_succ {β : Type} (f : ℕ → β) (m : ℕ) :
    ((List.range (m + 1)).map f).zip
        (((List.range (m + 1)).map f).tail ++ ((List.range (m + 1)).map f).take 1) =
      ((List.range m).map fun i => (f i, f (i + 1))) ++ [(f m, f 0)] := by
  have hclosed : ((List.range (m + 1)).map f).tail ++ ((List.range (m + 1)).map f).take 1 =
      ((List.range m).map fun i => f (i + 1)) ++ [f 0] := by
    rw [List.range_succ_eq_map, List.map_cons, List.map_map]
    rfl
  rw [hclosed, List.range_succ, List.map_append, List.map_singleton, List.zip_append (by simp),
    List.zip_map', List.zip_cons_cons, List.zip_nil_right]

namespace Ring

/-- Corners of a sequence are related all the way round if each is to the next one and the last one
is to the first one. -/
theorem chain_map_range {α : Type} {r : Point α → Point α → Prop} {f : ℕ → Point α} {m : ℕ}
    (hstep : ∀ i < m, r (f i) (f (i + 1))) (hclose : r (f m) (f 0)) :
    Cycle.Chain r ((List.range (m + 1)).map f : Cycle (Point α)) := by
  rw [← forall_mem_edges_iff, edges, zip_map_range_succ]
  intro e he
  obtain hedge | hclosing := List.mem_append.mp he
  · obtain ⟨i, hi, rfl⟩ := List.mem_map.mp hedge
    exact hstep i (List.mem_range.mp hi)
  · rw [List.mem_singleton.mp hclosing]
    exact hclose

end Ring

namespace Angle

/-- So many angles from `start` on, each a `step` after the one before. -/
noncomputable def equalSteps (start step : ℝ) (count : ℕ) : List ℝ :=
  (List.range count).map fun i : ℕ => start + i * step

@[simp] theorem length_equalSteps (start step : ℝ) (count : ℕ) :
    (equalSteps start step count).length = count := by
  simp [equalSteps]

theorem equalSteps_succ (start step : ℝ) (count : ℕ) :
    equalSteps start step (count + 1) = equalSteps start step count ++ [start + count * step] := by
  rw [equalSteps, List.range_succ, List.map_append, List.map_singleton, equalSteps]

theorem take_one_equalSteps (start step : ℝ) (count : ℕ) :
    (equalSteps start step (count + 1)).take 1 = [start] := by
  rw [equalSteps, List.range_succ_eq_map, List.map_cons, List.take_succ_cons, List.take_zero,
    Nat.cast_zero, zero_mul, add_zero]

theorem add_step_sub (start step : ℝ) (i : ℕ) :
    start + (i + 1 : ℕ) * step - (start + i * step) = step := by
  push_cast
  ring

theorem start_sub_add (start step : ℝ) (m : ℕ) :
    start + (0 : ℕ) * step - (start + m * step) = -(m * step) := by
  push_cast
  ring

theorem sinSteps_equalSteps (start step : ℝ) (m : ℕ) :
    sinSteps (equalSteps start step (m + 1)) = m * Real.sin step - Real.sin (m * step) := by
  rw [sinSteps, equalSteps, zip_map_range_succ, List.map_append, List.map_map, List.sum_append]
  simp only [Function.comp_def, add_step_sub, start_sub_add, List.map_const', List.length_range,
    List.sum_replicate, nsmul_eq_mul, List.map_singleton, List.sum_singleton, Real.sin_neg]
  ring

/-- Steps that add up to whole turns lead from the last angle to the first one by one step more. -/
theorem coe_mul_of_turn {m : ℕ} {step : ℝ} (h : (((m + 1 : ℕ) * step : ℝ) : Real.Angle) = 0) :
    ((m * step : ℝ) : Real.Angle) = ((-step : ℝ) : Real.Angle) := by
  have hlast : m * step = (m + 1 : ℕ) * step - step := by
    push_cast
    ring
  rw [hlast, Real.Angle.coe_sub, h, zero_sub, Real.Angle.coe_neg]

theorem sinSteps_of_turn (start : ℝ) {m : ℕ} {step : ℝ}
    (h : (((m + 1 : ℕ) * step : ℝ) : Real.Angle) = 0) :
    sinSteps (equalSteps start step (m + 1)) = (m + 1 : ℕ) * Real.sin step := by
  rw [sinSteps_equalSteps, ← Real.Angle.sin_coe (m * step), coe_mul_of_turn h,
    Real.Angle.sin_coe, Real.sin_neg]
  push_cast
  ring

/-- Equal steps gain on one step over all of them, within a full turn. -/
theorem sin_mul_le {m : ℕ} {step : ℝ} (h0 : 0 ≤ step) (hturn : m * step ≤ 2 * Real.pi) :
    Real.sin (m * step) ≤ m * Real.sin step := by
  induction m with
  | zero => simp
  | succ m ih =>
    push_cast at hturn ⊢
    rw [add_one_mul] at hturn ⊢
    have hadd := sin_add_le (mul_nonneg (Nat.cast_nonneg m) h0) h0 hturn
    have hrest := ih (by linarith)
    linarith

/-- Directions that differ by `w` are told apart on a circle of this radius. -/
def Separates (radius w : ℝ) : Prop :=
  (Point.coincidence : ℝ) ≤ 2 * |radius * Real.sin (w / 2)|

/-- The length of a chord of a circle. -/
theorem norm_onCircle_sub (center : Point ℝ) (radius a b : ℝ) :
    (onCircle center radius a - onCircle center radius b).norm =
      2 * |radius * Real.sin ((b - a) / 2)| := by
  have hhalf : Real.cos (b - a) = 1 - 2 * Real.sin ((b - a) / 2) ^ 2 := by
    rw [← Real.cos_two_mul_eq_one_sub, mul_div_cancel₀ _ two_ne_zero]
  have hsquare : (radius * Real.cos a - radius * Real.cos b) ^ 2 +
      (radius * Real.sin a - radius * Real.sin b) ^ 2 =
      (2 * (radius * Real.sin ((b - a) / 2))) ^ 2 := by
    rw [Real.cos_sub] at hhalf
    linear_combination radius ^ 2 * (Real.sin_sq_add_cos_sq a + Real.sin_sq_add_cos_sq b -
      2 * hhalf)
  simp only [onCircle, Point.norm, Point.sub_x, Point.sub_y, Scalar.real_sub, Scalar.real_add,
    Scalar.real_mul, Scalar.real_sqrt, Scalar.real_cos, Scalar.real_sin, add_sub_add_left_eq_sub,
    ← sq]
  rw [hsquare, Real.sqrt_sq_eq_abs, abs_mul, abs_two]

variable {center : Point ℝ} {radius start step a b w : ℝ}

theorem apart_onCircle_iff :
    Point.Apart (onCircle center radius a) (onCircle center radius b) ↔
      Separates radius (b - a) := by
  rw [Point.Apart, norm_onCircle_sub]
  rfl

theorem separates_neg : Separates radius (-w) ↔ Separates radius w := by
  rw [Separates, Separates, neg_div, Real.sin_neg, mul_neg, abs_neg]

theorem separates_abs : Separates radius |w| ↔ Separates radius w := by
  cases abs_choice w with
  | inl h => rw [h]
  | inr h => rw [h, separates_neg]

theorem separates_congr (h : (a : Real.Angle) = b) : Separates radius a ↔ Separates radius b := by
  have hchord : ∀ w, Separates radius w ↔
      Point.Apart (onCircle ⟨0, 0⟩ radius 0) (onCircle ⟨0, 0⟩ radius w) := by
    intro w
    rw [apart_onCircle_iff, sub_zero]
  rw [hchord, hchord, onCircle_congr h]

/-- Corners at equal steps are apart all the way round if one step and the way from the last one to
the first one tell directions apart. -/
theorem chain_equalSteps {m : ℕ} (hstep : Separates radius step)
    (hclose : Separates radius (m * step)) :
    Cycle.Chain Point.Apart
      ((equalSteps start step (m + 1)).map (onCircle center radius) : Cycle (Point ℝ)) := by
  rw [equalSteps, List.map_map]
  apply Ring.chain_map_range
  · intro i _
    exact apart_onCircle_iff.mpr ((add_step_sub start step i).symm ▸ hstep)
  · exact apart_onCircle_iff.mpr ((start_sub_add start step m).symm ▸ separates_neg.mpr hclose)

end Angle

namespace Region

/-- Points of which three or more are kept make a region with the area of the ring that is kept. -/
theorem exists_of_kept {ps : List (Point ℝ)} (h : 3 ≤ List.length (Ring.kept ps)) :
    ∃ region, ofPoints? ps = some region ∧ region.area = Ring.area (Ring.kept ps) := by
  rw [ofPoints?, Ring.ofPoints?_eq, if_neg (not_lt.mpr h)]
  refine ⟨_, rfl, ?_⟩
  rw [area_ofRing]
  split
  · rw [Ring.area_eq_sweptAbout ⟨0, 0⟩, Ring.area_eq_sweptAbout ⟨0, 0⟩, Ring.sweptAbout_reverse,
      neg_div, abs_neg]
  · rfl

end Region

namespace Arc

theorem coe_eq_zero_of_turn {sweep : ℝ} (h : |sweep| = 2 * Real.pi) : (sweep : Real.Angle) = 0 := by
  obtain hpos | hneg := eq_or_eq_neg_of_abs_eq h
  · rw [hpos, Real.Angle.coe_two_pi]
  · rw [hneg, Real.Angle.coe_neg, Real.Angle.coe_two_pi, neg_zero]

/-- The number of different samples: after a full turn the last one is the first one again. -/
noncomputable def corners (arc : Arc ℝ) (n : ℕ) : ℕ :=
  open Classical in if |arc.sweep| = 2 * Real.pi then n else n + 1

/-- Neighbouring samples are told apart, the last one and the first one too unless the arc is a full
turn, and there are at least three. -/
structure WellSampled (arc : Arc ℝ) (n : ℕ) : Prop where
  neighbours : List.IsChain Point.Apart (arc.sample n)
  ends : |arc.sweep| ≠ 2 * Real.pi → ∀ first ∈ (arc.sample n).head?,
    ∀ last ∈ (arc.sample n).getLast?, Point.Apart last first
  three_le : 3 ≤ arc.corners n

variable {arc other : Arc ℝ} {n : ℕ}

theorem sample_eq (hn : 0 < n) : arc.sample n =
    (Angle.equalSteps arc.start (arc.sweep / n) (n + 1)).map
      (Angle.onCircle arc.center arc.radius) := by
  rw [sample, Angle.sampleSweep_eq_map, Angle.sampleAngles, max_eq_left hn]
  congr 2
  funext i
  ring

theorem isChain_sample_iff (hn : 0 < n) :
    List.IsChain Point.Apart (arc.sample n) ↔ Angle.Separates arc.radius (arc.sweep / n) := by
  rw [sample_eq hn, Angle.equalSteps, List.map_map, List.isChain_map, List.isChain_range_succ]
  simp only [Function.comp_def, Nat.succ_eq_add_one, Angle.apart_onCircle_iff,
    Angle.add_step_sub]
  exact ⟨fun h => h 0 hn, fun h _ _ => h⟩

theorem apart_ends_iff : (∀ first ∈ (arc.sample n).head?, ∀ last ∈ (arc.sample n).getLast?,
    Point.Apart last first) ↔ Angle.Separates arc.radius arc.sweep := by
  rw [sample, Angle.head?_sampleSweep, Angle.getLast?_sampleSweep]
  simp only [Option.mem_some_iff, forall_eq', Angle.apart_onCircle_iff, sub_add_cancel_left,
    Angle.separates_neg]

theorem corners_congr (h : |other.sweep| = |arc.sweep|) : other.corners n = arc.corners n := by
  rw [corners, corners, h]

theorem pos_of_corners (h : 3 ≤ arc.corners n) : 0 < n := by
  rw [corners] at h
  split at h <;> omega

/-- Whether the samples are told apart depends on the radius and the size of the sweep only. -/
theorem wellSampled_iff : arc.WellSampled n ↔
    3 ≤ arc.corners n ∧ Angle.Separates arc.radius (|arc.sweep| / n) ∧
      (|arc.sweep| ≠ 2 * Real.pi → Angle.Separates arc.radius |arc.sweep|) := by
  have habs : |arc.sweep| / n = |arc.sweep / n| := by rw [abs_div, Nat.abs_cast]
  rw [habs, Angle.separates_abs, Angle.separates_abs]
  constructor
  · intro h
    exact ⟨h.three_le, (isChain_sample_iff (pos_of_corners h.three_le)).mp h.neighbours,
      fun hopen => apart_ends_iff.mp (h.ends hopen)⟩
  · rintro ⟨hthree, hstep, hopen⟩
    exact ⟨(isChain_sample_iff (pos_of_corners hthree)).mpr hstep,
      fun h => apart_ends_iff.mpr (hopen h), hthree⟩

theorem WellSampled.congr (h : arc.WellSampled n) (hradius : other.radius = arc.radius)
    (hsweep : |other.sweep| = |arc.sweep|) : other.WellSampled n := by
  rw [wellSampled_iff] at h ⊢
  rwa [hradius, hsweep, corners_congr hsweep]

/-- The samples that are kept, all of them or all but the last one. -/
theorem WellSampled.kept_sample (h : arc.WellSampled n) : Ring.kept (arc.sample n) =
    (Angle.equalSteps arc.start (arc.sweep / n) (arc.corners n)).map
      (Angle.onCircle arc.center arc.radius) := by
  have hn := pos_of_corners h.three_le
  have hn' : (n : ℝ) ≠ 0 := Nat.cast_ne_zero.mpr hn.ne'
  have hwhole : n * (arc.sweep / n) = arc.sweep := mul_div_cancel₀ arc.sweep hn'
  have hstep := (isChain_sample_iff hn).mp h.neighbours
  rw [sample_eq hn, corners]
  split
  · rename_i hturn
    obtain ⟨m, rfl⟩ := Nat.exists_eq_succ_of_ne_zero hn.ne'
    have hback := Angle.coe_mul_of_turn (hwhole.symm ▸ coe_eq_zero_of_turn hturn)
    have hclose : Angle.Separates arc.radius (m * (arc.sweep / (m + 1 : ℕ))) :=
      (Angle.separates_congr hback).mpr (Angle.separates_neg.mpr hstep)
    have hlast : Angle.onCircle arc.center arc.radius (arc.start + arc.sweep) =
        Angle.onCircle arc.center arc.radius arc.start := by
      apply Angle.onCircle_congr
      rw [Real.Angle.coe_add, coe_eq_zero_of_turn hturn, add_zero]
    have hchain : Cycle.Chain Point.Apart
        ((Angle.equalSteps arc.start (arc.sweep / (m + 1 : ℕ)) (m + 1)).map
          (Angle.onCircle arc.center arc.radius) : Cycle (Point ℝ)) :=
      Angle.chain_equalSteps hstep hclose
    have hclosed := (Ring.kept_of_chain hchain).2
    rw [← List.map_take, Angle.take_one_equalSteps, List.map_singleton] at hclosed
    rw [Angle.equalSteps_succ, List.map_append, List.map_singleton, hwhole, hlast]
    exact hclosed
  · rename_i hopen
    exact (Ring.kept_of_chain (Angle.chain_equalSteps hstep
      (hwhole.symm ▸ apart_ends_iff.mp (h.ends hopen)))).1

/-- The sines of the steps from sample to sample, the closing one included. -/
theorem sinSteps_samples (hn : 0 < n) :
    Angle.sinSteps (Angle.equalSteps arc.start (arc.sweep / n) (arc.corners n)) =
      n * Real.sin (arc.sweep / n) - Real.sin arc.sweep := by
  have hn' : (n : ℝ) ≠ 0 := Nat.cast_ne_zero.mpr hn.ne'
  have hwhole : n * (arc.sweep / n) = arc.sweep := mul_div_cancel₀ arc.sweep hn'
  rw [corners]
  split
  · rename_i hturn
    obtain ⟨m, rfl⟩ := Nat.exists_eq_succ_of_ne_zero hn.ne'
    have hsin : Real.sin arc.sweep = 0 := by
      rw [← Real.Angle.sin_coe, coe_eq_zero_of_turn hturn, Real.Angle.sin_zero]
    rw [Angle.sinSteps_of_turn _ (hwhole.symm ▸ coe_eq_zero_of_turn hturn), hsin, sub_zero]
  · rw [Angle.sinSteps_equalSteps, hwhole]

/-- The same in either direction, and never negative. -/
theorem abs_sinSteps_samples (hn : 0 < n) (hsweep : |arc.sweep| ≤ 2 * Real.pi) :
    |Angle.sinSteps (Angle.equalSteps arc.start (arc.sweep / n) (arc.corners n))| =
      n * Real.sin (|arc.sweep| / n) - Real.sin |arc.sweep| := by
  have hn' : (n : ℝ) ≠ 0 := Nat.cast_ne_zero.mpr hn.ne'
  have hwhole : n * (|arc.sweep| / n) = |arc.sweep| := mul_div_cancel₀ _ hn'
  have hpos : 0 ≤ n * Real.sin (|arc.sweep| / n) - Real.sin |arc.sweep| := by
    have hle : Real.sin (n * (|arc.sweep| / n)) ≤ n * Real.sin (|arc.sweep| / n) :=
      Angle.sin_mul_le (by positivity) (by rwa [hwhole])
    rw [hwhole] at hle
    exact sub_nonneg.mpr hle
  rw [sinSteps_samples hn, ← abs_of_nonneg hpos]
  cases abs_choice arc.sweep with
  | inl h => rw [h]
  | inr h =>
    rw [h, neg_div, Real.sin_neg, Real.sin_neg, mul_neg, sub_neg_eq_add, ← abs_neg]
    congr 1
    ring

/-- The region through the samples of an arc exists and has this area. -/
theorem WellSampled.exists_region (h : arc.WellSampled n) (hsweep : |arc.sweep| ≤ 2 * Real.pi) :
    ∃ region, Region.ofPoints? (arc.sample n) = some region ∧
      region.area =
        arc.radius ^ 2 / 2 * (n * Real.sin (|arc.sweep| / n) - Real.sin |arc.sweep|) := by
  have hkept : 3 ≤ List.length (Ring.kept (arc.sample n)) := by
    rw [h.kept_sample, List.length_map, Angle.length_equalSteps]
    exact h.three_le
  obtain ⟨region, hregion, harea⟩ := Region.exists_of_kept hkept
  refine ⟨region, hregion, ?_⟩
  rw [harea, h.kept_sample, Ring.area_onCircle,
    abs_sinSteps_samples (pos_of_corners h.three_le) hsweep]

/-- The samples of an arc that are told apart make a region whose area is known from the radius, the
size of the sweep and the number of steps. So it is the same for any center, start and direction,
and with an arc over the rest of the circle the sines of the sweeps cancel. -/
theorem area_of_sample (h : arc.WellSampled n) (hsweep : |arc.sweep| ≤ 2 * Real.pi) :
    (∀ other : Arc ℝ, other.radius = arc.radius → |other.sweep| = |arc.sweep| →
      ∃ region, Region.ofPoints? (other.sample n) = some region ∧
        region.area =
          arc.radius ^ 2 / 2 * (n * Real.sin (|arc.sweep| / n) - Real.sin |arc.sweep|)) ∧
      ∀ (rest : Arc ℝ) (m : ℕ), rest.WellSampled m → rest.radius = arc.radius →
        |arc.sweep| + |rest.sweep| = 2 * Real.pi →
        ∃ region region', Region.ofPoints? (arc.sample n) = some region ∧
          Region.ofPoints? (rest.sample m) = some region' ∧
          region.area + region'.area = arc.radius ^ 2 / 2 *
            (n * Real.sin (|arc.sweep| / n) + m * Real.sin (|rest.sweep| / m)) := by
  constructor
  · intro other hradius hsize
    rw [← hradius, ← hsize]
    exact (h.congr hradius hsize).exists_region (hsize.symm ▸ hsweep)
  · intro rest m hrest hradius hturn
    obtain ⟨region, hregion, harea⟩ := h.exists_region hsweep
    obtain ⟨region', hregion', harea'⟩ :=
      hrest.exists_region (by linarith [abs_nonneg arc.sweep])
    have hsin : Real.sin |rest.sweep| = -Real.sin |arc.sweep| := by
      rw [← Real.sin_two_pi_sub, ← hturn, add_sub_cancel_left]
    refine ⟨region, region', hregion, hregion', ?_⟩
    rw [harea, harea', hradius, hsin]
    ring

section Quarters

theorem separates_of_mem {radius w : ℝ} (hradius : 1 ≤ radius) (hlow : Real.pi / 6 ≤ w)
    (hhigh : w ≤ 11 * Real.pi / 6) : Angle.Separates radius w := by
  have hpi := Real.pi_pos
  have hsin : 1 / 6 ≤ Real.sin (w / 2) := by
    have hbound : ∀ {x : ℝ}, Real.pi / 12 ≤ x → x ≤ Real.pi / 2 → 1 / 6 ≤ Real.sin x := by
      intro x h0 h1
      refine le_trans ?_ (Real.mul_le_sin (by linarith) h1)
      rw [div_mul_eq_mul_div, le_div_iff₀ hpi]
      linarith
    cases le_total (w / 2) (Real.pi / 2) with
    | inl h => exact hbound (by linarith) h
    | inr h =>
      rw [← Real.sin_pi_sub]
      exact hbound (by linarith) (by linarith)
  have hle := le_abs_self (radius * Real.sin (w / 2))
  have hmul : 1 / 6 ≤ radius * Real.sin (w / 2) := by nlinarith
  have hsmall : (1e-12 : ℝ) ≤ 2 * (1 / 6) := by norm_num
  rw [Angle.Separates, Point.coincidence, Scalar.real_decimal]
  exact hsmall.trans (mul_le_mul_of_nonneg_left (hmul.trans hle) two_pos.le)

theorem wellSampled_of_mem {arc : Arc ℝ} (hradius : arc.radius = 5)
    (hlow : Real.pi / 2 ≤ |arc.sweep|) (hhigh : |arc.sweep| ≤ 3 * Real.pi / 2) :
    arc.WellSampled 3 := by
  have hpi := Real.pi_pos
  rw [wellSampled_iff, hradius, corners, if_neg (by linarith)]
  have hfive : (1 : ℝ) ≤ 5 := by norm_num
  refine ⟨by norm_num, separates_of_mem hfive ?_ ?_, fun _ => separates_of_mem hfive ?_ ?_⟩
  · push_cast
    linarith
  · push_cast
    linarith
  · linarith
  · linarith

/-- Three quarters of a circle in three steps, and the last quarter in three steps. -/
theorem area_of_sample_quarters :
    let arc : Arc ℝ := ⟨⟨1, 2⟩, 5, 1, -(3 * Real.pi / 2)⟩
    let other : Arc ℝ := ⟨⟨0, 0⟩, 5, 0, 3 * Real.pi / 2⟩
    let rest : Arc ℝ := ⟨⟨3, 0⟩, 5, 2, Real.pi / 2⟩
    arc.WellSampled 3 ∧ |arc.sweep| ≤ 2 * Real.pi ∧ |other.sweep| = |arc.sweep| ∧
      (∃ region, Region.ofPoints? (other.sample 3) = some region ∧ region.area = 50) ∧
      rest.WellSampled 3 ∧ |arc.sweep| + |rest.sweep| = 2 * Real.pi ∧
      ∃ region region', Region.ofPoints? (arc.sample 3) = some region ∧
        Region.ofPoints? (rest.sample 3) = some region' ∧
        region.area + region'.area = 225 / 4 := by
  intro arc other rest
  have hpi := Real.pi_pos
  have hsize : |arc.sweep| = 3 * Real.pi / 2 := by
    rw [abs_neg, abs_of_pos (by linarith)]
  have hother : |other.sweep| = |arc.sweep| := (abs_neg _).symm
  have hrest : |rest.sweep| = Real.pi / 2 := abs_of_pos Real.pi_div_two_pos
  have hturn : |arc.sweep| ≤ 2 * Real.pi := by linarith
  have hall : |arc.sweep| + |rest.sweep| = 2 * Real.pi := by linarith
  have harc : arc.WellSampled 3 := wellSampled_of_mem rfl (by linarith) hsize.le
  have hlast : rest.WellSampled 3 := wellSampled_of_mem rfl hrest.ge (by linarith)
  have hstep : Real.sin (|arc.sweep| / (3 : ℕ)) = 1 := by
    rw [hsize, ← Real.sin_pi_div_two]
    congr 1
    push_cast
    ring
  have hsin : Real.sin |arc.sweep| = -1 := by
    have hhalves : 3 * Real.pi / 2 = Real.pi / 2 + Real.pi := by ring
    rw [hsize, hhalves, Real.sin_add_pi, Real.sin_pi_div_two]
  have hstep' : Real.sin (|rest.sweep| / (3 : ℕ)) = 1 / 2 := by
    rw [hrest, ← Real.sin_pi_div_six]
    congr 1
    push_cast
    ring
  obtain ⟨hsame, hsum⟩ := area_of_sample harc hturn
  obtain ⟨region, hregion, harea⟩ := hsame other rfl hother
  obtain ⟨first, second, hfirst, hsecond, hareas⟩ := hsum rest 3 hlast rfl hall
  rw [hstep, hsin] at harea
  rw [hstep, hstep'] at hareas
  refine ⟨harc, hturn, hother, ⟨region, hregion, ?_⟩, hlast, hall, first, second, hfirst, hsecond,
    ?_⟩
  · rw [harea]
    norm_num [arc]
  · rw [hareas]
    norm_num [arc]

end Quarters

end Arc

end PlanarArea
