import Mathlib.MeasureTheory.Integral.Prod
import Mathlib.MeasureTheory.Measure.Lebesgue.Integral
import Mathlib.Analysis.SpecialFunctions.Integrals.Basic
import PlanarArea.Overlay.Grid
import PlanarArea.Proofs.Region.Inscribed

/-!
# Winding numbers

A ray upward from a point crosses an edge or it does not. The crossings of a ring, counted with
their direction, are its winding number about the point, and their number is odd on the even-odd set
of the ring. The signed area of a ring is the integral of its winding numbers.
-/
namespace PlanarArea

open MeasureTheory

namespace Point

theorem cross_eq (a b p : Point ℝ) :
    cross a b p = (b.x - a.x) * (p.y - a.y) - (b.y - a.y) * (p.x - a.x) := rfl

theorem cross_swap (a b p : Point ℝ) : cross b a p = -cross a b p := by
  rw [cross_eq, cross_eq]
  ring

/-- The point `p` lies below the edge with left end `a` and right end `b`. Of the two ends, the edge
covers the left one only. -/
def Below (a b p : Point ℝ) : Prop :=
  a.x ≤ p.x ∧ p.x < b.x ∧ cross a b p < 0

noncomputable instance (a b p : Point ℝ) : Decidable (Below a b p) :=
  inferInstanceAs (Decidable (_ ∧ _ ∧ _))

/-- A ray upward from `p` crosses the edge between `a` and `b`. -/
def Crosses (a b p : Point ℝ) : Prop :=
  Below a b p ∨ Below b a p

noncomputable instance (a b p : Point ℝ) : Decidable (Crosses a b p) :=
  inferInstanceAs (Decidable (_ ∨ _))

/-- The direction in which the edge from `a` to `b` crosses the ray upward from `p`: one for an edge
to the left, minus one for an edge to the right, zero for none. -/
noncomputable def crossing (a b p : Point ℝ) : ℤ :=
  (if Below b a p then 1 else 0) - (if Below a b p then 1 else 0)

theorem crossing_swap (a b p : Point ℝ) : crossing b a p = -crossing a b p := by
  rw [crossing, crossing, neg_sub]

theorem not_below_of_below {a b p : Point ℝ} (h : Below a b p) : ¬ Below b a p := by
  rintro ⟨hleft, hright, -⟩
  linarith [h.1, h.2.1]

theorem odd_crossing_iff {a b p : Point ℝ} : Odd (crossing a b p) ↔ Crosses a b p := by
  unfold crossing Crosses
  by_cases h : Below a b p
  · simp [h, not_below_of_below h]
  · by_cases h' : Below b a p
    · simp [h, h']
    · simp [h, h']

theorem crossing_of_same_side {a b p : Point ℝ} (h : a.x ≤ p.x ↔ b.x ≤ p.x) :
    crossing a b p = 0 := by
  have hleft : ¬ Below a b p := fun hbelow => not_le.mpr hbelow.2.1 (h.mp hbelow.1)
  have hright : ¬ Below b a p := fun hbelow => not_le.mpr hbelow.2.1 (h.mpr hbelow.1)
  rw [crossing, if_neg hright, if_neg hleft, sub_zero]

theorem crossing_to_right {a b p : Point ℝ} (ha : a.x ≤ p.x) (hb : p.x < b.x) :
    crossing a b p = if cross a b p < 0 then -1 else 0 := by
  have hback : ¬ Below b a p := fun h => not_le.mpr hb h.1
  have hbelow : Below a b p ↔ cross a b p < 0 := ⟨fun h => h.2.2, fun h => ⟨ha, hb, h⟩⟩
  rw [crossing, if_neg hback]
  simp only [hbelow]
  split <;> rfl

theorem crossing_to_left {a b p : Point ℝ} (ha : p.x < a.x) (hb : b.x ≤ p.x) :
    crossing a b p = if 0 < cross a b p then 1 else 0 := by
  rw [crossing_swap b a, crossing_to_right hb ha, cross_swap a b]
  simp only [neg_lt_zero]
  split <;> rfl

/-- An edge is crossed where one of its parts is. -/
theorem crossing_add {a m b : Point ℝ} (p : Point ℝ) (hleft : a.x < m.x) (hright : m.x < b.x)
    (hline : cross a b m = 0) : crossing a m p + crossing m b p = crossing a b p := by
  have hscale : ∀ {u v w : ℝ}, 0 < u → 0 < v → u * w = v * cross a b p →
      (w < 0 ↔ cross a b p < 0) := by
    intro u v w hu hv heq
    rw [← neg_pos, ← mul_pos_iff_of_pos_left hu, mul_neg, heq, ← mul_neg,
      mul_pos_iff_of_pos_left hv, neg_pos]
  rw [cross_eq] at hline
  have ham : cross a m p < 0 ↔ cross a b p < 0 := by
    refine hscale (u := b.x - a.x) (v := m.x - a.x) (by linarith) (by linarith) ?_
    simp only [cross_eq]
    linear_combination (-(p.x - a.x)) * hline
  have hmb : cross m b p < 0 ↔ cross a b p < 0 := by
    refine hscale (u := b.x - a.x) (v := b.x - m.x) (by linarith) (by linarith) ?_
    simp only [cross_eq]
    linear_combination (p.x - b.x) * hline
  rcases lt_or_ge p.x a.x with ha | ha
  · rw [crossing_of_same_side, crossing_of_same_side, crossing_of_same_side, add_zero]
    all_goals constructor <;> intro h <;> linarith
  rcases lt_or_ge p.x m.x with hm | hm
  · rw [crossing_to_right ha hm, crossing_to_right ha (hm.trans hright), crossing_of_same_side]
    · simp only [ham, add_zero]
    · constructor <;> intro h <;> linarith
  rcases lt_or_ge p.x b.x with hb | hb
  · rw [crossing_to_right hm hb, crossing_to_right ha hb, crossing_of_same_side]
    · simp only [hmb, zero_add]
    · constructor <;> intro h <;> linarith
  · rw [crossing_of_same_side, crossing_of_same_side, crossing_of_same_side, add_zero]
    all_goals constructor <;> intro h <;> linarith

/-- If both ends of an edge lie farther left of a directed line than `p` does, the edge is crossed
according to the sides of its ends and the direction of the line alone. -/
theorem below_iff_of_cross_lt {u v a b p : Point ℝ} (ha : cross u v p < cross u v a)
    (hb : cross u v p < cross u v b) : Below a b p ↔ a.x ≤ p.x ∧ p.x < b.x ∧ u.x < v.x := by
  have hbalance : (b.x - p.x) * (cross u v a - cross u v p) +
      (p.x - a.x) * (cross u v b - cross u v p) = (v.x - u.x) * -cross a b p := by
    simp only [cross_eq]
    ring
  refine and_congr_right fun hleft => and_congr_right fun hright => ?_
  have hpos : 0 < (v.x - u.x) * -cross a b p := by
    rw [← hbalance]
    exact add_pos_of_pos_of_nonneg (mul_pos (sub_pos.mpr hright) (sub_pos.mpr ha))
      (mul_nonneg (sub_nonneg.mpr hleft) (sub_pos.mpr hb).le)
  rw [← neg_pos, ← pos_iff_pos_of_mul_pos hpos, sub_pos]

theorem crossing_of_cross_lt {u v a b p : Point ℝ} (ha : cross u v p < cross u v a)
    (hb : cross u v p < cross u v b) :
    crossing a b p = (if b.x ≤ p.x ∧ u.x < v.x then 1 else 0) -
      (if a.x ≤ p.x ∧ u.x < v.x then 1 else 0) := by
  simp only [crossing, below_iff_of_cross_lt ha hb, below_iff_of_cross_lt hb ha]
  by_cases hleft : a.x ≤ p.x
  · by_cases hright : b.x ≤ p.x
    · simp [hleft, hright, not_lt.mpr hleft, not_lt.mpr hright]
    · simp [hleft, hright, not_le.mp hright]
  · by_cases hright : b.x ≤ p.x
    · simp [hleft, hright, not_le.mp hleft]
    · simp [hleft, hright]

/-- The part of the plane above `lo` and below an edge. -/
def trapezoid (lo : ℝ) (a b : Point ℝ) : Set (ℝ × ℝ) :=
  {z | lo < z.2 ∧ Below a b ⟨z.1, z.2⟩}

/-- The height of the line through `a` and `b` over the axis. -/
noncomputable def heightAt (a b : Point ℝ) (x : ℝ) : ℝ :=
  a.y + (b.y - a.y) / (b.x - a.x) * (x - a.x)

theorem trapezoid_eq (lo : ℝ) (a b : Point ℝ) :
    trapezoid lo a b = regionBetween (fun _ => lo) (heightAt a b) (Set.Ico a.x b.x) := by
  ext z
  simp only [trapezoid, Below, regionBetween, Set.mem_ofPred_eq, Set.mem_Ico, Set.mem_Ioo]
  have hbelow : a.x < b.x → (cross a b ⟨z.1, z.2⟩ < 0 ↔ z.2 < heightAt a b z.1) := by
    intro hlt
    rw [cross_eq, heightAt, div_mul_eq_mul_div, ← sub_lt_iff_lt_add', lt_div_iff₀ (sub_pos.mpr hlt),
      sub_neg, mul_comm (z.2 - a.y)]
  constructor
  · rintro ⟨hlo, hleft, hright, hcross⟩
    exact ⟨⟨hleft, hright⟩, hlo, (hbelow (hleft.trans_lt hright)).mp hcross⟩
  · rintro ⟨⟨hleft, hright⟩, hlo, hheight⟩
    exact ⟨hlo, hleft, hright, (hbelow (hleft.trans_lt hright)).mpr hheight⟩

theorem measurable_heightAt (a b : Point ℝ) : Measurable (heightAt a b) := by
  unfold heightAt
  fun_prop

theorem measurableSet_trapezoid (lo : ℝ) (a b : Point ℝ) : MeasurableSet (trapezoid lo a b) := by
  rw [trapezoid_eq]
  exact measurableSet_regionBetween measurable_const (measurable_heightAt a b) measurableSet_Ico

theorem integral_heightAt (lo : ℝ) {a b : Point ℝ} (h : a.x < b.x) :
    ∫ x in Set.Ico a.x b.x, (heightAt a b x - lo) = (b.x - a.x) * ((a.y + b.y) / 2 - lo) := by
  have hlinear : ∀ x, heightAt a b x - lo =
      (b.y - a.y) / (b.x - a.x) * x + (a.y - lo - (b.y - a.y) / (b.x - a.x) * a.x) := by
    intro x
    rw [heightAt]
    ring
  have hwidth : b.x - a.x ≠ 0 := (sub_pos.mpr h).ne'
  rw [integral_Ico_eq_integral_Ioc, ← intervalIntegral.integral_of_le h.le]
  simp only [hlinear]
  rw [intervalIntegral.integral_add
      (Continuous.intervalIntegrable (by fun_prop) _ _)
      (Continuous.intervalIntegrable (by fun_prop) _ _),
    intervalIntegral.integral_const_mul, integral_id, intervalIntegral.integral_const, smul_eq_mul]
  field_simp
  ring

theorem le_heightAt {lo x : ℝ} {a b : Point ℝ} (ha : lo ≤ a.y) (hb : lo ≤ b.y) (hleft : a.x ≤ x)
    (hright : x < b.x) : lo ≤ heightAt a b x := by
  have hwidth : 0 < b.x - a.x := by linarith
  have hlow : 0 ≤ (x - a.x) / (b.x - a.x) := div_nonneg (by linarith) hwidth.le
  have hhigh : (x - a.x) / (b.x - a.x) ≤ 1 := (div_le_one hwidth).mpr (by linarith)
  have hheight : heightAt a b x = a.y + (x - a.x) / (b.x - a.x) * (b.y - a.y) := by
    rw [heightAt]
    ring
  rw [hheight]
  nlinarith

theorem volume_trapezoid {lo : ℝ} {a b : Point ℝ} (ha : lo ≤ a.y) (hb : lo ≤ b.y) :
    volume (trapezoid lo a b) =
      ENNReal.ofReal (max (b.x - a.x) 0 * ((a.y + b.y) / 2 - lo)) := by
  rw [trapezoid_eq]
  cases le_or_gt b.x a.x with
  | inl h =>
    rw [Set.Ico_eq_empty (not_lt.mpr h), max_eq_right (sub_nonpos.mpr h)]
    simp [regionBetween]
  | inr h =>
    have hcontinuous : Continuous (heightAt a b) := by
      unfold heightAt
      fun_prop
    have habove : ∀ x ∈ Set.Ico a.x b.x, lo ≤ heightAt a b x :=
      fun x hx => le_heightAt ha hb hx.1 hx.2
    rw [Measure.volume_eq_prod, volume_regionBetween_eq_integral
      (continuous_const.integrableOn_Icc.mono_set Set.Ico_subset_Icc_self)
      (hcontinuous.integrableOn_Icc.mono_set Set.Ico_subset_Icc_self) measurableSet_Ico habove]
    simp only [Pi.sub_apply]
    rw [integral_heightAt lo h, max_eq_left (sub_pos.mpr h).le]

/-- The crossings of an edge by rays from points above `lo`. -/
noncomputable def crossingAbove (lo : ℝ) (a b : Point ℝ) (z : ℝ × ℝ) : ℝ :=
  (trapezoid lo b a).indicator 1 z - (trapezoid lo a b).indicator 1 z

theorem crossingAbove_eq (lo : ℝ) (a b : Point ℝ) (z : ℝ × ℝ) :
    crossingAbove lo a b z = if lo < z.2 then (crossing a b ⟨z.1, z.2⟩ : ℝ) else 0 := by
  simp only [crossingAbove, trapezoid, Set.indicator, Set.mem_ofPred_eq, crossing, Pi.one_apply]
  by_cases h : lo < z.2
  · simp [h]
  · simp [h]

theorem integrable_indicator_trapezoid {lo : ℝ} {a b : Point ℝ} (ha : lo ≤ a.y) (hb : lo ≤ b.y) :
    Integrable ((trapezoid lo a b).indicator (1 : ℝ × ℝ → ℝ)) := by
  rw [integrable_indicator_iff (measurableSet_trapezoid lo a b)]
  apply integrableOn_const
  · rw [volume_trapezoid ha hb]
    exact ENNReal.ofReal_ne_top
  · simp

theorem integral_indicator_trapezoid {lo : ℝ} {a b : Point ℝ} (ha : lo ≤ a.y) (hb : lo ≤ b.y) :
    ∫ z, (trapezoid lo a b).indicator (1 : ℝ × ℝ → ℝ) z =
      max (b.x - a.x) 0 * ((a.y + b.y) / 2 - lo) := by
  rw [integral_indicator_one (measurableSet_trapezoid lo a b), Measure.real, volume_trapezoid ha hb,
    ENNReal.toReal_ofReal]
  exact mul_nonneg (le_max_right _ _) (by linarith)

theorem integrable_crossingAbove {lo : ℝ} {a b : Point ℝ} (ha : lo ≤ a.y) (hb : lo ≤ b.y) :
    Integrable (crossingAbove lo a b) :=
  (integrable_indicator_trapezoid hb ha).sub (integrable_indicator_trapezoid ha hb)

/-- An edge contributes the trapezoid below it, negative if it runs to the right. -/
theorem integral_crossingAbove {lo : ℝ} {a b : Point ℝ} (ha : lo ≤ a.y) (hb : lo ≤ b.y) :
    ∫ z, crossingAbove lo a b z = (a.x - b.x) * ((a.y + b.y) / 2 - lo) := by
  simp only [crossingAbove]
  rw [integral_sub (integrable_indicator_trapezoid hb ha) (integrable_indicator_trapezoid ha hb),
    integral_indicator_trapezoid hb ha, integral_indicator_trapezoid ha hb, add_comm b.y]
  cases le_total a.x b.x with
  | inl h =>
    rw [max_eq_right (sub_nonpos.mpr h), max_eq_left (sub_nonneg.mpr h)]
    ring
  | inr h =>
    rw [max_eq_left (sub_nonneg.mpr h), max_eq_right (sub_nonpos.mpr h)]
    ring

end Point

namespace Ring

open Point (crossing crossingAbove Crosses)

/-- How often a ring goes round a point counter-clockwise, less how often it goes round
clockwise. -/
noncomputable def winding (ring : Ring ℝ) (p : Point ℝ) : ℤ :=
  (ring.edges.map fun e => crossing e.1 e.2 p).sum

/-- The number of edges that a ray upward from `p` crosses. -/
noncomputable def crossings (ring : Ring ℝ) (p : Point ℝ) : ℕ :=
  ring.edges.countP fun e => Crosses e.1 e.2 p

theorem odd_crossings_iff (ring : Ring ℝ) (p : Point ℝ) :
    Odd (ring.crossings p) ↔ Odd (ring.winding p) := by
  unfold crossings winding
  induction ring.edges with
  | nil => simp
  | cons e es ih =>
    simp only [List.map_cons, List.sum_cons, Int.odd_add, List.countP_cons, Nat.odd_add, ih,
      Point.odd_crossing_iff]
    by_cases h : Crosses e.1 e.2 p
    · simp [h, ← Int.not_odd_iff_even]
    · simp [h, ← Int.not_odd_iff_even]

/-- A ring does not wind around a point if all its corners lie farther left of a directed line. -/
theorem winding_eq_zero_of_cross_lt {ring : Ring ℝ} {u v p : Point ℝ}
    (h : ∀ w ∈ ring, Point.cross u v p < Point.cross u v w) : ring.winding p = 0 := by
  have hstep : ∀ e ∈ ring.edges, crossing e.1 e.2 p =
      (if e.2.x ≤ p.x ∧ u.x < v.x then 1 else 0) - (if e.1.x ≤ p.x ∧ u.x < v.x then 1 else 0) :=
    fun e he =>
      Point.crossing_of_cross_lt (h _ (mem_of_mem_edges he).1) (h _ (mem_of_mem_edges he).2)
  rw [winding, List.map_congr_left hstep]
  exact sum_edges_sub (fun w => if w.x ≤ p.x ∧ u.x < v.x then (1 : ℤ) else 0) ring

/-- Below all its corners a ring does not wind around a point. -/
theorem winding_eq_zero_of_lt {ring : Ring ℝ} {p : Point ℝ} (h : ∀ v ∈ ring, p.y < v.y) :
    ring.winding p = 0 := by
  have haxis : ∀ w : Point ℝ, Point.cross ⟨0, 0⟩ ⟨1, 0⟩ w = w.y := by
    intro w
    simp [Point.cross_eq]
  refine @winding_eq_zero_of_cross_lt ring ⟨0, 0⟩ ⟨1, 0⟩ p fun w hw => ?_
  rw [haxis, haxis]
  exact h w hw

theorem exists_lt_corners (ring : Ring ℝ) : ∃ lo : ℝ, ∀ v ∈ ring, lo < v.y := by
  induction ring with
  | nil => exact ⟨0, nofun⟩
  | cons v vs ih =>
    obtain ⟨lo, hlo⟩ := ih
    refine ⟨min lo (v.y - 1), ?_⟩
    intro w hw
    cases List.mem_cons.mp hw with
    | inl h =>
      rw [h]
      exact (min_le_right _ _).trans_lt (sub_one_lt _)
    | inr h => exact (min_le_left _ _).trans_lt (hlo w h)

/-- Over a list of edges integrals add up. -/
theorem integral_sum_map {β : Type} {f : β → ℝ × ℝ → ℝ} {es : List β}
    (h : ∀ e ∈ es, Integrable (f e)) :
    Integrable (fun z => (es.map fun e => f e z).sum) ∧
      ∫ z, (es.map fun e => f e z).sum = (es.map fun e => ∫ z, f e z).sum := by
  induction es with
  | nil => simp
  | cons e es ih =>
    obtain ⟨hint, hsum⟩ := ih fun e he => h e (List.mem_cons_of_mem _ he)
    have he := h e List.mem_cons_self
    simp only [List.map_cons, List.sum_cons]
    exact ⟨he.add hint, by rw [integral_add he hint, hsum]⟩

/-- The winding numbers of a ring integrate to its signed area. -/
theorem integral_winding (ring : Ring ℝ) :
    Integrable (fun z : ℝ × ℝ => (ring.winding ⟨z.1, z.2⟩ : ℝ)) ∧
      ∫ z : ℝ × ℝ, (ring.winding ⟨z.1, z.2⟩ : ℝ) = ring.sweptAbout ⟨0, 0⟩ / 2 := by
  obtain ⟨lo, hlo⟩ := exists_lt_corners ring
  have hends : ∀ e ∈ ring.edges, lo ≤ e.1.y ∧ lo ≤ e.2.y := fun e he =>
    ⟨(hlo _ (mem_of_mem_edges he).1).le, (hlo _ (mem_of_mem_edges he).2).le⟩
  have hwinding : ∀ z : ℝ × ℝ, (ring.winding ⟨z.1, z.2⟩ : ℝ) =
      (ring.edges.map fun e => crossingAbove lo e.1 e.2 z).sum := by
    intro z
    simp only [Point.crossingAbove_eq]
    by_cases hz : lo < z.2
    · simp only [if_pos hz, winding, Int.cast_list_sum, List.map_map, Function.comp_def]
    · rw [winding_eq_zero_of_lt fun v hv => (not_lt.mp hz).trans_lt (hlo v hv)]
      simp [hz]
  have hterm : ∀ e ∈ ring.edges, ∫ z, crossingAbove lo e.1 e.2 z =
      ((e.1 - ⟨0, 0⟩).x * (e.2 - ⟨0, 0⟩).y - (e.1 - ⟨0, 0⟩).y * (e.2 - ⟨0, 0⟩).x) / 2 +
        ((lo * e.2.x - e.2.x * e.2.y / 2) - (lo * e.1.x - e.1.x * e.1.y / 2)) := by
    intro e he
    rw [Point.integral_crossingAbove (hends e he).1 (hends e he).2]
    simp
    ring
  obtain ⟨hint, hsum⟩ := integral_sum_map fun e he =>
    Point.integrable_crossingAbove (hends e he).1 (hends e he).2
  simp only [hwinding]
  refine ⟨hint, ?_⟩
  rw [hsum, List.map_congr_left hterm, List.sum_map_add,
    sum_edges_sub (fun v => lo * v.x - v.x * v.y / 2), add_zero, sweptAbout]
  simp only [div_eq_mul_inv, List.sum_map_mul_right]

end Ring

end PlanarArea
