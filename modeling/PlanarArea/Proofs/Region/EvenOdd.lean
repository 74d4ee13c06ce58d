import PlanarArea.Proofs.Region.Winding

/-!
# The even-odd rule

By the even-odd rule a point belongs to a region if a ray from it crosses an odd number of edges.
The area of one ring is the measure of its even-odd set if the ring goes round every point at most
once, and always in one direction.
-/
namespace PlanarArea

open MeasureTheory

namespace Point

theorem measurableSet_below (a b : Point ℝ) :
    MeasurableSet {z : ℝ × ℝ | Below a b ⟨z.1, z.2⟩} := by
  have hcross : Measurable fun z : ℝ × ℝ => cross a b ⟨z.1, z.2⟩ := by
    simp only [cross_eq]
    fun_prop
  exact (measurableSet_le measurable_const measurable_fst).inter
    ((measurableSet_lt measurable_fst measurable_const).inter
      (measurableSet_lt hcross measurable_const))

theorem measurable_crossing (a b : Point ℝ) :
    Measurable fun z : ℝ × ℝ => crossing a b ⟨z.1, z.2⟩ :=
  (Measurable.ite (measurableSet_below b a) measurable_const measurable_const).sub
    (Measurable.ite (measurableSet_below a b) measurable_const measurable_const)

end Point

theorem Ring.measurable_winding (ring : Ring ℝ) :
    Measurable fun z : ℝ × ℝ => ring.winding ⟨z.1, z.2⟩ := by
  unfold winding
  induction ring.edges with
  | nil => exact measurable_const
  | cons e es ih =>
    simp only [List.map_cons, List.sum_cons]
    exact (Point.measurable_crossing e.1 e.2).add ih

namespace Region

/-- How often the rings of a region go round a point, all together. -/
noncomputable def winding (r : Region ℝ) (p : Point ℝ) : ℤ :=
  (r.rings.map fun ring => ring.winding p).sum

/-- The points from which a ray crosses an odd number of edges of the region. -/
def evenOdd (r : Region ℝ) : Set (ℝ × ℝ) :=
  {z | Odd (r.rings.map fun ring => ring.crossings ⟨z.1, z.2⟩).sum}

theorem mem_evenOdd_iff {r : Region ℝ} {z : ℝ × ℝ} :
    z ∈ r.evenOdd ↔ Odd (r.winding ⟨z.1, z.2⟩) := by
  simp only [evenOdd, winding, Set.mem_ofPred_eq]
  induction r.rings with
  | nil => simp
  | cons ring rings ih =>
    simp only [List.map_cons, List.sum_cons, Int.odd_add, Nat.odd_add, ← Nat.not_odd_iff_even,
      ← Int.not_odd_iff_even, ih, Ring.odd_crossings_iff]

theorem measurable_winding (r : Region ℝ) :
    Measurable fun z : ℝ × ℝ => r.winding ⟨z.1, z.2⟩ := by
  unfold winding
  induction r.rings with
  | nil => exact measurable_const
  | cons ring rings ih =>
    simp only [List.map_cons, List.sum_cons]
    exact ring.measurable_winding.add ih

theorem measurableSet_evenOdd (r : Region ℝ) : MeasurableSet r.evenOdd := by
  have hset : r.evenOdd =
      Set.preimage (fun z : ℝ × ℝ => r.winding ⟨z.1, z.2⟩) {n | Odd n} := by
    ext z
    exact mem_evenOdd_iff
  rw [hset]
  exact r.measurable_winding (MeasurableSet.of_discrete)

@[simp] theorem winding_empty (p : Point ℝ) : (empty : Region ℝ).winding p = 0 := rfl

@[simp] theorem winding_ofRing (ring : Ring ℝ) (p : Point ℝ) :
    (ofRing ring).winding p = ring.winding p :=
  add_zero _

@[simp] theorem evenOdd_empty : (empty : Region ℝ).evenOdd = ∅ := by
  ext z
  simp [mem_evenOdd_iff]

/-- Where no point is gone round twice, the even-odd set is measured by the winding numbers. -/
theorem volume_evenOdd {r : Region ℝ} {f : ℝ × ℝ → ℝ}
    (h : ∀ᵐ z : ℝ × ℝ, |r.winding ⟨z.1, z.2⟩| ≤ 1 ∧ (|r.winding ⟨z.1, z.2⟩| : ℤ) = f z) :
    (volume r.evenOdd).toReal = ∫ z, f z := by
  rw [← Measure.real, ← integral_indicator_one r.measurableSet_evenOdd]
  apply integral_congr_ae
  filter_upwards [h] with z hz
  obtain ⟨hle, heq⟩ := hz
  rw [← heq]
  by_cases hodd : Odd (r.winding ⟨z.1, z.2⟩)
  · have hone : |r.winding ⟨z.1, z.2⟩| = 1 :=
      le_antisymm hle (Int.one_le_abs (by intro hzero; simp [hzero] at hodd))
    rw [Set.indicator_of_mem (mem_evenOdd_iff.mpr hodd), hone]
    simp
  · have hzero : r.winding ⟨z.1, z.2⟩ = 0 := by
      obtain ⟨k, hk⟩ := Int.not_odd_iff_even.mp hodd
      rw [abs_le] at hle
      omega
    rw [Set.indicator_of_notMem (fun hmem => hodd (mem_evenOdd_iff.mp hmem)), hzero]
    simp

/-- Almost no point is gone round more than once, and all in one direction. -/
def WindsOnce (r : Region ℝ) : Prop :=
  ∃ s : ℤ, |s| = 1 ∧ ∀ᵐ z : ℝ × ℝ, r.winding ⟨z.1, z.2⟩ = 0 ∨ r.winding ⟨z.1, z.2⟩ = s

theorem windsOnce_empty : (empty : Region ℝ).WindsOnce :=
  ⟨1, abs_one, ae_of_all _ fun _ => .inl rfl⟩

/-- A ring that goes round at most once encloses its even-odd set. -/
theorem volume_evenOdd_ofRing {ring : Ring ℝ} (h : (ofRing ring).WindsOnce) :
    (volume (ofRing ring).evenOdd).toReal = (ofRing ring).area := by
  obtain ⟨s, hs, hwinding⟩ := h
  obtain ⟨-, hintegral⟩ := ring.integral_winding
  have hvolume : (volume (ofRing ring).evenOdd).toReal = s * (ring.sweptAbout ⟨0, 0⟩ / 2) := by
    rw [← hintegral, ← integral_const_mul]
    apply volume_evenOdd
    filter_upwards [hwinding] with z hz
    rw [winding_ofRing] at hz ⊢
    cases hz with
    | inl hzero => simp [hzero]
    | inr hone =>
      rw [hone, hs, ← Int.cast_mul, ← abs_mul_abs_self, hs]
      exact ⟨le_refl 1, by norm_num⟩
  have hunit : |(s : ℝ)| = 1 := by
    rw [← Int.cast_abs, hs, Int.cast_one]
  rw [area_ofRing, Ring.area_eq_sweptAbout ⟨0, 0⟩, ← one_mul |_|, ← hunit, ← abs_mul, ← hvolume,
    abs_of_nonneg ENNReal.toReal_nonneg]

/-- Nothing, or what one ring encloses. -/
def IsSimple (r : Region ℝ) : Prop :=
  r = empty ∨ ∃ ring, r = ofRing ring

theorem isSimple_of_ofPoints? {ps : List (Point ℝ)} {r : Region ℝ} (h : ofPoints? ps = some r) :
    r.IsSimple := by
  obtain ⟨ring, -, rfl⟩ := Option.map_eq_some_iff.mp h
  exact .inr ⟨ring, rfl⟩

theorem IsSimple.volume_evenOdd {r : Region ℝ} (hr : r.IsSimple) (h : r.WindsOnce) :
    (volume r.evenOdd).toReal = r.area := by
  obtain rfl | ⟨ring, rfl⟩ := hr
  · simp
  · exact volume_evenOdd_ofRing h

end Region

end PlanarArea
