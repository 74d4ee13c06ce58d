import PlanarArea.Circle.Cut
import PlanarArea.Proofs.Plane.Wrap
import PlanarArea.Proofs.Region.EvenOdd

/-!
# Fans

A ring whose corners are passed in one direction, as seen from the first one, is a fan of triangles.
The triangles lie side by side, so the ring goes round no point twice. Rings along an ellipse or an
arc of a circle are such fans.
-/
namespace PlanarArea

open MeasureTheory

namespace Point

variable {a b c p : Point ℝ}

theorem cross_rotate (a b c : Point ℝ) : cross b c a = cross a b c := by
  rw [cross_eq, cross_eq]
  ring

theorem cross_flip (a b c : Point ℝ) : cross a c b = -cross a b c := by
  rw [cross_eq, cross_eq]
  ring

/-- The three parts into which a point divides a triangle. -/
theorem cross_add_cross (a b c p : Point ℝ) :
    cross b c p + cross c a p + cross a b p = cross a b c := by
  simp only [cross_eq]
  ring

/-- The parts are the weights with which the corners balance at the point. -/
theorem cross_balance (a b c p : Point ℝ) :
    cross b c p * (a.x - p.x) + cross c a p * (b.x - p.x) + cross a b p * (c.x - p.x) = 0 := by
  simp only [cross_eq]
  ring

/-- A line has measure zero. -/
theorem ae_cross_ne_zero (h : b ≠ a) : ∀ᵐ z : ℝ × ℝ, cross a b ⟨z.1, z.2⟩ ≠ 0 := by
  by_cases hx : b.x = a.x
  · have hy : b.y - a.y ≠ 0 := fun hy => h (eq_of_coords hx (sub_eq_zero.mp hy))
    have hoff : ∀ᵐ z : ℝ × ℝ, z.1 ≠ a.x :=
      Measure.quasiMeasurePreserving_fst.ae (Measure.ae_ne volume a.x)
    filter_upwards [hoff] with z hz
    rw [cross_eq, hx, sub_self, zero_mul, zero_sub, neg_ne_zero]
    exact mul_ne_zero hy (sub_ne_zero.mpr hz)
  · have hslice : ∀ x : ℝ, volume {y : ℝ | cross a b ⟨x, y⟩ = 0} = 0 := by
      intro x
      apply Set.Subsingleton.measure_zero
      intro y hy y' hy'
      rw [Set.mem_ofPred_eq, cross_eq] at hy hy'
      exact sub_left_injective (mul_left_cancel₀ (sub_ne_zero.mpr hx) (by linarith))
    have hmeasurable : MeasurableSet {z : ℝ × ℝ | cross a b ⟨z.1, z.2⟩ = 0} := by
      simp only [cross_eq]
      exact measurableSet_eq_fun (by fun_prop) measurable_const
    rw [ae_iff]
    simp only [not_ne_iff]
    rw [Measure.volume_eq_prod, Measure.measure_prod_null hmeasurable]
    exact ae_of_all _ hslice

/-- A point of a triangle that is not flat and has its corners in counter-clockwise order. -/
structure Within (a b c p : Point ℝ) : Prop where
  ab : 0 ≤ cross a b p
  bc : 0 ≤ cross b c p
  ca : 0 ≤ cross c a p
  pos : 0 < cross a b c

theorem Within.rotate (h : Within a b c p) : Within b c a p where
  ab := h.bc
  bc := h.ca
  ca := h.ab
  pos := by
    rw [cross_rotate]
    exact h.pos

/-- A line through the first corner has the point on the side on which it has the other corners. -/
theorem Within.same_side (h : Within a b c p) {v : Point ℝ} {t : ℝ} (hb : 0 ≤ t * cross a v b)
    (hc : 0 ≤ t * cross a v c) : 0 ≤ t * cross a v p := by
  have hmix : cross a b c * (t * cross a v p) =
      cross c a p * (t * cross a v b) + cross a b p * (t * cross a v c) := by
    simp only [cross_eq]
    ring
  have hnonneg : 0 ≤ cross a b c * (t * cross a v p) := by
    rw [hmix]
    exact add_nonneg (mul_nonneg h.ca hb) (mul_nonneg h.ab hc)
  exact nonneg_of_mul_nonneg_right hnonneg h.pos

end Point

namespace Ring

open Point (cross crossing Within)

variable {a b c p : Point ℝ}

theorem winding_triangle (a b c p : Point ℝ) :
    winding [a, b, c] p = crossing a b p + crossing b c p + crossing c a p := by
  simp [winding, edges, add_assoc]

/-- Of a triangle in counter-clockwise order, one corner lies on one side of the vertical through
the point and two on the other. -/
theorem winding_of_corner_apart (hpos : 0 ≤ cross a b c) (hapart : a.x ≤ p.x ↔ ¬ b.x ≤ p.x)
    (hsame : b.x ≤ p.x ↔ c.x ≤ p.x) :
    winding [a, b, c] p = 0 ∨ winding [a, b, c] p = 1 ∧ Within a b c p := by
  have hparts := Point.cross_add_cross a b c p
  have hbalance := Point.cross_balance a b c p
  rw [winding_triangle, Point.crossing_of_same_side hsame, add_zero]
  by_cases ha : a.x ≤ p.x
  · have hb : p.x < b.x := not_le.mp (hapart.mp ha)
    have hc : p.x < c.x := not_le.mp fun h => hapart.mp ha (hsame.mpr h)
    rw [Point.crossing_to_right ha hb, Point.crossing_to_left hc ha]
    by_cases hab : cross a b p < 0
    · have hca : 0 < cross c a p := by
        by_contra hca
        nlinarith
      exact .inl (by simp [hab, hca])
    · by_cases hca : 0 < cross c a p
      · have hbc : 0 ≤ cross b c p := by
          by_contra hbc
          nlinarith
        exact .inr ⟨by simp [hab, hca], not_lt.mp hab, hbc, hca.le, by linarith⟩
      · exact .inl (by simp [hab, hca])
  · have hb : b.x ≤ p.x := by
      by_contra hb
      exact ha (hapart.mpr hb)
    have hc : c.x ≤ p.x := hsame.mp hb
    have ha : p.x < a.x := not_le.mp ha
    rw [Point.crossing_to_left ha hb, Point.crossing_to_right hc ha]
    by_cases hca : cross c a p < 0
    · have hab : 0 < cross a b p := by
        by_contra hab
        nlinarith
      exact .inl (by simp [hab, hca])
    · by_cases hab : 0 < cross a b p
      · have hbc : 0 ≤ cross b c p := by
          by_contra hbc
          nlinarith
        exact .inr ⟨by simp [hab, hca], hab.le, hbc, not_lt.mp hca, by linarith⟩
      · exact .inl (by simp [hab, hca])

/-- A triangle in counter-clockwise order goes round its own points, and at most once. -/
theorem winding_triangle_eq (hpos : 0 ≤ cross a b c) :
    winding [a, b, c] p = 0 ∨ winding [a, b, c] p = 1 ∧ Within a b c p := by
  have hrotate : ∀ a b c : Point ℝ, winding [b, c, a] p = winding [a, b, c] p := by
    intro a b c
    rw [winding_triangle, winding_triangle]
    ring
  by_cases hab : a.x ≤ p.x ↔ b.x ≤ p.x
  · by_cases hbc : b.x ≤ p.x ↔ c.x ≤ p.x
    · left
      rw [winding_triangle, Point.crossing_of_same_side hab, Point.crossing_of_same_side hbc,
        Point.crossing_of_same_side (hbc.symm.trans hab.symm)]
      rfl
    · rw [← hrotate, ← hrotate]
      refine (winding_of_corner_apart ?_ (by tauto) hab).imp_right ?_
      · rwa [Point.cross_rotate, Point.cross_rotate]
      · exact fun h => ⟨h.1, h.2.rotate⟩
  · by_cases hbc : b.x ≤ p.x ↔ c.x ≤ p.x
    · exact winding_of_corner_apart hpos (by tauto) hbc
    · rw [← hrotate]
      refine (winding_of_corner_apart ?_ (by tauto) (by tauto)).imp_right ?_
      · rwa [Point.cross_rotate]
      · exact fun h => ⟨h.1, h.2.rotate.rotate⟩

/-- What a triangle with corners in the direction `s` goes round: its own points, and those once.
They lie beyond the last side, and a line through the first corner that has the other corners on one
side has them there too. -/
theorem winding_triangle_of_sign {s : ℤ} (hs : |s| = 1) (hsign : 0 ≤ s * cross a b c) :
    winding [a, b, c] p = 0 ∨ winding [a, b, c] p = s ∧ 0 < s * cross a b c ∧
      s * cross a c p ≤ 0 ∧
      ∀ v, 0 ≤ s * cross a v b → 0 ≤ s * cross a v c → 0 ≤ s * cross a v p := by
  rcases (abs_eq zero_le_one).mp hs with rfl | rfl
  · rw [Int.cast_one, one_mul] at hsign
    refine (winding_triangle_eq hsign).imp_right ?_
    rintro ⟨hone, hwithin⟩
    have hca := hwithin.ca
    rw [Point.cross_swap, Left.nonneg_neg_iff] at hca
    refine ⟨hone, ?_, ?_, fun v => hwithin.same_side⟩
    · simpa using hwithin.pos
    · simpa using hca
  · have hflip : winding [a, b, c] p = -winding [a, c, b] p := by
      rw [winding_triangle, winding_triangle, Point.crossing_swap c a, Point.crossing_swap b c,
        Point.crossing_swap a b]
      ring
    rw [Int.cast_neg, Int.cast_one, neg_one_mul, ← Point.cross_flip] at hsign
    rw [hflip, neg_eq_zero, neg_inj]
    refine (winding_triangle_eq hsign).imp_right ?_
    rintro ⟨hone, hwithin⟩
    refine ⟨hone, ?_, ?_, fun v hb hc => hwithin.same_side hc hb⟩
    · simpa [← Point.cross_flip] using hwithin.pos
    · simpa using hwithin.ab

/-- As seen from the first corner, the others are passed in one direction: counter-clockwise for
`s = 1`, clockwise for `s = -1`. -/
def Fans (s : ℤ) : Ring ℝ → Prop
  | [] => True
  | o :: ps => ps.Pairwise fun q r => 0 ≤ s * cross o q r

/-- Without its second corner a ring goes round what is left after the first triangle. -/
theorem winding_cons_cons_cons (o q r : Point ℝ) (ps : List (Point ℝ)) (p : Point ℝ) :
    winding (o :: q :: r :: ps) p = winding [o, q, r] p + winding (o :: r :: ps) p := by
  rw [winding_triangle, Point.crossing_swap o r]
  simp only [winding, edges, List.tail_cons, List.take_succ_cons, List.take_zero, List.cons_append,
    List.zip_cons_cons, List.map_cons, List.sum_cons]
  ring

/-- Off the lines through its first corner, a fan goes round a point at most once. -/
theorem winding_of_fans {s : ℤ} (hs : |s| = 1) {o : Point ℝ} {ps : List (Point ℝ)}
    (h : Fans s (o :: ps)) (hoff : ∀ q ∈ ps, q ≠ o → cross o q p ≠ 0) :
    winding (o :: ps) p = 0 ∨ winding (o :: ps) p = s ∧
      ∀ v, (∀ q ∈ ps, 0 ≤ s * cross o v q) → 0 ≤ s * cross o v p := by
  induction ps with
  | nil => simp [winding, edges, crossing]
  | cons q ps ih =>
    obtain ⟨hq, hps⟩ := List.pairwise_cons.mp h
    have ih := ih hps fun r hr => hoff r (List.mem_cons_of_mem q hr)
    cases ps with
    | nil =>
      left
      simp [winding, edges, Point.crossing_swap o q]
    | cons r ps =>
      rw [winding_cons_cons_cons]
      have htriangle := winding_triangle_of_sign (p := p) hs (hq r List.mem_cons_self)
      cases htriangle with
      | inl hzero =>
        rw [hzero, zero_add]
        refine ih.imp_right ?_
        rintro ⟨hone, hleft⟩
        exact ⟨hone, fun v hv => hleft v fun t ht => hv t (List.mem_cons_of_mem q ht)⟩
      | inr hthere =>
        obtain ⟨hone, hpos, hbeyond, hside⟩ := hthere
        have hrest : winding (o :: r :: ps) p = 0 := by
          refine ih.resolve_right ?_
          rintro ⟨-, hleft⟩
          -- The point would lie on the line that parts the triangle from the rest of the fan.
          have hwithin : 0 ≤ s * cross o r p := hleft r fun t ht => by
            cases List.mem_cons.mp ht with
            | inl heq => simp [heq, Point.cross_eq, mul_comm]
            | inr ht => exact (List.pairwise_cons.mp hps).1 t ht
          have hne : r ≠ o := by
            rintro rfl
            simp [Point.cross_eq] at hpos
          have hline : (s : ℝ) * cross o r p = 0 := le_antisymm hbeyond hwithin
          have hunit : (s : ℝ) ≠ 0 := by
            rintro hzero
            simp [Int.cast_eq_zero.mp hzero] at hs
          exact hoff r (by simp) hne ((mul_eq_zero.mp hline).resolve_left hunit)
        rw [hrest, add_zero]
        exact .inr ⟨hone, fun v hv => hside v (hv q (by simp)) (hv r (by simp))⟩

theorem windsOnce_of_fans {s : ℤ} (hs : |s| = 1) {ring : Ring ℝ} (h : ring.Fans s) :
    (Region.ofRing ring).WindsOnce := by
  refine ⟨s, hs, ?_⟩
  cases ring with
  | nil => exact ae_of_all _ fun _ => .inl rfl
  | cons o ps =>
    have hoff : ∀ᵐ z : ℝ × ℝ, ∀ q ∈ ps, q ≠ o → cross o q ⟨z.1, z.2⟩ ≠ 0 := by
      refine (Filter.eventually_all_finite ps.finite_toSet).mpr fun q _ => ?_
      exact Filter.eventually_imp_distrib_left.mpr Point.ae_cross_ne_zero
    filter_upwards [hoff] with z hz
    rw [Region.winding_ofRing]
    exact (winding_of_fans hs h hz).imp_right And.left

end Ring

namespace Angle

/-- The point of a turned ellipse at a parameter. -/
noncomputable def onEllipse (center : Point ℝ) (rx ry rotation t : ℝ) : Point ℝ :=
  ⟨center.x + rx * Real.cos t * Real.cos rotation - ry * Real.sin t * Real.sin rotation,
    center.y + rx * Real.cos t * Real.sin rotation + ry * Real.sin t * Real.cos rotation⟩

theorem onEllipse_circle (center : Point ℝ) (radius : ℝ) :
    onEllipse center radius radius 0 = onCircle center radius := by
  funext t
  simp [onEllipse, onCircle]

theorem cross_onEllipse (center : Point ℝ) (rx ry rotation t u v : ℝ) :
    Point.cross (onEllipse center rx ry rotation t) (onEllipse center rx ry rotation u)
        (onEllipse center rx ry rotation v) =
      rx * ry * (Real.sin (u - t) + Real.sin (v - u) - Real.sin (v - t)) := by
  simp only [Point.cross_eq, onEllipse, Real.sin_sub]
  linear_combination rx * ry *
    (Real.sin u * Real.cos t - Real.cos u * Real.sin t + (Real.sin v * Real.cos u -
      Real.cos v * Real.sin u) - (Real.sin v * Real.cos t - Real.cos v * Real.sin t)) *
    Real.sin_sq_add_cos_sq rotation

variable {center : Point ℝ} {rx ry rotation : ℝ}

theorem cross_onEllipse_nonneg (hr : 0 ≤ rx * ry) {t u v : ℝ} (htu : t ≤ u) (huv : u ≤ v)
    (hturn : v ≤ t + 2 * Real.pi) :
    0 ≤ Point.cross (onEllipse center rx ry rotation t) (onEllipse center rx ry rotation u)
      (onEllipse center rx ry rotation v) := by
  have hstep := sin_add_le (sub_nonneg.mpr htu) (sub_nonneg.mpr huv) (by linarith)
  have htotal : u - t + (v - u) = v - t := by ring
  rw [htotal] at hstep
  rw [cross_onEllipse]
  exact mul_nonneg hr (by linarith)

variable (center rotation) in
/-- Points of an ellipse at ascending or at descending parameters, within one turn, are a fan. -/
theorem exists_fans_onEllipse (hr : 0 ≤ rx * ry) {angles : List ℝ} {lo : ℝ}
    (hsort : angles.Pairwise (· ≤ ·) ∨ angles.Pairwise (· ≥ ·))
    (hmem : ∀ a ∈ angles, lo ≤ a ∧ a ≤ lo + 2 * Real.pi) :
    ∃ s : ℤ, |s| = 1 ∧ Ring.Fans s (angles.map (onEllipse center rx ry rotation)) := by
  cases angles with
  | nil => exact ⟨1, abs_one, trivial⟩
  | cons t ts =>
    have hturn : ∀ u ∈ t :: ts, ∀ v ∈ t :: ts, v ≤ u + 2 * Real.pi :=
      fun u hu v hv => (hmem v hv).2.trans (by linarith [(hmem u hu).1])
    cases hsort with
    | inl hup =>
      obtain ⟨ht, hts⟩ := List.pairwise_cons.mp hup
      refine ⟨1, abs_one, List.pairwise_map.mpr (hts.imp_of_mem ?_)⟩
      intro u v hu hv huv
      rw [Int.cast_one, one_mul]
      exact cross_onEllipse_nonneg hr (ht u hu) huv
        (hturn t List.mem_cons_self v (List.mem_cons_of_mem t hv))
    | inr hdown =>
      obtain ⟨ht, hts⟩ := List.pairwise_cons.mp hdown
      refine ⟨-1, by simp, List.pairwise_map.mpr (hts.imp_of_mem ?_)⟩
      intro u v hu hv huv
      rw [Int.cast_neg, Int.cast_one, neg_one_mul, ← Point.cross_flip, ← Point.cross_rotate]
      exact cross_onEllipse_nonneg hr huv (ht u hu)
        (hturn v (List.mem_cons_of_mem t hv) t List.mem_cons_self)

end Angle

namespace Region

variable {center : Point ℝ} {rx ry rotation : ℝ} {region : Region ℝ}

/-- A region through points of an ellipse, taken in order within one turn, is gone round once. -/
theorem windsOnce_of_onEllipse (hr : 0 ≤ rx * ry) {angles : List ℝ} (lo : ℝ)
    (hsort : angles.Pairwise (· ≤ ·) ∨ angles.Pairwise (· ≥ ·))
    (hmem : ∀ a ∈ angles, lo ≤ a ∧ a ≤ lo + 2 * Real.pi)
    (h : ofPoints? (angles.map (Angle.onEllipse center rx ry rotation)) = some region) :
    region.WindsOnce := by
  obtain ⟨kept, rfl, hsub, hkept⟩ := exists_of_ofPoints?_map hsort h
  obtain ⟨s, hs, hfans⟩ := Angle.exists_fans_onEllipse center rotation hr hkept
    fun a ha => hmem a (hsub ha)
  exact Ring.windsOnce_of_fans hs hfans

/-- An ellipse is made from points at equal steps of the parameter. -/
theorem ofEllipse?_eq (hx : 0 < rx) (hy : 0 < ry) (samples : ℕ) :
    ofEllipse? center rx ry rotation samples =
      ofPoints? (((List.range (max samples 3)).map fun k : ℕ =>
        2 * Real.pi * k / (max samples 3 : ℕ)).map (Angle.onEllipse center rx ry rotation)) := by
  simp only [ofEllipse?, Scalar.real_lt, Scalar.real_zero, if_pos (And.intro hx hy), List.map_map,
    Function.comp_def, Angle.onEllipse, Angle.turn_eq, Scalar.real_add, Scalar.real_sub,
    Scalar.real_mul, Scalar.real_div, Scalar.real_cos, Scalar.real_sin, Scalar.real_ofNat]

theorem pos_of_ofEllipse? {samples : ℕ}
    (h : ofEllipse? center rx ry rotation samples = some region) : 0 < rx ∧ 0 < ry := by
  simp only [ofEllipse?, Scalar.real_lt, Scalar.real_zero] at h
  split at h
  · assumption
  · cases h

theorem ofEllipse?_windsOnce {samples : ℕ}
    (h : ofEllipse? center rx ry rotation samples = some region) :
    region.IsSimple ∧ region.WindsOnce := by
  obtain ⟨hx, hy⟩ := pos_of_ofEllipse? h
  rw [ofEllipse?_eq hx hy] at h
  refine ⟨isSimple_of_ofPoints? h, ?_⟩
  have hn : (0 : ℝ) < (max samples 3 : ℕ) := Nat.cast_pos.mpr (by omega)
  have hpi := Real.pi_pos
  have hstep : ∀ {i j : ℕ}, i ≤ j →
      2 * Real.pi * i / (max samples 3 : ℕ) ≤ 2 * Real.pi * j / (max samples 3 : ℕ) := by
    intro i j hij
    have hcast : (i : ℝ) ≤ j := Nat.cast_le.mpr hij
    gcongr
  refine windsOnce_of_onEllipse (mul_pos hx hy).le 0 (.inl ?_) ?_ h
  · exact List.pairwise_map.mpr (List.pairwise_lt_range.imp fun hij => hstep hij.le)
  · intro a ha
    obtain ⟨k, hk, rfl⟩ := List.mem_map.mp ha
    have hlast := hstep (List.mem_range.mp hk).le
    rw [mul_div_assoc, mul_div_assoc, div_self hn.ne', mul_one] at hlast
    rw [mul_div_assoc, zero_add]
    exact ⟨by positivity, hlast⟩

theorem arc_windsOnce (settings : Settings ℝ) {arc : Arc ℝ} (hsweep : |arc.sweep| ≤ 2 * Real.pi) :
    (arc.region settings).IsSimple ∧ (arc.region settings).WindsOnce := by
  rw [Arc.region]
  cases hregion : ofPoints? (arc.sample (settings.intervals arc.sweep settings.arcMinPoints)) with
  | none => exact ⟨.inl rfl, windsOnce_empty⟩
  | some region =>
    refine ⟨isSimple_of_ofPoints? hregion, ?_⟩
    rw [Arc.sample, Angle.sampleSweep_eq_map, ← Angle.onEllipse_circle] at hregion
    refine windsOnce_of_onEllipse (mul_self_nonneg _) (min arc.start (arc.start + arc.sweep))
      (Angle.sampleAngles_sorted _ _ _) ?_ hregion
    intro a ha
    obtain ⟨hlow, hhigh⟩ := Angle.mem_uIcc_of_mem_sampleAngles ha
    have hspan := max_sub_min_eq_abs arc.start (arc.start + arc.sweep)
    rw [add_sub_cancel_left] at hspan
    exact ⟨hlow, by linarith⟩

end Region

namespace Arc

theorem abs_sweepBetween_le (start stop : ℝ) (major : Bool) :
    |sweepBetween start stop major| ≤ 2 * Real.pi := by
  have hlow := Angle.ccwSweep_nonneg start stop
  have hhigh := Angle.ccwSweep_lt start stop
  have hpi := Real.pi_pos
  rw [abs_le]
  simp only [sweepBetween, Angle.turn_eq, Scalar.real_sub, Scalar.real_neg]
  cases major
  all_goals
    split
    · split <;> constructor <;> linarith
    · split <;> constructor <;> linarith

end Arc

end PlanarArea
