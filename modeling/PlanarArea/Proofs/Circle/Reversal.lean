import PlanarArea.Proofs.Circle.CircleCut
import PlanarArea.Proofs.Region.NormalForm

/-!
# Cuts of arcs along a line in the other direction

A line in the other direction crosses an arc in the same points, last one first. The cut between two
crossings sweeps from the offset of the first one to the offset of the second one, so with the
crossings exchanged it is traced backwards, through the same samples. These are not all on one line,
so the ring that is made from them has a direction of its own and comes out the same.
-/
namespace PlanarArea

namespace Angle

/-- Two steps gain strictly on one step over both if neither is empty and they stay short of a full
turn. -/
theorem sin_add_lt {a b : ℝ} (ha : 0 < a) (hb : 0 < b) (hab : a + b < 2 * Real.pi) :
    Real.sin (a + b) < Real.sin a + Real.sin b := by
  have hsin : ∀ {x : ℝ}, 0 < x → x < 2 * Real.pi → 0 < Real.sin (x / 2) :=
    fun h0 h1 => Real.sin_pos_of_pos_of_lt_pi (by linarith) (by linarith)
  have hpos : 0 < Real.sin (a / 2) * Real.sin (b / 2) * Real.sin (a / 2 + b / 2) := by
    rw [← add_div]
    exact mul_pos (mul_pos (hsin ha (by linarith)) (hsin hb (by linarith)))
      (hsin (add_pos ha hb) hab)
  have hfactor := sin_two_mul_add_sub (a / 2) (b / 2)
  rw [mul_add, mul_div_cancel₀ a two_ne_zero, mul_div_cancel₀ b two_ne_zero] at hfactor
  linarith

/-- Three or more angles that ascend strictly, within less than a turn, go round something. -/
theorem sinSteps_pos {x y z : ℝ} {rest : List ℝ}
    (hsort : (x :: y :: z :: rest).Pairwise (· < ·))
    (hspan : ∀ a ∈ z :: rest, a < x + 2 * Real.pi) : 0 < sinSteps (x :: y :: z :: rest) := by
  obtain ⟨hx, hyz⟩ := List.pairwise_cons.mp hsort
  obtain ⟨hy, hz⟩ := List.pairwise_cons.mp hyz
  have hxy : x < y := hx y (by simp)
  have hyz : y < z := hy z (by simp)
  obtain ⟨last, hlast, hle, hlow, -⟩ := sum_sin_ascending x (hz.imp le_of_lt)
    fun a ha => by linarith [hspan a ha]
  have hfirst := sin_add_lt (sub_pos.mpr hxy) (sub_pos.mpr hyz) (by linarith [hspan z (by simp)])
  have hrest := sin_add_le (a := z - x) (b := last - z) (by linarith) (by linarith)
    (by linarith [hspan last hlast])
  have hback : Real.sin (x - last) = -Real.sin (last - x) := by
    rw [← Real.sin_neg, neg_sub]
  have hthird : y - x + (z - y) = z - x := by ring
  have hwhole : z - x + (last - z) = last - x := by ring
  rw [hthird] at hfirst
  rw [hwhole] at hrest
  rw [hback] at hlow
  simp only [sinSteps, List.tail_cons, List.take_succ_cons, List.take_zero, List.cons_append,
    List.zip_cons_cons, List.map_cons, List.sum_cons]
  linarith

theorem sinSteps_ne_zero {angles : List ℝ} (hlen : 3 ≤ angles.length)
    (hsort : angles.Pairwise (· < ·) ∨ angles.Pairwise (· > ·))
    (hspan : ∀ a ∈ angles, ∀ b ∈ angles, a < b + 2 * Real.pi) : sinSteps angles ≠ 0 := by
  cases hsort with
  | inl hup =>
    match angles, hlen with
    | x :: y :: z :: rest, _ =>
      exact (sinSteps_pos hup fun a ha => hspan a (by simp [List.mem_cons.mp ha]) x (by simp)).ne'
  | inr hdown =>
    have hup : (angles.map (-·)).Pairwise (· < ·) := by
      rw [List.pairwise_map]
      exact hdown.imp fun h => neg_lt_neg h
    have hspan' : ∀ a ∈ angles.map (-·), ∀ b ∈ angles.map (-·), a < b + 2 * Real.pi := by
      intro a ha b hb
      obtain ⟨a', ha', rfl⟩ := List.mem_map.mp ha
      obtain ⟨b', hb', rfl⟩ := List.mem_map.mp hb
      linarith [hspan b' hb' a' ha']
    rw [← neg_ne_zero, ← sinSteps_map_neg]
    match angles, hlen with
    | x :: y :: z :: rest, _ =>
      exact (sinSteps_pos hup fun a ha =>
        hspan' a (List.mem_cons_of_mem _ (List.mem_cons_of_mem _ ha)) (-x) (by simp)).ne'

theorem sampleAngles_strict {start sweep : ℝ} (h : sweep ≠ 0) (intervals : ℕ) :
    (sampleAngles start sweep intervals).Pairwise (· < ·) ∨
      (sampleAngles start sweep intervals).Pairwise (· > ·) := by
  have hn : (0 : ℝ) < (max intervals 1 : ℕ) := Nat.cast_pos.mpr (by omega)
  have hstep : ∀ {i j : ℕ}, i < j →
      (i : ℝ) / (max intervals 1 : ℕ) < (j : ℝ) / (max intervals 1 : ℕ) :=
    fun hij => div_lt_div_of_pos_right (Nat.cast_lt.mpr hij) hn
  simp only [sampleAngles, List.pairwise_map]
  cases lt_or_gt_of_ne h with
  | inl hneg =>
    apply Or.inr
    exact List.pairwise_lt_range.imp fun hij => by nlinarith [hstep hij]
  | inr hpos =>
    apply Or.inl
    exact List.pairwise_lt_range.imp fun hij => by nlinarith [hstep hij]

/-- Samples of a sweep of less than a turn enclose an area. -/
theorem signedArea_sampleSweep_ne_zero (center : Point ℝ) {radius start sweep : ℝ}
    {intervals : ℕ} (hr : radius ≠ 0) (hsweep : sweep ≠ 0) (hturn : |sweep| < 2 * Real.pi)
    (hlen : 3 ≤ (sampleSweep center radius start sweep intervals).length) :
    Ring.signedArea (sampleSweep center radius start sweep intervals) ≠ 0 := by
  rw [← abs_ne_zero, Ring.abs_signedArea hlen, sampleSweep_eq_map, Ring.area_onCircle]
  rw [sampleSweep_eq_map, List.length_map] at hlen
  refine mul_ne_zero (div_ne_zero (pow_ne_zero 2 hr) two_ne_zero) (abs_ne_zero.mpr ?_)
  apply sinSteps_ne_zero hlen (sampleAngles_strict hsweep intervals)
  intro a ha b hb
  have hspan := max_sub_min_eq_abs start (start + sweep)
  rw [add_sub_cancel_left] at hspan
  obtain ⟨-, hhigh⟩ := mem_uIcc_of_mem_sampleAngles ha
  obtain ⟨hlow, -⟩ := mem_uIcc_of_mem_sampleAngles hb
  linarith

/-- The angles of a stretch, passed from its other end. -/
theorem image_uIcc_flip (center : Point ℝ) (radius : ℝ) {start stop sweep : ℝ}
    (h : (stop : Real.Angle) = ((start + sweep : ℝ) : Real.Angle)) :
    onCircle center radius '' Set.uIcc stop (stop + -sweep) =
      onCircle center radius '' Set.uIcc start (start + sweep) := by
  have hsub : ∀ {start stop sweep : ℝ}, (stop : Real.Angle) = ((start + sweep : ℝ) : Real.Angle) →
      onCircle center radius '' Set.uIcc stop (stop + -sweep) ⊆
        onCircle center radius '' Set.uIcc start (start + sweep) := by
    rintro start stop sweep h x ⟨angle, hangle, rfl⟩
    refine ⟨angle - stop + (start + sweep), ?_, onCircle_congr ?_⟩
    · rw [Set.mem_uIcc] at hangle ⊢
      cases hangle with
      | inl hup => exact .inr ⟨by linarith, by linarith⟩
      | inr hdown => exact .inl ⟨by linarith, by linarith⟩
    · rw [Real.Angle.coe_add, ← h, ← Real.Angle.coe_add, sub_add_cancel]
  apply Set.Subset.antisymm (hsub h)
  have hback : (start : Real.Angle) = ((stop + -sweep : ℝ) : Real.Angle) := by
    rw [Real.Angle.coe_add, h, ← Real.Angle.coe_add, add_neg_cancel_right]
  have hflipped := hsub hback
  rwa [neg_neg] at hflipped

end Angle

namespace Cut

variable {settings : Settings ℝ} {arc : Arc ℝ} {p q : Point ℝ}

/-- The points in which a line meets an arc. -/
noncomputable def crossings (settings : Settings ℝ) (arc : Arc ℝ) (p q : Point ℝ) : List (Hit ℝ) :=
  (Hit.ofLine settings p q arc.center arc.radius).filter
    fun h => arc.contains h.angle settings.angleSlack

/-- The stretch of an arc that a cut traces. -/
noncomputable def traced? (settings : Settings ℝ) (arc : Arc ℝ) (p q : Point ℝ) :
    Option (Arc ℝ) :=
  match crossings settings arc p q with
  | first :: second :: _ => some (arcBetween arc first.angle second.angle)
  | _ => none

/-- A cut is the region through the samples of the stretch that it traces. -/
theorem arc?_eq_bind (settings : Settings ℝ) (arc : Arc ℝ) (p q : Point ℝ) :
    arc? settings arc p q =
      (traced? settings arc p q).bind fun cut => Region.ofPoints? (cut.cutSamples settings) := by
  unfold arc? traced? crossings
  dsimp only
  generalize List.filter _ _ = hits
  match hits with
  | [] | [_] => rfl
  | _ :: _ :: _ => rfl

/-- Two stretches that are passed in opposite directions through the same samples. -/
structure Retraces (settings : Settings ℝ) (cut back : Arc ℝ) : Prop where
  sweep : back.sweep = -cut.sweep
  start : (back.start : Real.Angle) = ((cut.start + cut.sweep : ℝ) : Real.Angle)
  trace : back.trace = cut.trace
  samples : back.cutSamples settings = (cut.cutSamples settings).reverse

/-- With its crossings exchanged a cut is passed in the opposite direction. -/
theorem retraces_arcBetween (settings : Settings ℝ) (arc : Arc ℝ) (first second : ℝ) :
    Retraces settings (arcBetween arc first second) (arcBetween arc second first) := by
  have hsweep : (arcBetween arc second first).sweep = -(arcBetween arc first second).sweep := by
    rw [sweep_arcBetween, sweep_arcBetween, neg_sub]
  have hstart : (second : Real.Angle) =
      ((first + (arcBetween arc first second).sweep : ℝ) : Real.Angle) := by
    rw [sweep_arcBetween, Real.Angle.coe_add, Real.Angle.coe_sub, Arc.coe_offset, Arc.coe_offset]
    abel
  refine ⟨hsweep, hstart, ?_, ?_⟩
  · rw [Arc.trace, Arc.angles, hsweep]
    exact Angle.image_uIcc_flip arc.center arc.radius hstart
  · rw [Arc.cutSamples, Arc.cutSamples, hsweep, Settings.intervals_neg, Arc.sample, hsweep]
    exact Angle.sampleSweep_flip arc.center arc.radius _ hstart

/-- Two crossings of a line are told apart by their directions. -/
theorem sweep_ne_zero_of_secant {center : Point ℝ} {radius first second : ℝ}
    (h : Secant p q center radius first (Angle.ccwSweep first second)) :
    (arcBetween arc first second).sweep ≠ 0 := by
  intro hzero
  rw [sweep_arcBetween, sub_eq_zero] at hzero
  have hsame := arc.coe_offset first
  rw [← hzero, Arc.coe_offset, sub_left_inj] at hsame
  have hnone : Angle.ccwSweep first second = 0 := by
    apply Angle.ccwSweep_eq_of_coe le_rfl Real.two_pi_pos
    rw [hsame, sub_self, Real.Angle.coe_zero]
  exact h.sweep_pos.ne' hnone

theorem abs_sweep_arcBetween_lt (arc : Arc ℝ) (first second : ℝ) :
    |(arcBetween arc first second).sweep| < 2 * Real.pi := by
  obtain ⟨hpos, hle⟩ := arc.offset_mem first
  obtain ⟨hpos', hle'⟩ := arc.offset_mem second
  rw [sweep_arcBetween, abs_lt]
  exact ⟨by linarith, by linarith⟩

/-- The line in the other direction has the same crossings, last one first. -/
theorem crossings_swap (settings : Settings ℝ) (arc : Arc ℝ) (p q : Point ℝ) :
    crossings settings arc q p = (crossings settings arc p q).reverse := by
  rw [crossings, Hit.ofLine_swap, List.filter_reverse, crossings]

/-- What is traced lies between two crossings, which are all that the line has with the circle. -/
theorem traced?_cases (settings : Settings ℝ) (arc : Arc ℝ) (p q : Point ℝ) :
    traced? settings arc p q = none ∧ traced? settings arc q p = none ∨
      ∃ first second, Hit.ofLine settings p q arc.center arc.radius = [first, second] ∧
        traced? settings arc p q = some (arcBetween arc first.angle second.angle) ∧
        traced? settings arc q p = some (arcBetween arc second.angle first.angle) := by
  have hswap := crossings_swap settings arc p q
  have hsub : List.Sublist (crossings settings arc p q)
      (Hit.ofLine settings p q arc.center arc.radius) := List.filter_sublist
  have hlen := Hit.length_ofLine_le settings p q arc.center arc.radius
  unfold traced?
  rw [hswap]
  match hhits : crossings settings arc p q with
  | [] => exact .inl ⟨rfl, rfl⟩
  | [_] => exact .inl ⟨rfl, rfl⟩
  | [first, second] =>
    rw [hhits] at hsub
    exact .inr ⟨first, second, (hsub.eq_of_length_le hlen).symm, rfl, rfl⟩
  | _ :: _ :: _ :: rest =>
    rw [hhits] at hsub
    have hle := hsub.length_le.trans hlen
    simp at hle

/-- Between two angles that are met within the first turn from the start a cut sweeps straight
on. -/
theorem sweep_arcBetween_of_mem {first second : ℝ}
    (hfirst : first - arc.start ∈ Set.Ioc 0 (2 * Real.pi))
    (hsecond : second - arc.start ∈ Set.Ioc 0 (2 * Real.pi)) :
    (arcBetween arc first second).sweep = second - first := by
  rw [sweep_arcBetween, Arc.offset_eq_of_coe hfirst.1 hfirst.2 (Real.Angle.coe_sub _ _),
    Arc.offset_eq_of_coe hsecond.1 hsecond.2 (Real.Angle.coe_sub _ _)]
  ring

theorem sampleSweep_quarter :
    Angle.sampleSweep (⟨0, 0⟩ : Point ℝ) 5 (Real.pi / 2) (Real.pi / 2) 2 =
      [⟨0, 5⟩, ⟨-(5 * (Real.sqrt 2 / 2)), 5 * (Real.sqrt 2 / 2)⟩, ⟨-5, 0⟩] := by
  have hmiddle : Angle.onCircle (⟨0, 0⟩ : Point ℝ) 5 (Real.pi / 2 + 2⁻¹ * (Real.pi / 2)) =
      ⟨-(5 * (Real.sqrt 2 / 2)), 5 * (Real.sqrt 2 / 2)⟩ := by
    have hquarter : 2⁻¹ * (Real.pi / 2) = Real.pi / 4 := by ring
    rw [hquarter, add_comm]
    simp [Angle.onCircle, Real.cos_add_pi_div_two, Real.sin_add_pi_div_two]
  rw [Angle.sampleSweep_eq_map, Angle.sampleAngles]
  simp [List.range_succ, hmiddle, onCircle_quarters]

theorem chain_sampleSweep_quarter :
    Cycle.Chain Point.Apart (Angle.sampleSweep (⟨0, 0⟩ : Point ℝ) 5 (Real.pi / 2) (Real.pi / 2) 2 :
      Cycle (Point ℝ)) := by
  have hroot : Real.sqrt 2 ^ 2 = 2 := Real.sq_sqrt (by norm_num)
  rw [sampleSweep_quarter, Cycle.chain_coe_cons]
  simp only [List.cons_append, List.nil_append, List.isChain_cons_cons, List.isChain_singleton,
    and_true, ← Point.near_eq_false_iff]
  refine ⟨Point.near_eq_false ?_, Point.near_eq_false ?_, Point.near_eq_false ?_⟩
  · nlinarith
  · nlinarith
  · norm_num

/-- A line cuts an arc in one direction if it does so in the other. The two cuts trace the same
stretch of the arc in opposite directions, through the same samples, and if neighbouring samples are
apart, the last and the first included, they are the same region. -/
theorem arc?_reversed_line (hr : 0 < arc.radius)
    (hapart : ∀ cut ∈ traced? settings arc p q,
      Cycle.Chain Point.Apart (cut.cutSamples settings : Cycle (Point ℝ))) :
    arc? settings arc p q =
        (traced? settings arc p q).bind (fun cut => Region.ofPoints? (cut.cutSamples settings)) ∧
      arc? settings arc q p =
        (traced? settings arc q p).bind (fun cut => Region.ofPoints? (cut.cutSamples settings)) ∧
      Option.Rel (Retraces settings) (traced? settings arc p q) (traced? settings arc q p) ∧
      arc? settings arc q p = arc? settings arc p q := by
  refine ⟨arc?_eq_bind settings arc p q, arc?_eq_bind settings arc q p, ?_⟩
  rw [arc?_eq_bind settings arc p q, arc?_eq_bind settings arc q p]
  obtain ⟨hnone, hnone'⟩ | ⟨first, second, hhits, hcut, hback⟩ := traced?_cases settings arc p q
  · rw [hnone, hnone']
    exact ⟨.none, rfl⟩
  · have hretraces := retraces_arcBetween settings arc first.angle second.angle
    rw [hcut, hback]
    refine ⟨.some hretraces, ?_⟩
    obtain ⟨-, -, hsecant⟩ := Hit.secant_of_ofLine_pair hr hhits
    rw [Option.bind_some, Option.bind_some, hretraces.samples, Region.ofPoints?, Region.ofPoints?,
      Ring.ofPoints?_reverse (hapart _ hcut)]
    exact Angle.signedArea_sampleSweep_ne_zero arc.center hr.ne' (sweep_ne_zero_of_secant hsecant)
      (abs_sweep_arcBetween_lt arc first.angle second.angle)

section ThreeQuarters

/-- The three-quarter arc from `(5, 0)`. -/
noncomputable def threeQuarters : Arc ℝ :=
  ⟨⟨0, 0⟩, 5, 0, 3 * Real.pi / 2⟩

/-- The part of it from `(0, 5)` to `(-5, 0)`. -/
noncomputable def topLeft : Arc ℝ :=
  arcBetween threeQuarters (Real.pi / 2) Real.pi

/-- Settings by which a quarter of a circle has two intervals. -/
noncomputable def fewSamples : Settings ℝ :=
  { Settings.default with cutMinPoints := 2, pointsPerRadian := 1 }

theorem crossings_threeQuarters : crossings fewSamples threeQuarters ⟨0, 5⟩ ⟨-5, 0⟩ =
    [⟨⟨0, 5⟩, Real.pi / 2⟩, ⟨⟨-5, 0⟩, Real.pi⟩] := by
  have hpi := Real.pi_pos
  have hline : Hit.ofLine fewSamples ⟨0, 5⟩ ⟨-5, 0⟩ threeQuarters.center threeQuarters.radius =
      [⟨⟨0, 5⟩, Real.pi / 2⟩, ⟨⟨-5, 0⟩, Real.pi⟩] := ofLine_top_left
  rw [crossings, hline]
  exact filter_of_contains
    (contains_of_le_sweep Real.pi_div_two_pos.le (by linarith : Real.pi / 2 ≤ 3 * Real.pi / 2)
      (by linarith))
    (contains_of_le_sweep hpi.le (by linarith : Real.pi ≤ 3 * Real.pi / 2) (by linarith))

theorem traced?_threeQuarters :
    traced? fewSamples threeQuarters ⟨0, 5⟩ ⟨-5, 0⟩ = some topLeft := by
  rw [traced?, crossings_threeQuarters, topLeft]

theorem sweep_topLeft : topLeft.sweep = Real.pi / 2 := by
  have hpi := Real.pi_pos
  rw [topLeft, sweep_arcBetween_of_mem]
  · ring
  · exact (⟨by linarith, by linarith⟩ : Real.pi / 2 - 0 ∈ Set.Ioc 0 (2 * Real.pi))
  · exact (⟨by linarith, by linarith⟩ : Real.pi - 0 ∈ Set.Ioc 0 (2 * Real.pi))

theorem intervals_quarter : fewSamples.intervals (Real.pi / 2) fewSamples.cutMinPoints = 2 := by
  have hfloor : ⌊|Real.pi / 2| * 1⌋₊ ≤ 2 := by
    rw [abs_of_pos Real.pi_div_two_pos, mul_one]
    exact Nat.floor_le_of_le (by norm_num; linarith [Real.pi_le_four])
  simp only [Settings.intervals, fewSamples, Scalar.real_abs, Scalar.real_mul, Scalar.real_truncate]
  omega

theorem chain_cutSamples_topLeft :
    Cycle.Chain Point.Apart (topLeft.cutSamples fewSamples : Cycle (Point ℝ)) := by
  rw [Arc.cutSamples, Arc.sample, sweep_topLeft, intervals_quarter]
  exact chain_sampleSweep_quarter

/-- The line through `(0, 5)` and `(-5, 0)` and a three-quarter arc, with a cut of three samples. -/
theorem arc?_reversed_line_three_quarters :
    let arc : Arc ℝ := ⟨⟨0, 0⟩, 5, 0, 3 * Real.pi / 2⟩
    let settings : Settings ℝ := { Settings.default with cutMinPoints := 2, pointsPerRadian := 1 }
    let cut := arcBetween arc (Real.pi / 2) Real.pi
    (0 : ℝ) < 5 ∧ traced? settings arc ⟨0, 5⟩ ⟨-5, 0⟩ = some cut ∧
      Cycle.Chain Point.Apart (cut.cutSamples settings : Cycle (Point ℝ)) ∧
      (∃ back, traced? settings arc ⟨-5, 0⟩ ⟨0, 5⟩ = some back ∧ Retraces settings cut back) ∧
      arc? settings arc ⟨-5, 0⟩ ⟨0, 5⟩ = arc? settings arc ⟨0, 5⟩ ⟨-5, 0⟩ := by
  intro arc settings cut
  have hr : (0 : ℝ) < 5 := by norm_num
  have htraced : traced? settings arc ⟨0, 5⟩ ⟨-5, 0⟩ = some cut := traced?_threeQuarters
  obtain ⟨-, -, hrel, hsame⟩ := @arc?_reversed_line settings arc ⟨0, 5⟩ ⟨-5, 0⟩ hr
    fun cut' hcut' => by
      rw [htraced, Option.mem_some_iff] at hcut'
      exact hcut' ▸ chain_cutSamples_topLeft
  rw [htraced] at hrel
  generalize htraced' : traced? settings arc ⟨-5, 0⟩ ⟨0, 5⟩ = back at hrel
  cases hrel with
  | some hretraces =>
    exact ⟨hr, htraced, chain_cutSamples_topLeft, ⟨_, rfl, hretraces⟩, hsame⟩

end ThreeQuarters

end Cut

end PlanarArea
