import Mathlib.Analysis.Convex.Hull
import PlanarArea.Circle.Cut
import PlanarArea.Proofs.Circle.Chord
import PlanarArea.Proofs.Circle.Offset
import PlanarArea.Proofs.Region.Inscribed

/-!
# Cuts of arcs

The two crossings of an arc have offsets from its start, taken counter-clockwise in one turn and
with the start itself counted as a full turn. The cut sweeps from one offset to the other, so it
never passes over the start. It stays on a clockwise arc always. On a counter-clockwise arc, a
crossing at the start should count as nothing instead of a full turn, and the cut leaves the arc if
this happens to one crossing only.
-/
namespace PlanarArea

def Point.toPair (p : Point ℝ) : ℝ × ℝ :=
  (p.x, p.y)

/-- The convex hull of the outer corners of a region. -/
def Region.hull (r : Region ℝ) : Set (ℝ × ℝ) :=
  convexHull ℝ {z | ∃ p ∈ r.polygons, ∃ c ∈ p.exterior, c.toPair = z}

namespace Arc

/-- The circular segment of an arc with the slack at both ends: the hull of its points. -/
def segment (arc : Arc ℝ) (slack : ℝ) : Set (ℝ × ℝ) :=
  convexHull ℝ {z | ∃ angle, arc.Covers slack angle ∧
    (Angle.onCircle arc.center arc.radius angle).toPair = z}

/-- The area of that segment. -/
noncomputable def segmentArea (arc : Arc ℝ) (slack : ℝ) : ℝ :=
  arc.radius ^ 2 / 2 * Angle.capOf (min (|arc.sweep| + 2 * slack) (2 * Real.pi))

end Arc

namespace Cut

variable {arc : Arc ℝ} {first second : ℝ}

/-- A cut sweeps from the offset of its first crossing to that of its second one. -/
theorem sweep_arcBetween :
    (arcBetween arc first second).sweep = arc.offset second - arc.offset first := by
  obtain ⟨hpos, hle⟩ := arc.offset_mem first
  obtain ⟨hpos', hle'⟩ := arc.offset_mem second
  have hcoe := arc.coe_offset first
  have hcoe' := arc.coe_offset second
  have htoStart : Angle.ccwSweep first arc.start = 2 * Real.pi - arc.offset first := by
    apply Angle.ccwSweep_eq_of_coe (by linarith) (by linarith)
    rw [Real.Angle.coe_sub, Real.Angle.coe_two_pi, hcoe, zero_sub, neg_sub]
  simp only [arcBetween, Scalar.real_lt, Scalar.real_neg, Scalar.real_sub, Angle.turn_eq, htoStart]
  cases le_or_gt (arc.offset first) (arc.offset second) with
  | inl h =>
    have hccw : Angle.ccwSweep first second = arc.offset second - arc.offset first := by
      apply Angle.ccwSweep_eq_of_coe (by linarith) (by linarith)
      rw [Real.Angle.coe_sub, hcoe, hcoe', sub_sub_sub_cancel_right]
    rw [hccw, if_neg (by linarith)]
  | inr h =>
    have hccw : Angle.ccwSweep first second =
        arc.offset second - arc.offset first + 2 * Real.pi := by
      apply Angle.ccwSweep_eq_of_coe (by linarith) (by linarith)
      rw [Real.Angle.coe_add, Real.Angle.coe_sub, Real.Angle.coe_two_pi, hcoe, hcoe',
        sub_sub_sub_cancel_right, add_zero]
    rw [hccw, if_pos (by linarith)]
    ring

/-- An angle of a cut and its offset from the start of the arc. -/
theorem coe_eq_start_add (arc : Arc ℝ) (first angle : ℝ) :
    (angle : Real.Angle) = ((arc.start + (angle - first + arc.offset first) : ℝ) : Real.Angle) := by
  rw [Real.Angle.coe_add, Real.Angle.coe_add, Real.Angle.coe_sub, Arc.coe_offset]
  abel

theorem mem_angles_arcBetween {angle : ℝ} :
    angle ∈ (arcBetween arc first second).angles ↔
      angle - first + arc.offset first ∈ Set.uIcc (arc.offset first) (arc.offset second) := by
  have hstart : (arcBetween arc first second).start = first := rfl
  rw [Arc.angles, sweep_arcBetween, hstart, Set.mem_uIcc, Set.mem_uIcc]
  constructor
  · intro h
    cases h with
    | inl h => exact .inl ⟨by linarith, by linarith⟩
    | inr h => exact .inr ⟨by linarith, by linarith⟩
  · intro h
    cases h with
    | inl h => exact .inl ⟨by linarith, by linarith⟩
    | inr h => exact .inr ⟨by linarith, by linarith⟩

/-- A cut does not pass over the start of the arc. -/
theorem ne_start_of_mem_innerAngles {angle : ℝ}
    (h : angle ∈ (arcBetween arc first second).innerAngles) : (angle : Real.Angle) ≠ arc.start := by
  have hstart : (arcBetween arc first second).start = first := rfl
  obtain ⟨hpos, hle⟩ := arc.offset_mem first
  obtain ⟨hpos', hle'⟩ := arc.offset_mem second
  have hwithin : 0 < angle - first + arc.offset first ∧
      angle - first + arc.offset first < 2 * Real.pi := by
    rw [Arc.innerAngles, sweep_arcBetween, hstart] at h
    cases le_total (arc.offset first) (arc.offset second) with
    | inl hup =>
      rw [Set.uIoo_of_le (by linarith)] at h
      exact ⟨by linarith [h.1], by linarith [h.2]⟩
    | inr hdown =>
      rw [Set.uIoo_of_ge (by linarith)] at h
      exact ⟨by linarith [h.1], by linarith [h.2]⟩
  intro hangle
  have hturn := Arc.offset_eq_two_pi_iff.mpr hangle
  have hoffset : arc.offset angle = angle - first + arc.offset first := by
    apply Arc.offset_eq_of_coe hwithin.1 hwithin.2.le
    rw [coe_eq_start_add arc first angle, Real.Angle.coe_add arc.start, add_sub_cancel_left]
  linarith [hwithin.2]

/-- The condition under which a cut keeps to its arc: the arc is clockwise, or both crossings or
none are its start, or it closes up within the slack. -/
def KeepsToArc (arc : Arc ℝ) (slack first second : ℝ) : Prop :=
  arc.sweep < 0 ∨ ((first : Real.Angle) = arc.start ↔ (second : Real.Angle) = arc.start) ∨
    2 * Real.pi ≤ arc.sweep + 2 * slack

variable {slack : ℝ}

/-- Where the crossings of a cut that keeps to its arc lie. -/
theorem offsets_of_keepsToArc (hfirst : arc.contains first slack = true)
    (hsecond : arc.contains second slack = true) (hkeeps : KeepsToArc arc slack first second) :
    (arc.sweep < 0 ∧ 2 * Real.pi + arc.sweep - slack ≤ arc.offset first ∧
        2 * Real.pi + arc.sweep - slack ≤ arc.offset second) ∨
      (0 ≤ arc.sweep ∧ (arc.offset first = 2 * Real.pi ∧ arc.offset second = 2 * Real.pi ∨
        arc.offset first ≤ arc.sweep + slack ∧ arc.offset second ≤ arc.sweep + slack ∨
        2 * Real.pi ≤ arc.sweep + 2 * slack)) := by
  cases lt_or_ge arc.sweep 0 with
  | inl hneg =>
    exact .inl ⟨hneg, Arc.offset_of_contains_of_neg hneg hfirst,
      Arc.offset_of_contains_of_neg hneg hsecond⟩
  | inr hsweep =>
    refine .inr ⟨hsweep, ?_⟩
    obtain hneg | hboth | hfull := hkeeps
    · exact absurd hneg (not_lt.mpr hsweep)
    · by_cases hstart : (first : Real.Angle) = arc.start
      · exact .inl ⟨Arc.offset_eq_two_pi_iff.mpr hstart,
          Arc.offset_eq_two_pi_iff.mpr (hboth.mp hstart)⟩
      · exact .inr (.inl ⟨(Arc.offset_of_contains hsweep hfirst).resolve_left hstart,
          (Arc.offset_of_contains hsweep hsecond).resolve_left fun h => hstart (hboth.mpr h)⟩)
    · exact .inr (.inr hfull)

theorem covers_of_keepsToArc (hslack : 0 ≤ slack) (hfirst : arc.contains first slack = true)
    (hsecond : arc.contains second slack = true) (hkeeps : KeepsToArc arc slack first second)
    {angle : ℝ} (hangle : angle ∈ (arcBetween arc first second).angles) :
    arc.Covers slack angle := by
  obtain ⟨hpos, hle⟩ := arc.offset_mem first
  obtain ⟨hpos', hle'⟩ := arc.offset_mem second
  have hbetween := mem_angles_arcBetween.mp hangle
  apply Arc.covers_of_offset (coe_eq_start_add arc first angle)
  generalize angle - first + arc.offset first = v at hbetween
  obtain ⟨hneg, hlow, hlow'⟩ | ⟨hsweep, hoffsets⟩ := offsets_of_keepsToArc hfirst hsecond hkeeps
  · obtain ⟨hv, hv'⟩ := Set.uIcc_subset_Icc ⟨hlow, hle⟩ ⟨hlow', hle'⟩ hbetween
    rw [min_eq_right hneg.le, max_eq_left hneg.le]
    exact .inr ⟨by linarith, by linarith⟩
  · rw [min_eq_left hsweep, max_eq_right hsweep]
    obtain ⟨hstart, hstart'⟩ | ⟨hwithin, hwithin'⟩ | hfull := hoffsets
    · obtain ⟨hv, hv'⟩ := Set.uIcc_subset_Icc ⟨hstart.ge, hle⟩ ⟨hstart'.ge, hle'⟩ hbetween
      exact .inr ⟨by linarith, by linarith⟩
    · obtain ⟨hv, hv'⟩ := Set.uIcc_subset_Icc ⟨hpos.le, hwithin⟩ ⟨hpos'.le, hwithin'⟩ hbetween
      exact .inl ⟨by linarith, hv'⟩
    · obtain ⟨hv, hv'⟩ := Set.uIcc_subset_Icc ⟨hpos.le, hle⟩ ⟨hpos'.le, hle'⟩ hbetween
      by_cases hend : v ≤ arc.sweep + slack
      · exact .inl ⟨by linarith, hend⟩
      · rw [not_le] at hend
        exact .inr ⟨by linarith, by linarith⟩

/-- A cut that keeps to its arc is no longer than the arc with the slack at both ends. -/
theorem abs_sweep_le_of_keepsToArc (hslack : 0 ≤ slack) (hfirst : arc.contains first slack = true)
    (hsecond : arc.contains second slack = true) (hkeeps : KeepsToArc arc slack first second) :
    |(arcBetween arc first second).sweep| ≤ min (|arc.sweep| + 2 * slack) (2 * Real.pi) := by
  obtain ⟨hpos, hle⟩ := arc.offset_mem first
  obtain ⟨hpos', hle'⟩ := arc.offset_mem second
  have hturn : |(arcBetween arc first second).sweep| ≤ 2 * Real.pi := by
    rw [sweep_arcBetween, abs_le]
    exact ⟨by linarith, by linarith⟩
  refine le_min ?_ hturn
  obtain ⟨hneg, hlow, hlow'⟩ | ⟨hsweep, hoffsets⟩ := offsets_of_keepsToArc hfirst hsecond hkeeps
  · rw [sweep_arcBetween, abs_of_neg hneg, abs_le]
    exact ⟨by linarith, by linarith⟩
  · rw [abs_of_nonneg hsweep]
    obtain ⟨hstart, hstart'⟩ | ⟨hwithin, hwithin'⟩ | hfull := hoffsets
    · rw [sweep_arcBetween, abs_le]
      exact ⟨by linarith, by linarith⟩
    · rw [sweep_arcBetween, abs_le]
      exact ⟨by linarith, by linarith⟩
    · exact hturn.trans hfull

/-- A cut with one crossing at the start of a counter-clockwise arc leaves the arc, unless the arc
closes up within the slack. -/
theorem exists_not_covers (hslack : 0 ≤ slack) (hfirst : arc.contains first slack = true)
    (hsecond : arc.contains second slack = true) (hleaves : ¬ KeepsToArc arc slack first second) :
    ∃ angle ∈ (arcBetween arc first second).angles, ¬ arc.Covers slack angle := by
  obtain ⟨hsweep, hone, hopen⟩ : ¬ arc.sweep < 0 ∧
      ¬ ((first : Real.Angle) = arc.start ↔ (second : Real.Angle) = arc.start) ∧
      ¬ 2 * Real.pi ≤ arc.sweep + 2 * slack := by
    simpa only [KeepsToArc, not_or] using hleaves
  rw [not_lt] at hsweep
  rw [not_le] at hopen
  have hmid : (arc.sweep + 2 * Real.pi) / 2 ∈ Set.uIcc (arc.offset first) (arc.offset second) := by
    rw [Set.mem_uIcc]
    by_cases hstart : (first : Real.Angle) = arc.start
    · have hother : ¬ (second : Real.Angle) = arc.start :=
        fun h => hone ⟨fun _ => h, fun _ => hstart⟩
      have hfull := Arc.offset_eq_two_pi_iff.mpr hstart
      have hwithin := (Arc.offset_of_contains hsweep hsecond).resolve_left hother
      exact .inr ⟨by linarith, by linarith⟩
    · have hother : (second : Real.Angle) = arc.start := by
        by_contra h
        exact hone ⟨fun h' => absurd h' hstart, fun h' => absurd h' h⟩
      have hfull := Arc.offset_eq_two_pi_iff.mpr hother
      have hwithin := (Arc.offset_of_contains hsweep hfirst).resolve_left hstart
      exact .inl ⟨by linarith, by linarith⟩
  have hangle : (arc.sweep + 2 * Real.pi) / 2 + first - arc.offset first - first +
      arc.offset first = (arc.sweep + 2 * Real.pi) / 2 := by ring
  refine ⟨(arc.sweep + 2 * Real.pi) / 2 + first - arc.offset first, ?_, ?_⟩
  · rw [mem_angles_arcBetween, hangle]
    exact hmid
  · rintro ⟨u, hu, hlow, hhigh⟩
    rw [coe_eq_start_add arc first, hangle, Real.Angle.angle_eq_iff_two_pi_dvd_sub] at hu
    rw [min_eq_left hsweep] at hlow
    rw [max_eq_right hsweep] at hhigh
    obtain ⟨k, hk⟩ := hu
    have hpi := Real.pi_pos
    have hk0 : (0 : ℝ) < k := by nlinarith
    have hk1 : (k : ℝ) < 1 := by nlinarith
    rw [Int.cast_pos] at hk0
    rw [← Int.cast_one, Int.cast_lt] at hk1
    omega

/-- A cut that keeps to its arc encloses nothing outside the circular segment of the arc. -/
theorem cutRegion?_within_segment {settings : Settings ℝ} {region : Region ℝ} (hslack : 0 ≤ slack)
    (hfirst : arc.contains first slack = true) (hsecond : arc.contains second slack = true)
    (hkeeps : KeepsToArc arc slack first second)
    (h : (arcBetween arc first second).cutRegion? settings = some region) :
    region.hull ⊆ arc.segment slack ∧ region.area ≤ arc.segmentArea slack := by
  have hlength := abs_sweep_le_of_keepsToArc hslack hfirst hsecond hkeeps
  constructor
  · obtain ⟨angles, rfl, hmem, -⟩ := Region.exists_angles_of_sampleSweep h
    apply convexHull_mono
    rintro z ⟨p, hp, c, hc, rfl⟩
    rw [List.mem_singleton.mp hp] at hc
    obtain ⟨angle, hangle, rfl⟩ := List.mem_map.mp hc
    exact ⟨angle, covers_of_keepsToArc hslack hfirst hsecond hkeeps (hmem angle hangle), rfl⟩
  · refine (Region.area_le_of_sampleSweep (hlength.trans (min_le_right _ _)) h).trans ?_
    exact mul_le_mul_of_nonneg_left (Angle.capOf_mono hlength)
      (div_nonneg (sq_nonneg arc.radius) two_pos.le)

/-- Let a line have two crossings on an arc. The cut between them never passes over the start of the
arc. It stays on the arc, up to the slack, exactly under `KeepsToArc`, and then the region that it
encloses lies in the circular segment of the arc and is no larger. -/
theorem arc?_within_arc {settings : Settings ℝ} {p q : Point ℝ} {first second : Hit ℝ}
    {rest : List (Hit ℝ)} (hslack : 0 ≤ settings.angleSlack)
    (hhits : (Hit.ofLine settings p q arc.center arc.radius).filter
      (fun h => arc.contains h.angle settings.angleSlack) = first :: second :: rest) :
    let cut := arcBetween arc first.angle second.angle
    let keeps := KeepsToArc arc settings.angleSlack first.angle second.angle
    (∀ angle ∈ cut.innerAngles, (angle : Real.Angle) ≠ arc.start) ∧
      ((∀ angle ∈ cut.angles, arc.Covers settings.angleSlack angle) ↔ keeps) ∧
      (keeps → ∀ region, arc? settings arc p q = some region →
        region.hull ⊆ arc.segment settings.angleSlack ∧
          region.area ≤ arc.segmentArea settings.angleSlack) := by
  intro cut keeps
  have hfirst : arc.contains first.angle settings.angleSlack = true := by
    have hmem : first ∈ first :: second :: rest := List.mem_cons_self
    rw [← hhits] at hmem
    exact (List.mem_filter.mp hmem).2
  have hsecond : arc.contains second.angle settings.angleSlack = true := by
    have hmem : second ∈ first :: second :: rest := List.mem_cons_of_mem _ List.mem_cons_self
    rw [← hhits] at hmem
    exact (List.mem_filter.mp hmem).2
  refine ⟨fun angle h => ne_start_of_mem_innerAngles h, ⟨?_, ?_⟩, ?_⟩
  · intro hcovers
    by_contra hleaves
    obtain ⟨angle, hangle, hnot⟩ := exists_not_covers hslack hfirst hsecond hleaves
    exact hnot (hcovers angle hangle)
  · intro hkeeps angle hangle
    exact covers_of_keepsToArc hslack hfirst hsecond hkeeps hangle
  · intro hkeeps region hregion
    have hcut : cut.cutRegion? settings = some region := by
      simpa only [arc?, hhits] using hregion
    exact cutRegion?_within_segment hslack hfirst hsecond hkeeps hcut

section Quarters

/-- Points a quarter turn apart on the circle about the origin with radius five. -/
theorem onCircle_quarters :
    Angle.onCircle (⟨0, 0⟩ : Point ℝ) 5 0 = ⟨5, 0⟩ ∧
      Angle.onCircle (⟨0, 0⟩ : Point ℝ) 5 (Real.pi / 2) = ⟨0, 5⟩ ∧
      Angle.onCircle (⟨0, 0⟩ : Point ℝ) 5 Real.pi = ⟨-5, 0⟩ := by
  refine ⟨?_, ?_, ?_⟩
  · simp [Angle.onCircle]
  · simp [Angle.onCircle]
  · simp [Angle.onCircle]

theorem ofLine_quarter {a b : ℝ} (ha : a ∈ Set.Ioc (-Real.pi) Real.pi)
    (hb : b ∈ Set.Ioc (-Real.pi) Real.pi) (hquarter : b - a = Real.pi / 2) :
    Hit.ofLine Settings.default (Angle.onCircle ⟨0, 0⟩ 5 a) (Angle.onCircle ⟨0, 0⟩ 5 b) ⟨0, 0⟩ 5 =
      [⟨Angle.onCircle ⟨0, 0⟩ 5 a, a⟩, ⟨Angle.onCircle ⟨0, 0⟩ 5 b, b⟩] := by
  apply Hit.ofLine_onCircle (by norm_num) ha hb
  · simp only [Settings.default, Scalar.real_decimal]
    norm_num
  · simp only [hquarter, Real.cos_pi_div_two, Settings.default, Scalar.real_decimal]
    norm_num

theorem ofLine_right_top : Hit.ofLine Settings.default ⟨5, 0⟩ ⟨0, 5⟩ (⟨0, 0⟩ : Point ℝ) 5 =
    [⟨⟨5, 0⟩, 0⟩, ⟨⟨0, 5⟩, Real.pi / 2⟩] := by
  have hpi := Real.pi_pos
  have hline := ofLine_quarter (a := 0) (b := Real.pi / 2) ⟨by linarith, hpi.le⟩
    ⟨by linarith, by linarith⟩ (by ring)
  rwa [onCircle_quarters.1, onCircle_quarters.2.1] at hline

theorem ofLine_top_left : Hit.ofLine Settings.default ⟨0, 5⟩ ⟨-5, 0⟩ (⟨0, 0⟩ : Point ℝ) 5 =
    [⟨⟨0, 5⟩, Real.pi / 2⟩, ⟨⟨-5, 0⟩, Real.pi⟩] := by
  have hpi := Real.pi_pos
  have hline := ofLine_quarter (a := Real.pi / 2) (b := Real.pi) ⟨by linarith, by linarith⟩
    ⟨by linarith, le_refl _⟩ (by ring)
  rwa [onCircle_quarters.2.1, onCircle_quarters.2.2] at hline

theorem filter_of_contains {first second : Hit ℝ} (hfirst : arc.contains first.angle slack = true)
    (hsecond : arc.contains second.angle slack = true) :
    [first, second].filter (fun h => arc.contains h.angle slack) = [first, second] := by
  simp [hfirst, hsecond]

theorem angleSlack_default : (Settings.default : Settings ℝ).angleSlack = 1e-6 := rfl

theorem angleSlack_default_nonneg : 0 ≤ (Settings.default : Settings ℝ).angleSlack := by
  rw [angleSlack_default]
  norm_num

/-- An arc that starts at angle zero contains every angle up to its sweep. -/
theorem contains_of_le_sweep {center : Point ℝ} {radius sweep angle : ℝ} (hlow : 0 ≤ angle)
    (hhigh : angle ≤ sweep) (hturn : sweep ≤ 2 * Real.pi) :
    (⟨center, radius, 0, sweep⟩ : Arc ℝ).contains angle
      (Settings.default : Settings ℝ).angleSlack = true := by
  have hslack := angleSlack_default_nonneg
  apply Arc.contains_of_le hlow
  · exact (by linarith : angle - 0 ≤ 2 * Real.pi)
  · exact hlow.trans hhigh
  · exact (by linarith : angle - 0 ≤ sweep + (Settings.default : Settings ℝ).angleSlack)

/-- The minor arc between opposite ends is the half circle from the first one. -/
theorem ofEndpoints_half :
    Arc.ofEndpoints (⟨0, 0⟩ : Point ℝ) 5 ⟨5, 0⟩ ⟨-5, 0⟩ false = ⟨⟨0, 0⟩, 5, 0, Real.pi⟩ := by
  have hpi := Real.pi_pos
  have hright : Angle.about (⟨0, 0⟩ : Point ℝ) ⟨5, 0⟩ = 0 := by
    rw [← onCircle_quarters.1]
    exact Angle.about_onCircle (by norm_num) ⟨by linarith, hpi.le⟩
  have hleft : Angle.about (⟨0, 0⟩ : Point ℝ) ⟨-5, 0⟩ = Real.pi := by
    rw [← onCircle_quarters.2.2]
    exact Angle.about_onCircle (by norm_num) ⟨by linarith, le_refl _⟩
  have hccw : Angle.ccwSweep 0 Real.pi = Real.pi := by
    apply Angle.ccwSweep_eq_of_coe hpi.le (by linarith)
    rw [Real.Angle.coe_zero, sub_zero]
  simp only [Arc.ofEndpoints, Arc.sweepBetween, hright, hleft, hccw, Scalar.real_pi, lt_irrefl,
    Bool.false_eq_true, if_false]

theorem pi_div_two_ne_zero : ((Real.pi / 2 : ℝ) : Real.Angle) ≠ ((0 : ℝ) : Real.Angle) := by
  intro h
  have hcos := congrArg Real.Angle.cos h
  rw [Real.Angle.cos_coe, Real.Angle.cos_coe, Real.cos_pi_div_two, Real.cos_zero] at hcos
  exact zero_ne_one hcos

/-- The line through `(0, 5)` and `(-5, 0)` cuts the three-quarter arc from `(5, 0)` twice, away
from its start, and the cut keeps to the arc. -/
theorem arc?_within_three_quarters :
    let arc : Arc ℝ := ⟨⟨0, 0⟩, 5, 0, 3 * Real.pi / 2⟩
    let settings : Settings ℝ := Settings.default
    let first : Hit ℝ := ⟨⟨0, 5⟩, Real.pi / 2⟩
    let second : Hit ℝ := ⟨⟨-5, 0⟩, Real.pi⟩
    let cut := arcBetween arc first.angle second.angle
    0 ≤ settings.angleSlack ∧
      (Hit.ofLine settings ⟨0, 5⟩ ⟨-5, 0⟩ arc.center arc.radius).filter
        (fun h => arc.contains h.angle settings.angleSlack) = [first, second] ∧
      KeepsToArc arc settings.angleSlack first.angle second.angle ∧
      (∀ angle ∈ cut.innerAngles, (angle : Real.Angle) ≠ arc.start) ∧
      (∀ angle ∈ cut.angles, arc.Covers settings.angleSlack angle) ∧
      ∀ region, arc? settings arc ⟨0, 5⟩ ⟨-5, 0⟩ = some region →
        region.hull ⊆ arc.segment settings.angleSlack ∧
          region.area ≤ arc.segmentArea settings.angleSlack := by
  intro arc settings first second cut
  have hpi := Real.pi_pos
  have hslack : 0 ≤ settings.angleSlack := angleSlack_default_nonneg
  have hfirst : arc.contains first.angle settings.angleSlack = true :=
    contains_of_le_sweep Real.pi_div_two_pos.le
      (by linarith : Real.pi / 2 ≤ 3 * Real.pi / 2) (by linarith)
  have hsecond : arc.contains second.angle settings.angleSlack = true :=
    contains_of_le_sweep hpi.le (by linarith) (by linarith)
  have hhits : (Hit.ofLine settings ⟨0, 5⟩ ⟨-5, 0⟩ arc.center arc.radius).filter
      (fun h => arc.contains h.angle settings.angleSlack) = [first, second] := by
    rw [ofLine_top_left]
    exact filter_of_contains hfirst hsecond
  have hkeeps : KeepsToArc arc settings.angleSlack first.angle second.angle :=
    .inr (.inl ⟨fun h => absurd h pi_div_two_ne_zero, fun h => absurd h Real.Angle.pi_ne_zero⟩)
  obtain ⟨hinner, hcovers, hregion⟩ := arc?_within_arc hslack hhits
  exact ⟨hslack, hhits, hkeeps, hinner, hcovers.mpr hkeeps, hregion hkeeps⟩

/-- The line from `(5, 0)`, the start of a half circle, to `(0, 5)` makes a cut that leaves it. -/
theorem arc?_leaves_half_circle :
    let arc : Arc ℝ := Arc.ofEndpoints ⟨0, 0⟩ 5 ⟨5, 0⟩ ⟨-5, 0⟩ false
    let settings : Settings ℝ := Settings.default
    let first : Hit ℝ := ⟨⟨5, 0⟩, 0⟩
    let second : Hit ℝ := ⟨⟨0, 5⟩, Real.pi / 2⟩
    arc = ⟨⟨0, 0⟩, 5, 0, Real.pi⟩ ∧
      (Hit.ofLine settings ⟨5, 0⟩ ⟨0, 5⟩ arc.center arc.radius).filter
        (fun h => arc.contains h.angle settings.angleSlack) = [first, second] ∧
      ∃ angle ∈ (arcBetween arc first.angle second.angle).angles,
        ¬ arc.Covers settings.angleSlack angle := by
  intro arc settings first second
  have hpi := Real.pi_pos
  have hslack : 0 ≤ settings.angleSlack := angleSlack_default_nonneg
  have harc : arc = ⟨⟨0, 0⟩, 5, 0, Real.pi⟩ := ofEndpoints_half
  have hsweep : arc.sweep = Real.pi := by rw [harc]
  have hstart : arc.start = 0 := by rw [harc]
  have hfirst : arc.contains first.angle settings.angleSlack = true := by
    rw [harc]
    exact contains_of_le_sweep le_rfl hpi.le (by linarith)
  have hsecond : arc.contains second.angle settings.angleSlack = true := by
    rw [harc]
    exact contains_of_le_sweep Real.pi_div_two_pos.le (by linarith : Real.pi / 2 ≤ Real.pi)
      (by linarith)
  refine ⟨harc, ?_, exists_not_covers hslack hfirst hsecond ?_⟩
  · rw [harc] at hfirst hsecond ⊢
    rw [ofLine_right_top]
    exact filter_of_contains hfirst hsecond
  · rintro (hneg | hboth | hfull)
    · rw [hsweep] at hneg
      linarith
    · rw [hstart] at hboth
      exact pi_div_two_ne_zero (hboth.mp rfl)
    · rw [hsweep, angleSlack_default] at hfull
      have htwo := Real.two_le_pi
      norm_num at hfull
      linarith

end Quarters

end Cut

end PlanarArea
