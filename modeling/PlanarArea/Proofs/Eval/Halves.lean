import PlanarArea.Proofs.Eval.SelfCombination
import PlanarArea.Proofs.Region.HalfPlane

/-!
# The two halves of a shape

A segment cuts a polygon or an ellipse by the half plane on its left, and the segment in the
opposite direction by the one on its right. The two half planes meet in points of the line only. A
shape within their reach is divided into the part left of the line and the part right of it, and
nothing is lost.
-/
namespace PlanarArea

open MeasureTheory
open Point (rise run reach)

variable {p q : Point ℝ} {extent : ℝ} {left right region : Region ℝ}

/-- A directed segment as a shape that operators meet. -/
def Tagged.segment {α : Type} (name : String) (p q : Point α) : Tagged α :=
  ⟨name, .segment, .pending p q, .segment p q⟩

namespace Region

/-- The two half planes of a segment, one for each direction. -/
structure Halves (p q : Point ℝ) (extent : ℝ) (left right : Region ℝ) : Prop where
  long : 1e-10 ≤ (q - p).norm
  wide : 1e-10 ≤ extent
  left : ofHalfPlane? p q extent = some left
  right : ofHalfPlane? q p extent = some right

theorem exists_halves (hlen : 1e-10 ≤ (q - p).norm) (hextent : 1e-10 ≤ extent) :
    ∃ left right, Halves p q extent left right :=
  ⟨_, _, hlen, hextent, ofHalfPlane?_eq hlen hextent,
    ofHalfPlane?_eq (Point.norm_sub_comm q p ▸ hlen) hextent⟩

namespace Halves

variable (h : Halves p q extent left right)
include h

theorem norm_pos : 0 < (q - p).norm :=
  lt_of_lt_of_le (by norm_num) h.long

theorem mem_left {x : Point ℝ} : x ∈ left.points ↔
    (0 ≤ rise p q x ∧ rise p q x ≤ extent) ∧ -extent ≤ run p q x ∧
      run p q x ≤ (q - p).norm + extent :=
  mem_points_halfPlane h.long h.wide h.left

theorem mem_right {x : Point ℝ} : x ∈ right.points ↔
    (-extent ≤ rise p q x ∧ rise p q x ≤ 0) ∧ -extent ≤ run p q x ∧
      run p q x ≤ (q - p).norm + extent := by
  have hlen := Point.norm_sub_comm q p
  rw [mem_points_halfPlane (hlen ▸ h.long) h.wide h.right, Point.rise_swap,
    Point.run_swap h.norm_pos, ← hlen]
  constructor
  · rintro ⟨⟨hlow, hhigh⟩, hstart, hstop⟩
    exact ⟨⟨by linarith, by linarith⟩, by linarith, by linarith⟩
  · rintro ⟨⟨hlow, hhigh⟩, hstart, hstop⟩
    exact ⟨⟨by linarith, by linarith⟩, by linarith, by linarith⟩

theorem mem_or_mem {x : Point ℝ}
    (hx : (-extent ≤ rise p q x ∧ rise p q x ≤ extent) ∧
      -extent ≤ run p q x ∧ run p q x ≤ (q - p).norm + extent) :
    x ∈ left.points ∨ x ∈ right.points := by
  obtain ⟨⟨hlow, hhigh⟩, halong⟩ := hx
  rw [h.mem_left, h.mem_right]
  cases le_total 0 (rise p q x) with
  | inl hle => exact .inl ⟨⟨hle, hhigh⟩, halong⟩
  | inr hle => exact .inr ⟨⟨hlow, hle⟩, halong⟩

/-- Off the line a region within reach is in the half plane of its side. -/
theorem ae_mem_evenOdd_iff (hcorners : ∀ ring ∈ region.rings, ∀ w ∈ ring, w ∈ reach p q extent) :
    ∀ᵐ z : ℝ × ℝ, (z ∈ region.evenOdd ∧ z ∈ left.evenOdd ↔
        z ∈ region.evenOdd ∧ 0 < rise p q ⟨z.1, z.2⟩) ∧
      (z ∈ region.evenOdd ∧ z ∈ right.evenOdd ↔
        z ∈ region.evenOdd ∧ rise p q ⟨z.1, z.2⟩ < 0) ∧
      (z ∈ region.evenOdd → 0 < rise p q ⟨z.1, z.2⟩ ∨ rise p q ⟨z.1, z.2⟩ < 0) := by
  have hpos : 0 < extent := lt_of_lt_of_le (by norm_num) h.wide
  have hne : q ≠ p := by
    rintro rfl
    simpa [Point.norm] using h.norm_pos
  filter_upwards [region.ae_mem_points_iff, left.ae_mem_points_iff, right.ae_mem_points_iff,
    Point.ae_cross_ne_zero hne] with z hz hleft hright hline
  have hoff : rise p q ⟨z.1, z.2⟩ ≠ 0 := div_ne_zero hline h.norm_pos.ne'
  rw [← hz, ← hleft, ← hright]
  refine ⟨and_congr_right fun hx => ?_, and_congr_right fun hx => ?_, fun _ => ?_⟩
  · obtain ⟨⟨hlow, hhigh⟩, halong⟩ := rise_run_of_mem_points h.norm_pos hpos hcorners hx
    rw [h.mem_left]
    exact ⟨fun hin => hin.1.1.lt_of_ne' hoff, fun hin => ⟨⟨hin.le, hhigh⟩, halong⟩⟩
  · obtain ⟨⟨hlow, hhigh⟩, halong⟩ := rise_run_of_mem_points h.norm_pos hpos hcorners hx
    rw [h.mem_right]
    exact ⟨fun hin => hin.1.2.lt_of_ne hoff, fun hin => ⟨⟨hlow, hin.le⟩, halong⟩⟩
  · exact hoff.symm.lt_or_gt

/-- What the two half planes cut off a region within their reach are its parts left and right of the
line, and the areas of the parts add up. -/
theorem combine_inter {clip : Clipper ℝ}
    (hcorners : ∀ ring ∈ region.rings, ∀ w ∈ ring, w ∈ reach p q extent)
    (hleft : clip.ClipsEvenOdd region left) (hright : clip.ClipsEvenOdd region right) :
    (clip.combine .inter region left).evenOdd =ᵐ[volume]
        (region.evenOdd ∩ {z | 0 < rise p q ⟨z.1, z.2⟩} : Set (ℝ × ℝ)) ∧
      (clip.combine .inter region right).evenOdd =ᵐ[volume]
        (region.evenOdd ∩ {z | rise p q ⟨z.1, z.2⟩ < 0} : Set (ℝ × ℝ)) ∧
      (clip.combine .inter region left).area + (clip.combine .inter region right).area =
        (volume region.evenOdd).toReal := by
  have hsides := h.ae_mem_evenOdd_iff hcorners
  have hleftPart : (region.evenOdd ∩ left.evenOdd : Set (ℝ × ℝ)) =ᵐ[volume]
      (region.evenOdd ∩ {z | 0 < rise p q ⟨z.1, z.2⟩} : Set (ℝ × ℝ)) :=
    hsides.mono fun z hz => propext hz.1
  have hrightPart : (region.evenOdd ∩ right.evenOdd : Set (ℝ × ℝ)) =ᵐ[volume]
      (region.evenOdd ∩ {z | rise p q ⟨z.1, z.2⟩ < 0} : Set (ℝ × ℝ)) :=
    hsides.mono fun z hz => propext hz.2.1
  have hrest : (region.evenOdd \ {z | 0 < rise p q ⟨z.1, z.2⟩} : Set (ℝ × ℝ)) =ᵐ[volume]
      (region.evenOdd ∩ {z | rise p q ⟨z.1, z.2⟩ < 0} : Set (ℝ × ℝ)) :=
    hsides.mono fun z hz => propext (and_congr_right fun hx =>
      ⟨(hz.2.2 hx).resolve_left, fun hbelow habove => lt_asymm (α := ℝ) hbelow habove⟩)
  have hmeasurable : MeasurableSet {z : ℝ × ℝ | 0 < rise p q ⟨z.1, z.2⟩} := by
    refine measurableSet_lt measurable_const ?_
    simp only [Point.rise_eq]
    fun_prop
  refine ⟨(hleft.evenOdd .inter).trans hleftPart, (hright.evenOdd .inter).trans hrightPart, ?_⟩
  have hfinite : ∀ s, volume (region.evenOdd ∩ s) ≠ ⊤ := fun s =>
    ne_top_of_le_ne_top region.volume_evenOdd_ne_top (measure_mono Set.inter_subset_left)
  have hact : ∀ s : Set (ℝ × ℝ), Op.inter.act region.evenOdd s = region.evenOdd ∩ s := fun _ => rfl
  rw [hleft.area_combine, hright.area_combine, hact, hact, measure_congr hleftPart,
    measure_congr hrightPart, ← ENNReal.toReal_add (hfinite _) (hfinite _), ← measure_congr hrest,
    measure_inter_add_sdiff _ hmeasurable]

end Halves

end Region

/-- Next to `&` a segment cuts a polygon or an ellipse by the half plane on its left, on either side
of the operator. -/
theorem Tagged.cut_segment (clip : Clipper ℝ) {settings : Settings ℝ} (name : String) {t : Tagged ℝ}
    (hkind : t.kind = .polygon ∨ t.kind = .ellipse) (hslot : t.slot = .resolved region)
    (hleft : Region.ofHalfPlane? p q settings.halfPlaneExtent = some left) :
    cut clip settings (segment name p q) t = .ok (some (clip.combine .inter region left)) ∧
      cut clip settings t (segment name p q) = .ok (some (clip.combine .inter region left)) := by
  have hne : t.kind ≠ .segment := by
    rintro heq
    rw [heq] at hkind
    simp at hkind
  have halong : cutAlong clip settings (segment name p q) t =
      .ok (some (clip.combine .inter region left)) := by
    simp only [cutAlong, segment, hslot, toRegion, hleft]
    cases hkind with
    | inl h => rw [h]
    | inr h => rw [h]
  exact ⟨(cut_of_left_segment rfl hne).trans halong, (cut_of_right_segment hne rfl).trans halong⟩

/-- The half plane of two points is the box of all points whose distance from their line is at most
`extent`, on the left, and which are not farther than `extent` beyond the two. The half planes of
the two directions have only points of the line in common, and one of them holds whatever is within
`extent` of the segment. So a polygon or an ellipse of which that is true is cut by the segment into
its parts left and right of the line, one for each direction, and their areas make up its own. -/
theorem Region.halfPlanes_split (hlen : 1e-10 ≤ (q - p).norm) (hextent : 1e-10 ≤ extent) :
    ∃ left right, ofHalfPlane? p q extent = some left ∧ ofHalfPlane? q p extent = some right ∧
      (∀ x, x ∈ left.points ↔ (0 ≤ rise p q x ∧ rise p q x ≤ extent) ∧
        -extent ≤ run p q x ∧ run p q x ≤ (q - p).norm + extent) ∧
      left.area = extent * ((q - p).norm + 2 * extent) ∧
      (∀ x ∈ left.points, x ∈ right.points → rise p q x = 0) ∧
      reach p q extent ⊆ left.points ∪ right.points ∧
      ∀ (clip : Clipper ℝ) (settings : Settings ℝ) (name : String) (t : Tagged ℝ)
        (region : Region ℝ),
        settings.halfPlaneExtent = extent → t.kind = .polygon ∨ t.kind = .ellipse →
        t.slot = .resolved region →
        (∀ ring ∈ region.rings, ∀ w ∈ ring, w ∈ reach p q extent) →
        clip.ClipsEvenOdd region left → clip.ClipsEvenOdd region right →
        ∃ leftPart rightPart,
          Tagged.cut clip settings (.segment name p q) t = .ok (some leftPart) ∧
          Tagged.cut clip settings (.segment name q p) t = .ok (some rightPart) ∧
          region.points ⊆ left.points ∪ right.points ∧
          leftPart.evenOdd =ᵐ[volume]
            (region.evenOdd ∩ {z | 0 < rise p q ⟨z.1, z.2⟩} : Set (ℝ × ℝ)) ∧
          rightPart.evenOdd =ᵐ[volume]
            (region.evenOdd ∩ {z | rise p q ⟨z.1, z.2⟩ < 0} : Set (ℝ × ℝ)) ∧
          leftPart.area + rightPart.area = (volume region.evenOdd).toReal ∧
          (region.IsSimple → region.WindsOnce →
            leftPart.area + rightPart.area = region.area) := by
  obtain ⟨left, right, h⟩ := exists_halves hlen hextent
  have hpos : 0 < extent := lt_of_lt_of_le (by norm_num) hextent
  refine ⟨left, right, h.left, h.right, fun x => h.mem_left, area_halfPlane hlen hextent h.left,
    fun x hleft hright => ?_, fun x hx => ?_, ?_⟩
  · exact le_antisymm (h.mem_right.mp hright).1.2 (h.mem_left.mp hleft).1.1
  · exact h.mem_or_mem (Point.rise_run_of_mem_reach h.norm_pos hx)
  · rintro clip settings name t region rfl hkind hslot hcorners hleft hright
    obtain ⟨hleftPart, hrightPart, harea⟩ := h.combine_inter hcorners hleft hright
    refine ⟨_, _, (Tagged.cut_segment clip name hkind hslot h.left).1,
      (Tagged.cut_segment clip name hkind hslot h.right).1, fun x hx => ?_, hleftPart, hrightPart,
      harea, fun hsimple honce => ?_⟩
    · exact h.mem_or_mem (rise_run_of_mem_points h.norm_pos hpos hcorners hx)
    · rw [harea, hsimple.volume_evenOdd honce]

/-- A clipper for regions of one ring each that knows the ring of what two rings have in common. -/
noncomputable def Clipper.ofOverlap (overlap : Ring ℝ → Ring ℝ → Ring ℝ) : Clipper ℝ where
  combine op r s :=
    match r.polygons, s.polygons with
    | [⟨a, []⟩], [⟨b, []⟩] =>
      match op with
      | .inter => ⟨[⟨overlap a b, []⟩]⟩
      | .union => ⟨[⟨a, [overlap a b]⟩, ⟨b, []⟩]⟩
      | .diff => ⟨[⟨a, [overlap a b]⟩]⟩
      | .xor => ⟨[⟨a, [overlap a b]⟩, ⟨b, [overlap a b]⟩]⟩
    | _, _ => .empty

section Overlap

variable {overlap : Ring ℝ → Ring ℝ → Ring ℝ} {a b : Ring ℝ}

theorem Clipper.ae_evenOdd_ofOverlap
    (hoverlap : ∀ᵐ z : ℝ × ℝ, z ∈ (Region.ofRing (overlap a b)).evenOdd ↔
      z ∈ (Region.ofRing a).evenOdd ∧ z ∈ (Region.ofRing b).evenOdd) (op : Op) :
    ((ofOverlap overlap).combine op (.ofRing a) (.ofRing b)).evenOdd =ᵐ[volume]
      (op.act (Region.ofRing a).evenOdd (Region.ofRing b).evenOdd : Set (ℝ × ℝ)) := by
  filter_upwards [hoverlap] with z hz
  refine propext (Region.mem_evenOdd_iff.trans ?_)
  cases op with
  | inter => exact Region.mem_evenOdd_iff.symm.trans hz
  | union =>
    change _ ↔ z ∈ (Region.ofRing a).evenOdd ∨ z ∈ (Region.ofRing b).evenOdd
    have hwinding :
        ((ofOverlap overlap).combine .union (.ofRing a) (.ofRing b)).winding ⟨z.1, z.2⟩ =
          a.winding ⟨z.1, z.2⟩ + (overlap a b).winding ⟨z.1, z.2⟩ + b.winding ⟨z.1, z.2⟩ := by
      simp [ofOverlap, Region.ofRing, Region.winding, Region.rings, add_assoc]
    simp only [Region.mem_evenOdd_iff, Region.winding_ofRing] at hz ⊢
    rw [hwinding, Int.odd_add, Int.odd_add, ← Int.not_odd_iff_even, ← Int.not_odd_iff_even]
    tauto
  | diff =>
    change _ ↔ z ∈ (Region.ofRing a).evenOdd ∧ z ∉ (Region.ofRing b).evenOdd
    have hwinding : ((ofOverlap overlap).combine .diff (.ofRing a) (.ofRing b)).winding ⟨z.1, z.2⟩ =
        a.winding ⟨z.1, z.2⟩ + (overlap a b).winding ⟨z.1, z.2⟩ := by
      simp [ofOverlap, Region.ofRing, Region.winding, Region.rings]
    simp only [Region.mem_evenOdd_iff, Region.winding_ofRing] at hz ⊢
    rw [hwinding, Int.odd_add, ← Int.not_odd_iff_even]
    tauto
  | xor =>
    change _ ↔ z ∈ (Region.ofRing a).evenOdd ∧ z ∉ (Region.ofRing b).evenOdd ∨
      z ∈ (Region.ofRing b).evenOdd ∧ z ∉ (Region.ofRing a).evenOdd
    have hwinding : ((ofOverlap overlap).combine .xor (.ofRing a) (.ofRing b)).winding ⟨z.1, z.2⟩ =
        a.winding ⟨z.1, z.2⟩ + b.winding ⟨z.1, z.2⟩ +
          2 * (overlap a b).winding ⟨z.1, z.2⟩ := by
      simp [ofOverlap, Region.ofRing, Region.winding, Region.rings]
      ring
    simp only [Region.mem_evenOdd_iff, Region.winding_ofRing]
    rw [hwinding, Int.odd_add, iff_true_right (even_two_mul _), Int.odd_add,
      ← Int.not_odd_iff_even]
    tauto

theorem Clipper.clipsEvenOdd_ofOverlap (ha : (Region.ofRing a).WindsOnce)
    (hb : (Region.ofRing b).WindsOnce) (hboth : (Region.ofRing (overlap a b)).WindsOnce)
    (hoverlap : ∀ᵐ z : ℝ × ℝ, z ∈ (Region.ofRing (overlap a b)).evenOdd ↔
      z ∈ (Region.ofRing a).evenOdd ∧ z ∈ (Region.ofRing b).evenOdd) :
    (ofOverlap overlap).ClipsEvenOdd (.ofRing a) (.ofRing b) := by
  have hevenOdd := ae_evenOdd_ofOverlap hoverlap
  refine ⟨hevenOdd, fun op => ?_⟩
  have hreal : ∀ {ring : Ring ℝ}, (Region.ofRing ring).WindsOnce →
      volume.real (Region.ofRing ring).evenOdd = ring.area := fun h =>
    (Region.volume_evenOdd_ofRing h).trans (Region.area_ofRing _)
  have hA := (Region.ofRing a).measurableSet_evenOdd
  have hB := (Region.ofRing b).measurableSet_evenOdd
  have hfinite := fun r => Region.volume_evenOdd_ne_top (Region.ofRing r)
  have hfiniteDiff : ∀ r s, volume ((Region.ofRing r).evenOdd \ (Region.ofRing s).evenOdd) ≠ ⊤ :=
    fun r s => measure_ne_top_of_subset Set.sdiff_subset (hfinite r)
  -- The ring of the overlap measures it, and so the two rings measure what each has alone.
  have hc : volume.real ((Region.ofRing a).evenOdd ∩ (Region.ofRing b).evenOdd) =
      (overlap a b).area := (measureReal_congr (hevenOdd .inter)).symm.trans (hreal hboth)
  have hleft := measureReal_inter_add_sdiff hB (hfinite a)
  have hright := measureReal_inter_add_sdiff hA (hfinite b)
  rw [Set.inter_comm, hc, hreal hb] at hright
  rw [hc, hreal ha] at hleft
  have hhole : ∀ {ring : Ring ℝ} {s : Set (ℝ × ℝ)}, (overlap a b).area + volume.real s = ring.area →
      Polygon.area ⟨ring, [overlap a b]⟩ = volume.real s := by
    intro ring s hsum
    simp only [Polygon.area, List.foldl_cons, List.foldl_nil, Scalar.real_abs, Scalar.real_sub]
    rw [← hsum, add_sub_cancel_left, abs_of_nonneg measureReal_nonneg]
  have hwhole : Polygon.area ⟨b, []⟩ = volume.real (Region.ofRing b).evenOdd := by
    rw [hreal hb, ← Region.area_ofRing]
    simp [Region.area_eq_sum, Region.ofRing]
  change _ = volume.real _
  rw [measureReal_congr (hevenOdd op), Region.area_eq_sum]
  cases op with
  | inter =>
    rw [← Region.area_eq_sum]
    exact (Region.area_ofRing _).trans hc.symm
  | union =>
    change _ = volume.real ((Region.ofRing a).evenOdd ∪ (Region.ofRing b).evenOdd)
    rw [← Set.sdiff_union_self, measureReal_union Set.disjoint_sdiff_left hB
      (hfiniteDiff a b) (hfinite b), ← hhole hleft, ← hwhole]
    simp [ofOverlap, Region.ofRing]
  | diff =>
    change _ = volume.real ((Region.ofRing a).evenOdd \ (Region.ofRing b).evenOdd)
    rw [← hhole hleft]
    simp [ofOverlap, Region.ofRing]
  | xor =>
    change _ = volume.real ((Region.ofRing a).evenOdd \ (Region.ofRing b).evenOdd ∪
      (Region.ofRing b).evenOdd \ (Region.ofRing a).evenOdd)
    rw [measureReal_union disjoint_sdiff_sdiff (MeasurableSet.diff hB hA) (hfiniteDiff a b)
      (hfiniteDiff b a), ← hhole hleft, ← hhole hright]
    simp [ofOverlap, Region.ofRing]

/-- It is enough to know the points of the overlap. -/
theorem Clipper.clipsEvenOdd_of_points {c : Ring ℝ} (hc : overlap a b = c)
    (ha : (Region.ofRing a).WindsOnce) (hb : (Region.ofRing b).WindsOnce)
    (honce : (Region.ofRing c).WindsOnce)
    (hpoints : ∀ x, x ∈ (Region.ofRing c).points ↔
      x ∈ (Region.ofRing a).points ∧ x ∈ (Region.ofRing b).points) :
    (ofOverlap overlap).ClipsEvenOdd (.ofRing a) (.ofRing b) := by
  subst hc
  refine clipsEvenOdd_ofOverlap ha hb honce ?_
  filter_upwards [(Region.ofRing (overlap a b)).ae_mem_points_iff,
    (Region.ofRing a).ae_mem_points_iff, (Region.ofRing b).ae_mem_points_iff] with z hc ha hb
  rw [← hc, ← ha, ← hb]
  exact hpoints _

end Overlap

namespace Region.Halves

variable {u₀ u₁ v₀ v₁ : ℝ}

theorem eq_left (h : Halves p q extent left right) :
    left = ofRing (Ring.rectangle p q (-extent) ((q - p).norm + extent) 0 extent) :=
  Option.some_inj.mp (h.left.symm.trans (ofHalfPlane?_eq h.long h.wide))

theorem swap (h : Halves p q extent left right) : Halves q p extent right left :=
  ⟨Point.norm_sub_comm q p ▸ h.long, h.wide, h.right, h.left⟩

theorem left_ne_right (h : Halves p q extent left right) : left ≠ right := by
  have hpos : 0 < extent := lt_of_lt_of_le (by norm_num) h.wide
  have hrise := Point.rise_onAxes h.norm_pos 0 extent
  have hmem : Point.onAxes p q 0 extent ∈ left.points := by
    rw [h.mem_left, hrise, Point.run_onAxes h.norm_pos]
    exact ⟨⟨hpos.le, le_rfl⟩, by linarith, by linarith [h.norm_pos]⟩
  intro heq
  rw [heq, h.mem_right, hrise] at hmem
  exact not_le.mpr hpos hmem.1.2

/-- The half plane on the left has the part of a rectangle above the line in it. -/
theorem mem_upper_iff (h : Halves p q extent left right) (hu : u₀ < u₁) (hv₀ : v₀ ≤ 0)
    (hv₁ : 0 < v₁) (hstart : -extent ≤ u₀) (hstop : u₁ ≤ (q - p).norm + extent)
    (hreach : v₁ ≤ extent) (x : Point ℝ) :
    x ∈ (ofRing (Ring.rectangle p q u₀ u₁ 0 v₁)).points ↔
      x ∈ (ofRing (Ring.rectangle p q u₀ u₁ v₀ v₁)).points ∧ x ∈ left.points := by
  rw [h.mem_left, mem_points_rectangle h.norm_pos hu hv₁,
    mem_points_rectangle h.norm_pos hu (hv₀.trans_lt hv₁)]
  constructor
  · rintro ⟨⟨hlow, hhigh⟩, hleft, hright⟩
    exact ⟨⟨⟨hv₀.trans hlow, hhigh⟩, hleft, hright⟩, ⟨hlow, hhigh.trans hreach⟩,
      hstart.trans hleft, hright.trans hstop⟩
  · rintro ⟨⟨⟨-, hhigh⟩, halong⟩, ⟨hlow, -⟩, -⟩
    exact ⟨⟨hlow, hhigh⟩, halong⟩

/-- The half plane on the right has the part of a rectangle below the line in it. -/
theorem mem_lower_iff (h : Halves p q extent left right) (hu : u₀ < u₁) (hv₀ : v₀ < 0)
    (hv₁ : 0 ≤ v₁) (hstart : -extent ≤ u₀) (hstop : u₁ ≤ (q - p).norm + extent)
    (hreach : -extent ≤ v₀) (x : Point ℝ) :
    x ∈ (ofRing (Ring.rectangle p q u₀ u₁ v₀ 0)).points ↔
      x ∈ (ofRing (Ring.rectangle p q u₀ u₁ v₀ v₁)).points ∧ x ∈ right.points := by
  rw [h.mem_right, mem_points_rectangle h.norm_pos hu hv₀,
    mem_points_rectangle h.norm_pos hu (hv₀.trans_le hv₁)]
  constructor
  · rintro ⟨⟨hlow, hhigh⟩, hleft, hright⟩
    exact ⟨⟨⟨hlow, hhigh.trans hv₁⟩, hleft, hright⟩, ⟨hreach.trans hlow, hhigh⟩,
      hstart.trans hleft, hright.trans hstop⟩
  · rintro ⟨⟨⟨hlow, -⟩, halong⟩, ⟨-, hhigh⟩, -⟩
    exact ⟨⟨hlow, hhigh⟩, halong⟩

theorem windsOnce_left (h : Halves p q extent left right) : left.WindsOnce := by
  have hpos : 0 < extent := lt_of_lt_of_le (by norm_num) h.wide
  rw [h.eq_left]
  exact windsOnce_rectangle h.norm_pos (by linarith [h.norm_pos]) hpos

/-- Some clipper goes by the even-odd rule on a rectangle across the line and both half planes. -/
theorem exists_clipper_rectangle (h : Halves p q extent left right) (hu : u₀ < u₁) (hv₀ : v₀ < 0)
    (hv₁ : 0 < v₁) (hstart : -extent ≤ u₀) (hstop : u₁ ≤ (q - p).norm + extent)
    (hlow : -extent ≤ v₀) (hhigh : v₁ ≤ extent) :
    ∃ clip : Clipper ℝ, clip.ClipsEvenOdd (ofRing (Ring.rectangle p q u₀ u₁ v₀ v₁)) left ∧
      clip.ClipsEvenOdd (ofRing (Ring.rectangle p q u₀ u₁ v₀ v₁)) right := by
  classical
  obtain ⟨half, rfl⟩ : ∃ half, left = ofRing half := ⟨_, h.eq_left⟩
  obtain ⟨other, rfl⟩ : ∃ other, right = ofRing other := ⟨_, h.swap.eq_left⟩
  have honce : (ofRing (Ring.rectangle p q u₀ u₁ v₀ v₁)).WindsOnce :=
    windsOnce_rectangle h.norm_pos hu (hv₀.trans hv₁)
  let clip := Clipper.ofOverlap fun _ ring =>
    if ofRing ring = ofRing half then Ring.rectangle p q u₀ u₁ 0 v₁
    else Ring.rectangle p q u₀ u₁ v₀ 0
  refine ⟨clip, ?_, ?_⟩
  · exact Clipper.clipsEvenOdd_of_points (if_pos rfl) honce h.windsOnce_left
      (windsOnce_rectangle h.norm_pos hu hv₁)
      (h.mem_upper_iff hu hv₀.le hv₁ hstart hstop hhigh)
  · exact Clipper.clipsEvenOdd_of_points (if_neg h.left_ne_right.symm) honce h.swap.windsOnce_left
      (windsOnce_rectangle h.norm_pos hu hv₀)
      (h.mem_lower_iff hu hv₀ hv₁.le hstart hstop hlow)

/-- The corners of a rectangle beside the segment are within reach if none is too far off. -/
theorem rectangle_mem_reach (h : Halves p q extent left right) (hu₀ : 0 ≤ u₀) (hu : u₀ ≤ u₁)
    (hu₁ : u₁ ≤ (q - p).norm) (hv₀ : |v₀| ≤ extent) (hv₁ : |v₁| ≤ extent) :
    ∀ ring ∈ (ofRing (Ring.rectangle p q u₀ u₁ v₀ v₁)).rings, ∀ w ∈ ring,
      w ∈ reach p q extent := by
  have hcorner : ∀ u v : ℝ, 0 ≤ u → u ≤ (q - p).norm → |v| ≤ extent →
      Point.onAxes p q u v ∈ reach p q extent := fun _ _ => Point.onAxes_mem_reach h.norm_pos
  simp [rings, ofRing, Ring.rectangle, hcorner, hu₀, hu₁, hu₀.trans hu, hu.trans hu₁, hv₀, hv₁]

end Region.Halves

/-- The square over the segment from `(0, 0)` to `(2, 0)` that goes one to either side. -/
theorem Region.halfPlanes_split_square :
    let p : Point ℝ := ⟨0, 0⟩
    let q : Point ℝ := ⟨2, 0⟩
    let settings : Settings ℝ := Settings.default
    let square := Ring.rectangle p q 0 2 (-1) 1
    let drawn : Tagged ℝ := ⟨"P", .polygon, .resolved (.ofRing square), .polygon square⟩
    1e-10 ≤ (q - p).norm ∧ 1e-10 ≤ settings.halfPlaneExtent ∧
      ∃ clip leftPart rightPart,
        Tagged.cut clip settings (.segment "S" p q) drawn = .ok (some leftPart) ∧
        Tagged.cut clip settings (.segment "S" q p) drawn = .ok (some rightPart) ∧
        leftPart.area + rightPart.area = 4 := by
  intro p q settings square drawn
  have hnorm : (q - p).norm = 2 := by
    simp [p, q, Point.norm]
  have hextent : settings.halfPlaneExtent = 10000 := by
    norm_num [settings, Settings.default]
  have hlen : 1e-10 ≤ (q - p).norm := by
    rw [hnorm]
    norm_num
  have hwide : 1e-10 ≤ settings.halfPlaneExtent := by
    rw [hextent]
    norm_num
  obtain ⟨left, right, hleft, hright, -, -, -, -, hsplit⟩ := halfPlanes_split hlen hwide
  have h : Halves p q settings.halfPlaneExtent left right := ⟨hlen, hwide, hleft, hright⟩
  obtain ⟨clip, hleftClips, hrightClips⟩ := h.exists_clipper_rectangle two_pos neg_one_lt_zero
    one_pos (by linarith) (by linarith) (by linarith) (by linarith)
  have hcorners := h.rectangle_mem_reach le_rfl zero_le_two hnorm.ge
    (by norm_num [hextent] : |(-1 : ℝ)| ≤ _) (by norm_num [hextent] : |(1 : ℝ)| ≤ _)
  obtain ⟨leftPart, rightPart, hleftCut, hrightCut, -, -, -, -, harea⟩ :=
    hsplit clip settings "S" drawn (ofRing square) rfl (.inl rfl) rfl hcorners hleftClips
      hrightClips
  have hsquare : (-1 : ℝ) < 1 := by norm_num
  refine ⟨hlen, hwide, clip, leftPart, rightPart, hleftCut, hrightCut, ?_⟩
  rw [harea (.inr ⟨square, rfl⟩) (windsOnce_rectangle h.norm_pos two_pos hsquare),
    area_rectangle h.norm_pos two_pos hsquare]
  norm_num

end PlanarArea
