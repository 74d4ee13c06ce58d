import PlanarArea.Proofs.Eval.Faults
import PlanarArea.Proofs.Eval.SetAlgebra
import PlanarArea.Proofs.Expr.Render
import PlanarArea.Proofs.Region.Fan

/-!
# A shape combined with itself

A lone shape has the area that its ring encloses with sign, while what an operator makes is measured
by the even-odd rule. The two agree for a ring that goes round no point twice, as the rings of
circles, ellipses and arcs do, so that a shape combined with itself by `&` or `|` has its own area.
They need not agree for a polygon that crosses itself. By `-` and `^` nothing is left of any shape.
-/
namespace PlanarArea

open MeasureTheory

/-- The clipper combines two regions by the even-odd rule, and the area of what it makes is the
measure of the even-odd set. -/
structure Clipper.ClipsEvenOdd (clip : Clipper ℝ) (r s : Region ℝ) : Prop where
  evenOdd : ∀ op, (clip.combine op r s).evenOdd =ᵐ[volume]
    (op.act r.evenOdd s.evenOdd : Set (ℝ × ℝ))
  area : ∀ op, (clip.combine op r s).area = (volume (clip.combine op r s).evenOdd).toReal

namespace Clipper

variable {clip : Clipper ℝ} {r s : Region ℝ}

theorem ClipsEvenOdd.area_combine (h : clip.ClipsEvenOdd r s) (op : Op) :
    (clip.combine op r s).area = (volume (op.act r.evenOdd s.evenOdd)).toReal := by
  rw [h.area, measure_congr (h.evenOdd op)]

/-- What a region is combined to with itself, by the operator. -/
theorem ClipsEvenOdd.area_shortcut_self (h : clip.ClipsEvenOdd r r) (op : Op) :
    (clip.shortcut op r r).area =
      match op with
      | .inter => (volume r.evenOdd).toReal
      | .union => if r.area = 0 then 0 else (volume r.evenOdd).toReal
      | .diff | .xor => 0 := by
  cases op with
  | inter => simp [shortcut, h.area_combine, Op.act]
  | union =>
    by_cases hzero : r.area = 0
    · simp [shortcut, Region.isEmpty_iff.mpr hzero, hzero]
    · simp [shortcut, mt Region.isEmpty_iff.mp hzero, hzero, h.area_combine, Op.act]
  | diff =>
    by_cases hzero : r.area = 0
    · simp [shortcut, Region.isEmpty_iff.mpr hzero]
    · simp [shortcut, mt Region.isEmpty_iff.mp hzero, h.area_combine, Op.act]
  | xor =>
    by_cases hzero : r.area = 0
    · simp [shortcut, Region.isEmpty_iff.mpr hzero, hzero]
    · simp [shortcut, mt Region.isEmpty_iff.mp hzero, h.area_combine, Op.act]

end Clipper

/-- A shape is drawn with one ring at most, which goes round no point twice unless the shape is a
polygon. -/
theorem Tagged.windsOnce_of_ofShape {settings : Settings ℝ} {name : String} {shape : Shape ℝ}
    {t : Tagged ℝ} {r : Region ℝ} (h : ofShape settings name shape = .ok t)
    (hslot : t.slot = .resolved r) :
    r.IsSimple ∧ ((∃ vertices, shape = .polygon vertices) ∨ r.WindsOnce) := by
  cases shape with
  | circle center radius =>
    simp only [ofShape] at h
    split at h
    · obtain ⟨found, hfound, rfl⟩ := orDefect_map_ok h
      cases hslot
      exact (Region.ofEllipse?_windsOnce hfound).imp_right .inr
    · cases h
  | ellipse center rx ry rotation =>
    simp only [ofShape] at h
    split at h
    · obtain ⟨found, hfound, rfl⟩ := orDefect_map_ok h
      cases hslot
      exact (Region.ofEllipse?_windsOnce hfound).imp_right .inr
    · cases h
  | circleArc center radius start stop major =>
    simp only [ofShape] at h
    split at h
    · cases h
      cases hslot
      exact (Region.arc_windsOnce settings (Arc.abs_sweepBetween_le _ _ _)).imp_right .inr
    · cases h
  | segment start stop =>
    cases h
    cases hslot
  | polygon vertices =>
    obtain ⟨found, hfound, rfl⟩ := orDefect_map_ok h
    cases hslot
    exact ⟨Region.isSimple_of_ofPoints? hfound, .inl ⟨vertices, rfl⟩⟩
  | unsupported className => cases h

theorem Resolver.Draws.windsOnce {settings : Settings ℝ} {resolver : Resolver ℝ} {name : String}
    (h : resolver.Draws settings name) :
    (resolver.region settings name).IsSimple ∧
      ((∃ vertices, resolver name = some (.polygon vertices)) ∨
        (resolver.region settings name).WindsOnce) := by
  obtain ⟨t, ⟨shape, hsource, ht⟩, -, hslot⟩ := h.exists_slot
  refine (Tagged.windsOnce_of_ofShape ht hslot).imp_right (Or.imp_left ?_)
  rintro ⟨vertices, rfl⟩
  exact ⟨vertices, hsource⟩

namespace Outcome

/-- The text of a name combined with itself. -/
def withItself (op : Op) (name : String) : String :=
  (Expr.binary op (.name name) (.name name)).bare

example : withItself .inter "A" = "A & A" := by rfl

section SelfCombination

variable {α : Type} [Scalar α] {clip : Clipper α} {settings : Settings α} {resolver : Resolver α}
variable {name : String}

theorem evaluate_name (hname : Token.IsNameText name) (hdraws : resolver.Draws settings name) :
    evaluate clip settings resolver name =
      ofRegions settings [resolver.region settings name] := by
  obtain ⟨v, hv, hstands⟩ := Value.ofExpr_name_stands clip hdraws
  rw [evaluate_of_ok (Expr.parse_name hname _)]
  exact ofExpr_of_ok (regionOfExpr_eq_ok_iff.mpr ⟨v, hv, hstands.toRegion⟩)

theorem evaluate_withItself (hname : Token.IsNameText name)
    (hdraws : resolver.Draws settings name) (hdepth : 1 ≤ settings.maxDepth) (op : Op) :
    evaluate clip settings resolver (withItself op name) =
      ofRegions settings [clip.shortcut op (resolver.region settings name)
        (resolver.region settings name)] := by
  obtain ⟨v, hv, hstands⟩ := Value.ofExpr_name_stands clip hdraws
  obtain ⟨u, hu, hself⟩ := Value.apply_stands clip settings op hstands hstands
  rw [withItself, evaluate_of_ok (Expr.parse_bare_names hname hname op hdepth)]
  apply ofExpr_of_ok
  exact regionOfExpr_eq_ok_iff.mpr
    ⟨u, Value.ofExpr_binary_eq_ok_iff.mpr ⟨v, v, hv, hv, hu⟩, hself.toRegion⟩

end SelfCombination

variable {clip : Clipper ℝ} {settings : Settings ℝ} {resolver : Resolver ℝ} {name : String}

/-- Let a name stand for a shape that is no segment, and let the clipper go by the even-odd rule on
its region. Then the shape has an area alone and with itself. By `-` and `^` that is zero. By `&` it
is the measure of the even-odd set, and by `|` too unless the shape alone has no area; so `&` and
`|` both keep the area of the shape exactly if it is the measure of the even-odd set. That is the
case for circles, ellipses and arcs, and for polygons that go round no point twice. -/
theorem area_withItself (hname : Token.IsNameText name) (hdraws : resolver.Draws settings name)
    (hdepth : 1 ≤ settings.maxDepth)
    (hclip : clip.ClipsEvenOdd (resolver.region settings name) (resolver.region settings name)) :
    let alone := evaluate clip settings resolver name
    let self := fun op => evaluate clip settings resolver (withItself op name)
    let region := resolver.region settings name
    let covered := (volume region.evenOdd).toReal
    (alone.isOk = true ∧ ∀ op, (self op).isOk = true) ∧
      ((self .diff).area = 0 ∧ (self .xor).area = 0) ∧
      (alone.area = region.area ∧ (self .inter).area = covered ∧
        (self .union).area = if region.area = 0 then 0 else covered) ∧
      ((self .inter).area = alone.area ∧ (self .union).area = alone.area ↔
        covered = region.area) ∧
      ((∀ vertices, resolver name ≠ some (.polygon vertices)) ∨ region.WindsOnce →
        (self .inter).area = alone.area ∧ (self .union).area = alone.area) := by
  intro alone self region covered
  have halone : alone = ofRegions settings [region] := evaluate_name hname hdraws
  have hself : ∀ op, self op = ofRegions settings [clip.shortcut op region region] :=
    evaluate_withItself hname hdraws hdepth
  have hown : alone.area = region.area := by rw [halone, area_ofRegions]
  have harea : ∀ op, (self op).area = _ := fun op => by
    rw [hself, area_ofRegions, hclip.area_shortcut_self op]
  have hinter : (self .inter).area = covered := harea .inter
  have hunion : (self .union).area = if region.area = 0 then 0 else covered := harea .union
  have hkeeps : (self .inter).area = alone.area ∧ (self .union).area = alone.area ↔
      covered = region.area := by
    rw [hinter, hunion, hown]
    constructor
    · exact And.left
    · intro h
      refine ⟨h, ?_⟩
      split
      · rename_i hzero
        exact hzero.symm
      · exact h
  refine ⟨⟨by rw [halone]; rfl, fun op => by rw [hself]; rfl⟩, ⟨harea .diff, harea .xor⟩,
    ⟨hown, hinter, hunion⟩, hkeeps, ?_⟩
  intro hcase
  obtain ⟨hsimple, honce⟩ := hdraws.windsOnce
  have honce : region.WindsOnce := by
    cases hcase with
    | inl hshape => exact honce.resolve_left fun ⟨vertices, h⟩ => hshape vertices h
    | inr h => exact h
  exact hkeeps.mpr (hsimple.volume_evenOdd honce)

/-- The clipper of whole pieces goes by the even-odd rule on a ring that goes round no point
twice. -/
theorem clipsEvenOdd_ofPieces {ring : Ring ℝ} (h : (Region.ofRing ring).WindsOnce) :
    Clipper.ofPieces.ClipsEvenOdd (.ofRing ring) (.ofRing ring) := by
  have hsimple : (Region.ofRing ring).IsSimple := .inr ⟨ring, rfl⟩
  have hself : ∀ op : Op, Clipper.ofPieces.combine op (.ofRing ring) (.ofRing ring) =
      if op.holds true true then Region.ofRing ring else .empty := by
    intro op
    cases op <;> simp [Clipper.ofPieces, Region.ofRing, Region.empty, Op.holds]
  constructor
  · intro op
    rw [hself]
    cases op <;> simp [Op.holds, Op.act] <;> rfl
  · intro op
    rw [hself]
    split
    · exact (hsimple.volume_evenOdd h).symm
    · simp

theorem isNameText_A : Token.IsNameText "A" :=
  Token.isNameText_of_letter rfl (by decide)

/-- A triangle has the area one half, also with itself. -/
theorem area_withItself_triangle :
    let clip := Clipper.ofPieces
    let settings : Settings ℝ := Settings.default
    let region := triangles.region settings "A"
    Token.IsNameText "A" ∧ triangles.Draws settings "A" ∧ 1 ≤ settings.maxDepth ∧
      clip.ClipsEvenOdd region region ∧ region.WindsOnce ∧
      (evaluate clip settings triangles "A").area = 1 / 2 ∧
      (evaluate clip settings triangles "A & A").area = 1 / 2 ∧
      (evaluate clip settings triangles "A | A").area = 1 / 2 ∧
      (evaluate clip settings triangles "A - A").area = 0 ∧
      (evaluate clip settings triangles "A ^ A").area = 0 := by
  intro clip settings region
  have hregion : region = .ofRing (triangleAt 0) := by
    simp [region, region_triangles]
  have hfans : Ring.Fans 1 (triangleAt 0) := by
    simp [Ring.Fans, triangleAt, Point.cross_eq]
  have honce : region.WindsOnce := by
    rw [hregion]
    exact Ring.windsOnce_of_fans abs_one hfans
  have hdraws : triangles.Draws settings "A" :=
    ⟨_, _, rfl, by simp [Shape.kind?], ofShape_triangleAt settings "A" _⟩
  have hclip : clip.ClipsEvenOdd region region := by
    rw [hregion] at honce ⊢
    exact clipsEvenOdd_ofPieces honce
  have hdepth : 1 ≤ settings.maxDepth := by decide
  have harea : region.area = 1 / 2 := by
    rw [hregion]
    simp [Region.area_ofRing, Ring.area, Ring.edges, triangleAt]
  obtain ⟨-, ⟨hdiff, hxor⟩, ⟨halone, -⟩, -, hkeeps⟩ :=
    area_withItself isNameText_A hdraws hdepth hclip
  obtain ⟨hinter, hunion⟩ := hkeeps (.inr honce)
  rw [halone, harea] at hinter hunion
  rw [harea] at halone
  exact ⟨isNameText_A, hdraws, hdepth, hclip, honce, halone, hinter, hunion, hdiff, hxor⟩

/-- The triangle left of the point `(1, 1)` where the two long sides of `crossed` meet. -/
noncomputable def leftPart : Ring ℝ :=
  [⟨1, 1⟩, ⟨0, 2⟩, ⟨0, 0⟩]

/-- The triangle right of that point. -/
noncomputable def rightPart : Ring ℝ :=
  [⟨1, 1⟩, ⟨3, -1⟩, ⟨3, 3⟩]

/-- A polygon that crosses itself: counter-clockwise round its right part, clockwise round its left
one. -/
noncomputable def crossed : Ring ℝ :=
  [⟨0, 2⟩, ⟨3, -1⟩, ⟨3, 3⟩, ⟨0, 0⟩]

/-- The two parts, apart but for one point. -/
noncomputable def parted : Region ℝ :=
  ⟨[⟨leftPart, []⟩, ⟨rightPart, []⟩]⟩

theorem winding_crossed (p : Point ℝ) :
    crossed.winding p = rightPart.winding p - leftPart.winding p := by
  have hdown := Point.crossing_add (a := ⟨0, 2⟩) (m := ⟨1, 1⟩) (b := ⟨3, -1⟩) p (by norm_num)
    (by norm_num) (by norm_num [Point.cross_eq])
  have hup := Point.crossing_add (a := ⟨0, 0⟩) (m := ⟨1, 1⟩) (b := ⟨3, 3⟩) p (by norm_num)
    (by norm_num) (by norm_num [Point.cross_eq])
  have hcrossed : crossed.winding p = Point.crossing ⟨0, 2⟩ ⟨3, -1⟩ p +
      Point.crossing ⟨3, -1⟩ ⟨3, 3⟩ p + Point.crossing ⟨3, 3⟩ ⟨0, 0⟩ p +
      Point.crossing ⟨0, 0⟩ ⟨0, 2⟩ p := by
    simp [crossed, Ring.winding, Ring.edges, add_assoc]
  rw [hcrossed, leftPart, rightPart, Ring.winding_triangle, Ring.winding_triangle, ← hdown,
    Point.crossing_swap ⟨0, 0⟩ ⟨3, 3⟩, ← hup, Point.crossing_swap ⟨0, 2⟩ ⟨1, 1⟩,
    Point.crossing_swap ⟨1, 1⟩ ⟨3, 3⟩, Point.crossing_swap ⟨0, 2⟩ ⟨0, 0⟩]
  ring

theorem winding_parted (p : Point ℝ) :
    parted.winding p = leftPart.winding p + rightPart.winding p := by
  simp [Region.winding, Region.rings, parted]

/-- By the even-odd rule the polygon is its two parts. -/
theorem evenOdd_crossed : (Region.ofRing crossed).evenOdd = parted.evenOdd := by
  ext z
  rw [Region.mem_evenOdd_iff, Region.mem_evenOdd_iff, Region.winding_ofRing, winding_crossed,
    winding_parted, add_comm, Int.odd_sub, Int.odd_add]

/-- A point of the left part lies left of the common corner, and one of the right part right. -/
theorem winding_parts (p : Point ℝ) :
    (leftPart.winding p = 0 ∨ leftPart.winding p = 1 ∧ p.x ≤ 1) ∧
      (rightPart.winding p = 0 ∨ rightPart.winding p = 1 ∧ 1 ≤ p.x) := by
  constructor
  · refine (Ring.winding_triangle_eq (by norm_num [Point.cross_eq])).imp_right ?_
    rintro ⟨hone, hwithin⟩
    have hside := hwithin.same_side (v := ⟨1, 0⟩) (t := -1) (by norm_num [Point.cross_eq])
      (by norm_num [Point.cross_eq])
    norm_num [Point.cross_eq] at hside
    exact ⟨hone, hside⟩
  · refine (Ring.winding_triangle_eq (by norm_num [Point.cross_eq])).imp_right ?_
    rintro ⟨hone, hwithin⟩
    have hside := hwithin.same_side (v := ⟨1, 0⟩) (t := 1) (by norm_num [Point.cross_eq])
      (by norm_num [Point.cross_eq])
    norm_num [Point.cross_eq] at hside
    exact ⟨hone, hside⟩

theorem volume_parted : (volume parted.evenOdd).toReal = 5 := by
  obtain ⟨hleft, hleftArea⟩ := leftPart.integral_winding
  obtain ⟨hright, hrightArea⟩ := rightPart.integral_winding
  have hoff : ∀ᵐ z : ℝ × ℝ, z.1 ≠ 1 :=
    Measure.quasiMeasurePreserving_fst.ae (Measure.ae_ne volume 1)
  rw [Region.volume_evenOdd (f := fun z =>
    (leftPart.winding ⟨z.1, z.2⟩ : ℝ) + rightPart.winding ⟨z.1, z.2⟩), integral_add hleft hright,
    hleftArea, hrightArea]
  · norm_num [Ring.sweptAbout, Ring.edges, leftPart, rightPart]
  · filter_upwards [hoff] with z hz
    obtain ⟨hl, hr⟩ := winding_parts ⟨z.1, z.2⟩
    rw [winding_parted]
    rcases hl with hl | ⟨hl, hle⟩
    · rcases hr with hr | ⟨hr, -⟩
      · simp [hl, hr]
      · simp [hl, hr]
    · rcases hr with hr | ⟨hr, hge⟩
      · simp [hl, hr]
      · exact absurd (le_antisymm hle hge) hz

/-- A clipper that knows what `crossed` is by the even-odd rule. -/
noncomputable def parting : Clipper ℝ where
  combine op _ _ := if op.holds true true then parted else Region.empty

theorem clipsEvenOdd_parting :
    parting.ClipsEvenOdd (.ofRing crossed) (.ofRing crossed) := by
  have harea : parted.area = 5 := by
    norm_num [Region.area_eq_sum, parted, Polygon.area, Ring.area, Ring.edges, leftPart, rightPart]
  constructor
  · intro op
    cases op <;> simp [parting, Op.holds, Op.act, evenOdd_crossed] <;> rfl
  · intro op
    simp only [parting]
    split
    · rw [harea, volume_parted]
    · simp

theorem ofShape_crossed (settings : Settings ℝ) (name : String) :
    Tagged.ofShape settings name (.polygon crossed) =
      .ok ⟨name, .polygon, .resolved (.ofRing crossed), .polygon crossed⟩ := by
  have hring : Ring.ofPoints? crossed = some crossed := by
    rw [crossed, Ring.ofPoints?_of_apart (by simp), if_neg]
    · norm_num [Ring.signedArea, Ring.edges]
    · simp only [List.isChain_cons_cons, List.isChain_singleton, and_true]
      refine ⟨Point.near_eq_false ?_, Point.near_eq_false ?_, Point.near_eq_false ?_⟩
      all_goals norm_num
    · intro last hlast
      obtain rfl : ⟨0, 0⟩ = last := by simpa using hlast
      exact Point.near_eq_false (by norm_num)
  simp only [Tagged.ofShape, Region.ofPoints?, hring, Option.map_some]
  rfl

/-- A polygon that crosses itself has the area three alone and five with itself. -/
theorem area_withItself_crossed :
    let settings : Settings ℝ := Settings.default
    let resolver : Resolver ℝ := fun _ => some (.polygon crossed)
    let region := resolver.region settings "A"
    Token.IsNameText "A" ∧ resolver.Draws settings "A" ∧ 1 ≤ settings.maxDepth ∧
      parting.ClipsEvenOdd region region ∧
      (evaluate parting settings resolver "A").area = 3 ∧
      (evaluate parting settings resolver "A & A").area = 5 ∧
      (evaluate parting settings resolver "A | A").area = 5 := by
  intro settings resolver region
  have hshape := ofShape_crossed settings "A"
  have hdraws : resolver.Draws settings "A" := ⟨_, _, rfl, by simp [Shape.kind?], hshape⟩
  have hregion : region = .ofRing crossed := by
    simp only [region, Resolver.region, resolver, hshape]
  have hclip : parting.ClipsEvenOdd region region := by
    rw [hregion]
    exact clipsEvenOdd_parting
  have hdepth : 1 ≤ settings.maxDepth := by decide
  have harea : region.area = 3 := by
    rw [hregion]
    norm_num [Region.area_ofRing, Ring.area, Ring.edges, crossed]
  have hcovered : (volume region.evenOdd).toReal = 5 := by
    rw [hregion, evenOdd_crossed, volume_parted]
  have hself : ∀ op, (evaluate parting settings resolver (withItself op "A")).area = _ :=
    fun op => by
      rw [evaluate_withItself isNameText_A hdraws hdepth, area_ofRegions,
        hclip.area_shortcut_self op]
  refine ⟨isNameText_A, hdraws, hdepth, hclip, ?_, ?_, ?_⟩
  · rw [evaluate_name isNameText_A hdraws, area_ofRegions]
    exact harea
  · exact (hself .inter).trans hcovered
  · exact (hself .union).trans (by simp [region, hcovered, harea])

end Outcome

end PlanarArea
