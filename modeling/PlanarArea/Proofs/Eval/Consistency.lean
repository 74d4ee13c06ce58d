import PlanarArea.Overlay.Clip
import PlanarArea.Proofs.Eval.Faults
import PlanarArea.Proofs.Expr.Render
import PlanarArea.Proofs.Plane.Doubles

/-!
# Consistent outcomes

An outcome is a fault, or nothing, or one region of positive area with that area. Emptiness, the
area and the regions of an outcome are decided apart, and on doubles they disagree for one kind of
region: an area that is no number is not at most zero, so that the region is kept, but its larger
one with zero is zero. Such an area comes from finite corners whose products are too large.
-/
namespace PlanarArea

namespace Region

/-- A region without a piece has the area zero. -/
theorem isEmpty_iff_le {r : Region Float} : r.isEmpty = true ↔ r.area ≤ 0 := by
  obtain ⟨polygons⟩ := r
  cases polygons with
  | nil => decide
  | cons p ps => exact decide_eq_true_iff

end Region

namespace Outcome

/-- After a fault there is neither an area nor a region. -/
structure Failed (o : Outcome Float) : Prop where
  fault : o.fault ≠ none
  area : o.area = 0
  regions : o.regions = []
  combined : o.combined = none

/-- No fault and nothing left. -/
structure Vacant (o : Outcome Float) : Prop where
  fault : o.fault = none
  area : o.area = 0
  regions : o.regions = []
  combined : o.combined = none

/-- No fault and one region, which is not empty, with its area. -/
structure Single (o : Outcome Float) (region : Region Float) : Prop where
  fault : o.fault = none
  regions : o.regions = [region]
  combined : o.combined = some region
  isEmpty : region.isEmpty = false
  area : o.area = region.area
  area_pos : 0 < o.area

/-- No fault and one region, but the area zero: the area of the region is no number. -/
structure Unmeasured (o : Outcome Float) (region : Region Float) : Prop where
  fault : o.fault = none
  regions : o.regions = [region]
  combined : o.combined = some region
  isNaN : region.area.isNaN = true
  area : o.area = 0

/-- The three states that an outcome should be in. -/
def Consistent (o : Outcome Float) : Prop :=
  o.Failed ∨ o.Vacant ∨ ∃ region, o.Single region

variable {o : Outcome Float} {region : Region Float}

theorem Unmeasured.eq (h : o.Unmeasured region) : o = ⟨0, [region], some region, none⟩ := by
  obtain ⟨area, regions, combined, fault⟩ := o
  obtain ⟨rfl, rfl, rfl, -, rfl⟩ := h
  rfl

/-- The fourth state is none of the three. -/
theorem Unmeasured.not_consistent (h : o.Unmeasured region) : ¬ o.Consistent := by
  rintro (hfailed | hvacant | ⟨other, hsingle⟩)
  · exact hfailed.fault h.fault
  · exact absurd (h.regions.symm.trans hvacant.regions) (List.cons_ne_nil _ _)
  · have hpos := hsingle.area_pos
    rw [h.area] at hpos
    exact absurd hpos (by decide)

theorem failed_ofFault (fault : Fault) : (ofFault fault : Outcome Float).Failed :=
  ⟨Option.some_ne_none _, rfl, rfl, rfl⟩

variable {settings : Settings Float}

theorem ofRegions_of_isEmpty (h : region.isEmpty = true) :
    ofRegions settings [region] = ⟨0, [], none, none⟩ := by
  simp [ofRegions, h, Region.merge?]

theorem ofRegions_of_not_isEmpty (h : region.isEmpty = false) :
    ofRegions settings [region] = ⟨Scalar.max region.area 0, [region], some region, none⟩ := by
  simp [ofRegions, h, Region.merge?]

theorem vacant_ofRegions (h : region.area ≤ 0) : (ofRegions settings [region]).Vacant := by
  rw [ofRegions_of_isEmpty (Region.isEmpty_iff_le.mpr h)]
  exact ⟨rfl, rfl, rfl, rfl⟩

theorem single_ofRegions (h : 0 < region.area) :
    (ofRegions settings [region]).Single region := by
  have hempty : region.isEmpty = false := by
    rw [← Bool.not_eq_true, Region.isEmpty_iff_le]
    exact (Scalar.pos_iff.mp h).2
  rw [ofRegions_of_not_isEmpty hempty, Scalar.max_zero_of_pos h]
  exact ⟨rfl, rfl, rfl, hempty, rfl, h⟩

theorem unmeasured_ofRegions (h : region.area.isNaN = true) :
    (ofRegions settings [region]).Unmeasured region := by
  have hempty : region.isEmpty = false := by
    rw [← Bool.not_eq_true, Region.isEmpty_iff_le]
    exact Scalar.not_le_of_isNaN h
  rw [ofRegions_of_not_isEmpty hempty, Scalar.max_zero_of_isNaN h]
  exact ⟨rfl, rfl, rfl, h, rfl⟩

theorem consistent_ofRegions (h : ¬ region.area.isNaN = true) :
    (ofRegions settings [region]).Consistent := by
  by_cases hle : region.area ≤ 0
  · exact .inr (.inl (vacant_ofRegions hle))
  · exact .inr (.inr ⟨region, single_ofRegions (Scalar.pos_iff.mpr ⟨h, hle⟩)⟩)

variable {clip : Clipper Float} {resolver : Resolver Float} {text : String}

/-- The text stands for this region. -/
def Denotes (clip : Clipper Float) (settings : Settings Float) (resolver : Resolver Float)
    (text : String) (region : Region Float) : Prop :=
  ∃ tree, Expr.parse text settings.maxDepth = .ok tree ∧
    regionOfExpr clip settings resolver tree = .ok region

theorem evaluate_of_denotes (h : Denotes clip settings resolver text region) :
    evaluate clip settings resolver text = ofRegions settings [region] := by
  obtain ⟨tree, hparse, hregion⟩ := h
  rw [evaluate_of_ok hparse, ofExpr_of_ok hregion]

/-- A text stands for a region, or its evaluation fails. -/
theorem failed_or_denotes (clip : Clipper Float) (settings : Settings Float)
    (resolver : Resolver Float) (text : String) :
    (evaluate clip settings resolver text).Failed ∨
      ∃ region, Denotes clip settings resolver text region := by
  rw [evaluate]
  split
  · exact .inl (failed_ofFault _)
  · rename_i tree hparse
    split
    · exact .inl (failed_ofFault _)
    · rename_i region hregion
      exact .inr ⟨region, tree, hparse, hregion⟩

/-- The outcome of an evaluation is consistent unless the text stands for a region whose area is no
number. Then the region is reported and the area is zero. -/
theorem evaluate_consistent_iff (clip : Clipper Float) (settings : Settings Float)
    (resolver : Resolver Float) (text : String) :
    ((evaluate clip settings resolver text).Consistent ↔
        ¬ ∃ region, Denotes clip settings resolver text region ∧ region.area.isNaN = true) ∧
      ∀ region, Denotes clip settings resolver text region → region.area.isNaN = true →
        (evaluate clip settings resolver text).Unmeasured region := by
  have hunmeasured : ∀ region, Denotes clip settings resolver text region →
      region.area.isNaN = true → (evaluate clip settings resolver text).Unmeasured region := by
    intro region hregion hnan
    rw [evaluate_of_denotes hregion]
    exact unmeasured_ofRegions hnan
  refine ⟨⟨?_, ?_⟩, hunmeasured⟩
  · rintro hconsistent ⟨region, hregion, hnan⟩
    exact (hunmeasured region hregion hnan).not_consistent hconsistent
  · intro hnumber
    obtain hfailed | ⟨region, hregion⟩ := failed_or_denotes clip settings resolver text
    · exact .inl hfailed
    · rw [evaluate_of_denotes hregion]
      exact consistent_ofRegions fun hnan => hnumber ⟨region, hregion, hnan⟩

/-- The name of a polygon stands for the region in the ring of its corners. -/
theorem denotes_polygon {name : String} {vertices : List (Point Float)} {ring : Ring Float}
    (hname : Token.IsNameText name) (hshape : resolver name = some (.polygon vertices))
    (hring : Ring.ofPoints? vertices = some ring) :
    Denotes clip settings resolver name (.ofRing ring) := by
  have hregion : Region.ofPoints? vertices = some (.ofRing ring) :=
    congrArg (Option.map Region.ofRing) hring
  refine ⟨.name name, Expr.parse_name hname _, ?_⟩
  simp [regionOfExpr, Value.ofExpr, Resolver.resolve, hshape, Tagged.ofShape, hregion,
    Tagged.orDefect, Except.map, Value.toRegion, Tagged.toRegion]

theorem isNameText_P : Token.IsNameText "P" :=
  Token.isNameText_of_letter rfl (by decide)

/-- A triangle with finite corners whose products are infinite. -/
def vastTriangle : Ring Float :=
  [⟨0, 0⟩, ⟨1e200, 1e200⟩, ⟨2e200, 1e200⟩]

theorem measures_vastTriangle : Ring.ofPoints? vastTriangle = some vastTriangle ∧
    vastTriangle.all Point.isFinite = true ∧
    (Region.ofRing vastTriangle).area.isNaN = true := by
  decide +kernel

theorem denotes_vastTriangle :
    Denotes Overlay.clipper Settings.default (fun _ => some (.polygon vastTriangle)) "P"
      (.ofRing vastTriangle) :=
  denotes_polygon isNameText_P rfl measures_vastTriangle.1

/-- The corners of the triangle are finite, but the outcome has one region and the area zero. -/
theorem evaluate_vastTriangle :
    let o := evaluate Overlay.clipper Settings.default
      (fun _ => some (.polygon vastTriangle)) "P"
    vastTriangle.all Point.isFinite = true ∧ ¬ o.Consistent ∧
      o = ⟨0, [.ofRing vastTriangle], some (.ofRing vastTriangle), none⟩ := by
  intro o
  obtain ⟨-, hfinite, hnan⟩ := measures_vastTriangle
  have hstate := @unmeasured_ofRegions (.ofRing vastTriangle) Settings.default hnan
  rw [← evaluate_of_denotes denotes_vastTriangle] at hstate
  exact ⟨hfinite, hstate.not_consistent, hstate.eq⟩

end Outcome

end PlanarArea
