import PlanarArea.Command.Run
import PlanarArea.Proofs.Eval.Consistency
import PlanarArea.Proofs.Scene.Text

/-!
# Reports that are read back

A report is read back from what is printed unless its area is not finite, for such an area is
printed as `null`. The area of an outcome is a number and not less than zero, but it is infinite if
the text stands for a region whose area is: corners are checked to be finite, areas are not. This is
so for finite corners whose products are too large, even where the area is not.
-/
namespace PlanarArea

namespace Report

/-- The text of a report, as it is printed. -/
def text (r : Report Float) : String :=
  r.toJson.compact

/-- What is printed for an area that is not finite. -/
def nullText : String :=
  "\x7b\"type\":\"area\",\"value\":null\x7d"

/-- Reads a report back from its text. -/
def ofText? (text : String) : Option (Report Float) :=
  (Json.ofText? text).bind ofJson?

/-- The area, if it is one, is finite. -/
def IsFinite : Report Float → Prop
  | area value => value.isFinite = true
  | error _ => True

/-- What stands as the value is the area as a number or the text of the error. -/
def States : Report Float → Json → Prop
  | area value, j => j.get? "value" = some (.float value)
  | error text, j => j.get? "value" = some (.str text)

/-- The area, if it is one, is read back from the numeral that is written for it. -/
def ReadsBack : Report Float → Prop
  | area value => Json.ReadsBack value
  | error _ => True

variable {r : Report Float}

theorem get?_value (kind value : Json) :
    Json.get? "value" (.obj [("type", kind), ("value", value)]) = some value := rfl

theorem toJson_of_not_isFinite (h : ¬ r.IsFinite) :
    r.toJson = .obj [("type", .str "area"), ("value", .null)] := by
  cases r with
  | area value =>
    have hnull : Json.ofFloat value = .null := if_neg h
    rw [toJson, hnull]
  | error text => exact absurd trivial h

/-- No number is read from `null`. -/
theorem ofJson?_null : ofJson? (.obj [("type", .str "area"), ("value", .null)]) = none := rfl

theorem ofJson?_toJson (h : r.IsFinite) : ofJson? r.toJson = some r := by
  cases r with
  | area value =>
    have hread : ofJson? (toJson (area value)) =
        (Json.ofFloat value).float?.bind fun x => some (area x) := rfl
    rw [hread, Json.float?_ofFloat h, Option.bind_some]
  | error text => rfl

theorem ofJson?_toJson_iff : ofJson? r.toJson = some r ↔ r.IsFinite := by
  refine ⟨fun h => ?_, ofJson?_toJson⟩
  by_contra hinfinite
  rw [toJson_of_not_isFinite hinfinite, ofJson?_null] at h
  cases h

theorem states_toJson_iff : r.States r.toJson ↔ r.IsFinite := by
  cases r with
  | area value =>
    rw [States, toJson, get?_value, IsFinite, Json.ofFloat]
    by_cases hfinite : value.isFinite = true
    · simp [hfinite]
    · simp [hfinite]
  | error text => exact iff_of_true rfl trivial

/-- Reading the text of a report is reading its JSON form. -/
theorem ofText?_text (h : r.ReadsBack) : ofText? r.text = ofJson? r.toJson := by
  have hreadable : Json.Readable Json.maxDepth r.toJson := by
    cases r with
    | area value => exact .obj (by simp [Json.Readable.str, Json.readable_ofFloat h])
    | error text => exact .obj (by simp [Json.Readable.str])
  rw [ofText?, text, Json.ofText?_compact hreadable]
  rfl

/-- An area that is not finite is printed as `null`. -/
theorem text_of_not_isFinite (h : ¬ r.IsFinite) :
    r.text = nullText ∧ ofText? r.text = none := by
  have hnull := toJson_of_not_isFinite h
  have hback : r.ReadsBack := by
    cases r with
    | area value => exact fun hfinite => absurd hfinite h
    | error text => trivial
  refine ⟨?_, ?_⟩
  · rw [text, hnull]
    decide +kernel
  · rw [ofText?_text hback, hnull, ofJson?_null]

end Report

/-- An area greater than zero that is beyond the largest double. -/
def Region.IsVast (r : Region Float) : Prop :=
  0 < r.area ∧ ¬ r.area.isFinite = true

namespace Outcome

variable {clip : Clipper Float} {settings : Settings Float} {resolver : Resolver Float}
  {text : String} {region : Region Float}

theorem Denotes.unique {other : Region Float} (h : Denotes clip settings resolver text region)
    (hother : Denotes clip settings resolver text other) : region = other := by
  obtain ⟨tree, hparse, hregion⟩ := h
  obtain ⟨tree', hparse', hregion'⟩ := hother
  cases hparse.symm.trans hparse'
  cases hregion.symm.trans hregion'
  rfl

theorem Denotes.exists_isVast_iff (h : Denotes clip settings resolver text region) :
    (∃ other, Denotes clip settings resolver text other ∧ other.IsVast) ↔ region.IsVast := by
  refine ⟨?_, fun hvast => ⟨region, h, hvast⟩⟩
  rintro ⟨other, hother, hvast⟩
  rwa [h.unique hother]

theorem isFinite_report_of_failed {o : Outcome Float} (h : o.Failed) : o.report.IsFinite := by
  cases hfault : o.fault with
  | none => exact absurd hfault h.fault
  | some fault =>
    rw [report, hfault]
    trivial

theorem report_of_ok {o : Outcome Float} (h : o.fault = none) : o.report = .area o.area := by
  rw [report, h]

theorem report_of_pos (h : Denotes clip settings resolver text region) (hpos : 0 < region.area) :
    (evaluate clip settings resolver text).report = .area region.area := by
  have hsingle := @single_ofRegions region settings hpos
  rw [evaluate_of_denotes h, report_of_ok hsingle.fault, hsingle.area]

/-- The report on a region is finite unless the region is vast: an area that is not greater than
zero is reported as zero. -/
theorem isFinite_report_ofRegions :
    (ofRegions settings [region]).report.IsFinite ↔ ¬ region.IsVast := by
  have hzero : ∀ o : Outcome Float, o.fault = none → o.area = 0 → o.report.IsFinite := by
    intro o hfault harea
    rw [report_of_ok hfault, harea]
    exact Shape.isFinite_zero
  by_cases hpos : 0 < region.area
  · have hsingle := @single_ofRegions region settings hpos
    rw [report_of_ok hsingle.fault, hsingle.area, Region.IsVast, and_iff_right hpos, not_not]
    rfl
  · refine iff_of_true ?_ fun hvast => hpos hvast.1
    by_cases hnan : region.area.isNaN = true
    · have hunmeasured := @unmeasured_ofRegions region settings hnan
      exact hzero _ hunmeasured.fault hunmeasured.area
    · have hle : region.area ≤ 0 := by
        by_contra hle
        exact hpos (Scalar.pos_iff.mpr ⟨hnan, hle⟩)
      have hvacant := @vacant_ofRegions region settings hle
      exact hzero _ hvacant.fault hvacant.area

/-- The report on an evaluation is finite unless the text stands for a vast region. -/
theorem isFinite_report_evaluate (clip : Clipper Float) (settings : Settings Float)
    (resolver : Resolver Float) (text : String) :
    (evaluate clip settings resolver text).report.IsFinite ↔
      ¬ ∃ region, Denotes clip settings resolver text region ∧ region.IsVast := by
  obtain hfailed | ⟨region, hregion⟩ := failed_or_denotes clip settings resolver text
  · refine iff_of_true (isFinite_report_of_failed hfailed) ?_
    rintro ⟨region, hregion, -⟩
    rw [evaluate_of_denotes hregion] at hfailed
    exact hfailed.fault rfl
  · rw [evaluate_of_denotes hregion, isFinite_report_ofRegions, hregion.exists_isVast_iff]

/-- The report on an evaluation is read back from its JSON form, and from its text if its area is
read back from the numeral that is written for it, unless the text stands for a vast region. In the
same case the JSON form states the area as a number or the text of the fault. The area of a vast
region is written as `null`, from which no report is read. -/
theorem report_round_trip_iff (clip : Clipper Float) (settings : Settings Float)
    (resolver : Resolver Float) (text : String) :
    let r := (evaluate clip settings resolver text).report
    let vast := ∃ region, Denotes clip settings resolver text region ∧ region.IsVast
    (Report.ofJson? r.toJson = some r ↔ ¬ vast) ∧
      (r.States r.toJson ↔ ¬ vast) ∧
      (r.ReadsBack → (Report.ofText? r.text = some r ↔ ¬ vast)) ∧
      (vast → r.text = Report.nullText ∧ Report.ofText? r.text = none) := by
  intro r vast
  have hfinite : r.IsFinite ↔ ¬ vast := isFinite_report_evaluate clip settings resolver text
  refine ⟨?_, ?_, fun hback => ?_, fun hvast => ?_⟩
  · rw [Report.ofJson?_toJson_iff, hfinite]
  · rw [Report.states_toJson_iff, hfinite]
  · rw [Report.ofText?_text hback, Report.ofJson?_toJson_iff, hfinite]
  · exact Report.text_of_not_isFinite fun h => hfinite.mp h hvast

/-- A triangle whose area is a double, but twice the area is not. -/
def largeTriangle : Ring Float :=
  [⟨0, 0⟩, ⟨1.5e154, 0⟩, ⟨0, 1.5e154⟩]

theorem measures_largeTriangle : Ring.ofPoints? largeTriangle = some largeTriangle ∧
    0 < (Region.ofRing largeTriangle).area ∧
    ¬ (Region.ofRing largeTriangle).area.isFinite = true := by
  decide +kernel

theorem isVast_largeTriangle : (Region.ofRing largeTriangle).IsVast :=
  measures_largeTriangle.2

theorem denotes_largeTriangle (hshape : resolver "P" = some (.polygon largeTriangle)) :
    Denotes clip settings resolver "P" (.ofRing largeTriangle) :=
  denotes_polygon isNameText_P hshape measures_largeTriangle.1

theorem not_isFinite_largeTriangle (hshape : resolver "P" = some (.polygon largeTriangle)) :
    ¬ (evaluate clip settings resolver "P").report.IsFinite :=
  mt (isFinite_report_evaluate clip settings resolver "P").mp
    (not_not_intro ⟨_, denotes_largeTriangle hshape, isVast_largeTriangle⟩)

/-- A triangle of area six. -/
def smallTriangle : Ring Float :=
  [⟨0, 0⟩, ⟨4, 0⟩, ⟨0, 3⟩]

theorem measures_smallTriangle : Ring.ofPoints? smallTriangle = some smallTriangle ∧
    (Region.ofRing smallTriangle).area = 6 ∧ 0 < (Region.ofRing smallTriangle).area ∧
    (Region.ofRing smallTriangle).area.isFinite = true := by
  decide +kernel

theorem denotes_smallTriangle (hshape : resolver "P" = some (.polygon smallTriangle)) :
    Denotes clip settings resolver "P" (.ofRing smallTriangle) :=
  denotes_polygon isNameText_P hshape measures_smallTriangle.1

theorem not_vast_smallTriangle (hshape : resolver "P" = some (.polygon smallTriangle)) :
    ¬ ∃ region, Denotes clip settings resolver "P" region ∧ region.IsVast := by
  rw [(denotes_smallTriangle hshape).exists_isVast_iff]
  exact fun hvast => hvast.2 measures_smallTriangle.2.2.2

theorem report_smallTriangle (hshape : resolver "P" = some (.polygon smallTriangle)) :
    (evaluate clip settings resolver "P").report = .area 6 := by
  obtain ⟨-, harea, hpos, -⟩ := measures_smallTriangle
  rw [← harea]
  exact report_of_pos (denotes_smallTriangle hshape) hpos

/-- The numbers of the two triangles that are written in a report or a scene. -/
theorem readsBack_numbers :
    Json.ReadsBack 0 ∧ Json.ReadsBack 6 ∧ Json.ReadsBack 1.5e154 := by
  refine ⟨?_, ?_, ?_⟩
  · exact Json.readsBack_of_float? (n := ⟨false, ['0'], some ['0'], none⟩) (by decide +kernel) rfl
      (by decide +kernel)
  · exact Json.readsBack_of_float? (n := ⟨false, ['6'], some ['0'], none⟩) (by decide +kernel) rfl
      (by decide +kernel)
  · exact Json.readsBack_of_float? (n := ⟨false, ['1'], some ['5'], some 154⟩) (by decide +kernel)
      rfl (by decide +kernel)

/-- A triangle of area six is read back, and one whose area is taken to be infinite is not. -/
theorem report_round_trip_triangles :
    let report (ring : Ring Float) :=
      (evaluate Overlay.clipper Settings.default (fun _ => some (.polygon ring)) "P").report
    Report.ofText? (report [⟨0, 0⟩, ⟨4, 0⟩, ⟨0, 3⟩]).text = some (.area 6) ∧
      Report.ofText? (report largeTriangle).text = none := by
  intro report
  have hsmall := report_round_trip_iff Overlay.clipper Settings.default
    (fun _ => some (.polygon smallTriangle)) "P"
  have hlarge := report_round_trip_iff Overlay.clipper Settings.default
    (fun _ => some (.polygon largeTriangle)) "P"
  have hreport : report smallTriangle = .area 6 := report_smallTriangle rfl
  have hback : (report smallTriangle).ReadsBack := by
    rw [hreport]
    exact readsBack_numbers.2.1
  refine ⟨?_, (hlarge.2.2.2 ⟨_, denotes_largeTriangle rfl, isVast_largeTriangle⟩).2⟩
  rw [← hreport]
  exact (hsmall.2.2.1 hback).mpr (not_vast_smallTriangle rfl)

end Outcome

namespace Command

/-- What is printed for an expression over a scene that is read from its text. -/
theorem run_evaluate {s : Scene Float} (hfinite : AllFinite s.numbers)
    (hback : AllReadBack s.numbers) (path expr : String) (curvePoints : Option Nat)
    (halfPlaneExtent : Option Float) :
    run (some s.toJson.compact) (.evaluate path expr curvePoints halfPlaneExtent) =
      .ok (Outcome.evaluate Overlay.clipper (settings curvePoints halfPlaneExtent) s.resolver
        expr).report.text := by
  rw [run, report?, Scene.ofText?_compact hfinite hback]
  rfl

/-- The text of a scene with one triangle, whose area is a double. -/
def largeScene : String :=
  "\x7b\"P\":\x7b\"type\":\"polygon\"," ++
    "\"vertices\":[[0.0,0.0],[1.5e154,0.0],[0.0,1.5e154]]\x7d\x7d"

/-- The numbers of the scene are finite, but `null` is printed and no report is read from it. -/
theorem run_evaluate_largeScene :
    run (some largeScene) (.evaluate "/dev/stdin" "P" none none) = .ok Report.nullText ∧
      Report.ofText? Report.nullText = none := by
  let s : Scene Float := ⟨[("P", .polygon Outcome.largeTriangle)], List.pairwise_singleton _ _⟩
  have htext : largeScene = s.toJson.compact := by decide +kernel
  have hnumbers : s.numbers = [0, 0, 1.5e154, 0, 0, 1.5e154] := rfl
  have hfinite : AllFinite s.numbers := by
    rw [hnumbers, AllFinite]
    decide +kernel
  have hback : AllReadBack s.numbers := by
    rw [hnumbers, AllReadBack]
    simp [Outcome.readsBack_numbers]
  have hreport : ¬ (Outcome.evaluate Overlay.clipper (settings none none) s.resolver
      "P").report.IsFinite := Outcome.not_isFinite_largeTriangle rfl
  obtain ⟨hnull, hnone⟩ := Report.text_of_not_isFinite hreport
  rw [htext, run_evaluate hfinite hback, ← hnull]
  exact ⟨rfl, hnone⟩

end Command

end PlanarArea
