import PlanarArea.Eval.Tagged
import PlanarArea.Proofs.Plane.Strict
import PlanarArea.Proofs.Shape.RoundTrip

/-!
# Shapes with numbers that are not finite

No boundary goes through a point that is not finite, and such a point comes out of every number of a
shape that is not finite. So circles, ellipses and polygons are refused, and segments once they
stand for half planes. Arcs are not, unless their radius is not finite: where no boundary is left,
they have the empty region, and of their ends only the directions matter.
-/
namespace PlanarArea

/-- The shape is refused under its name, a segment only once it stands for a half plane. -/
def Tagged.Refused {α : Type} [Scalar α] (settings : Settings α) (name : String) (s : Shape α) :
    Prop :=
  match s with
  | .segment start stop =>
    let pending : Tagged α := ⟨name, .segment, .pending start stop, s⟩
    ofShape settings name s = .ok pending ∧
      pending.toRegion settings = .error (.degenerate name .coincidentEndpoints)
  | _ => ∃ defect, ofShape settings name s = .error (.degenerate name defect)

/-- An arc with a finite radius greater than zero, whatever its points are. -/
def Shape.IsProperArc {α : Type} [Scalar α] : Shape α → Prop
  | circleArc _ radius .. => isPositive radius = true
  | _ => False

section Strict

variable {α : Type} [Scalar α] {center p q : Point α} {radius rx ry rotation extent angle : α}

namespace Point

theorem isFinite_iff : p.isFinite = true ↔ ∀ x ∈ p.numbers, Scalar.isFinite x = true := by
  simp [isFinite, numbers]

theorem isFinite_of_add (hα : Scalar.Strict α) (h : (p + q).isFinite = true) :
    p.isFinite = true := by
  obtain ⟨hx, hy⟩ := Bool.and_eq_true_iff.mp h
  exact Bool.and_eq_true_iff.mpr ⟨(hα.add hx).1, (hα.add hy).1⟩

theorem isFinite_of_sub (hα : Scalar.Strict α) (h : (p - q).isFinite = true) :
    p.isFinite = true := by
  obtain ⟨hx, hy⟩ := Bool.and_eq_true_iff.mp h
  exact Bool.and_eq_true_iff.mpr ⟨(hα.sub hx).1, (hα.sub hy).1⟩

end Point

theorem Angle.isFinite_of_onCircle (hα : Scalar.Strict α)
    (h : (onCircle center radius angle).isFinite = true) :
    center.isFinite = true ∧ Scalar.isFinite (Scalar.cos angle) = true := by
  obtain ⟨hx, hy⟩ := Bool.and_eq_true_iff.mp h
  obtain ⟨hcenter, hacross⟩ := hα.add hx
  exact ⟨Bool.and_eq_true_iff.mpr ⟨hcenter, (hα.add hy).1⟩, (hα.mul hacross).2⟩

theorem isFinite_of_isPositive (h : isPositive radius = true) : Scalar.isFinite radius = true :=
  (Bool.and_eq_true_iff.mp h).1

namespace Region

variable {ps : List (Point α)} {region : Region α} {samples : Nat}

theorem isFinite_of_ofPoints? (h : ofPoints? ps = some region) (hp : p ∈ ps) :
    p.isFinite = true := by
  rw [ofPoints?, Ring.ofPoints?] at h
  split at h
  · rename_i hfinite
    exact List.all_eq_true.mp hfinite p hp
  · cases h

/-- The first corner alone depends on the center and on the cosine of the rotation. -/
theorem isFinite_of_ofEllipse? (hα : Scalar.Strict α)
    (h : ofEllipse? center rx ry rotation samples = some region) :
    center.isFinite = true ∧ Scalar.isFinite (Scalar.cos rotation) = true := by
  rw [ofEllipse?] at h
  split at h
  · have hfirst := isFinite_of_ofPoints? h
      (List.mem_map_of_mem (List.mem_range.mpr (show 0 < max samples 3 by omega)))
    obtain ⟨hx, hy⟩ := Bool.and_eq_true_iff.mp hfirst
    have hxcos := hα.add (hα.sub hx).1
    have hysin := hα.add (hα.add hy).1
    exact ⟨Bool.and_eq_true_iff.mpr ⟨hxcos.1, hysin.1⟩, (hα.mul hxcos.2).2⟩
  · cases h

/-- A point beyond each of the two given ones is a corner. -/
theorem isFinite_of_ofHalfPlane? (hα : Scalar.Strict α)
    (h : ofHalfPlane? p q extent = some region) : p.isFinite = true ∧ q.isFinite = true := by
  rw [ofHalfPlane?] at h
  split at h
  · have hp := isFinite_of_ofPoints? h (List.mem_cons_self ..)
    have hq := isFinite_of_ofPoints? h (List.mem_cons_of_mem _ (List.mem_cons_self ..))
    exact ⟨Point.isFinite_of_sub hα hp, Point.isFinite_of_add hα hq⟩
  · cases h

end Region

namespace Arc

variable {arc : Arc α}

/-- The center and both angles are finite. -/
def IsFinite (arc : Arc α) : Prop :=
  arc.center.isFinite = true ∧ Scalar.isFinite arc.start = true ∧ Scalar.isFinite arc.sweep = true

theorem region_eq_empty_or (settings : Settings α) (arc : Arc α) :
    arc.region settings = Region.empty ∨ ∃ n, ∀ p ∈ arc.sample n, p.isFinite = true := by
  rw [region]
  cases hregion : Region.ofPoints? (arc.sample (settings.intervals arc.sweep
    settings.arcMinPoints)) with
  | none => exact .inl rfl
  | some region => exact .inr ⟨_, fun p => Region.isFinite_of_ofPoints? hregion⟩

/-- The first point that is sampled depends on the center and on both angles. -/
theorem isFinite_of_sample (hα : Scalar.Strict α) {n : Nat}
    (h : ∀ p ∈ arc.sample n, p.isFinite = true) :
    arc.center.isFinite = true ∧
      ∃ t, Scalar.isFinite (Scalar.cos (arc.start + t * arc.sweep)) = true := by
  have hfirst := h _ (List.mem_map_of_mem (List.mem_range.mpr (Nat.zero_lt_succ (max n 1))))
  obtain ⟨hcenter, hturned⟩ := Angle.isFinite_of_onCircle hα hfirst
  exact ⟨hcenter, _, hturned⟩

theorem region_eq_empty_of_center (hα : Scalar.Strict α) (settings : Settings α)
    (h : ¬arc.center.isFinite = true) : arc.region settings = Region.empty := by
  obtain hempty | ⟨n, hpoints⟩ := arc.region_eq_empty_or settings
  · exact hempty
  · exact absurd (isFinite_of_sample hα hpoints).1 h

theorem region_eq_empty (hα : Scalar.Strict α)
    (hcos : ∀ x : α, Scalar.isFinite (Scalar.cos x) = true → Scalar.isFinite x = true)
    (settings : Settings α) (h : ¬arc.IsFinite) : arc.region settings = Region.empty := by
  obtain hempty | ⟨n, hpoints⟩ := arc.region_eq_empty_or settings
  · exact hempty
  · obtain ⟨hcenter, t, hturned⟩ := isFinite_of_sample hα hpoints
    obtain ⟨hstart, hswept⟩ := hα.add (hcos _ hturned)
    exact absurd ⟨hcenter, hstart, (hα.mul hswept).2⟩ h

end Arc

namespace Tagged

variable (hα : Scalar.Strict α)
  (hcos : ∀ x : α, Scalar.isFinite (Scalar.cos x) = true → Scalar.isFinite x = true)
  (settings : Settings α) (name : String)
include hα

theorem refused_circle (h : ¬∀ x ∈ (Shape.circle center radius).numbers, Scalar.isFinite x = true) :
    Refused settings name (.circle center radius) := by
  by_cases hr : isPositive radius = true
  · cases hregion : Region.ofCircle? center radius settings.curvePoints with
    | none => exact ⟨.emptyCircle, by simp only [ofShape, if_pos hr, hregion, orDefect]; rfl⟩
    | some region =>
      have hcenter := (Region.isFinite_of_ofEllipse? hα hregion).1
      refine absurd (List.forall_mem_append.mpr ⟨Point.isFinite_iff.mp hcenter, ?_⟩) h
      simpa using isFinite_of_isPositive hr
  · exact ⟨.radius, if_neg hr⟩

include hcos in
theorem refused_ellipse
    (h : ¬∀ x ∈ (Shape.ellipse center rx ry rotation).numbers, Scalar.isFinite x = true) :
    Refused settings name (.ellipse center rx ry rotation) := by
  by_cases hr : (isPositive rx && isPositive ry) = true
  · cases hregion : Region.ofEllipse? center rx ry (Angle.ofDegrees rotation)
      settings.curvePoints with
    | none => exact ⟨.emptyEllipse, by simp only [ofShape, if_pos hr, hregion, orDefect]; rfl⟩
    | some region =>
      obtain ⟨hcenter, hturned⟩ := Region.isFinite_of_ofEllipse? hα hregion
      have hrotation := (hα.mul (hcos _ hturned)).1
      obtain ⟨hrx, hry⟩ := Bool.and_eq_true_iff.mp hr
      refine absurd (List.forall_mem_append.mpr ⟨Point.isFinite_iff.mp hcenter, ?_⟩) h
      simpa using ⟨isFinite_of_isPositive hrx, isFinite_of_isPositive hry, hrotation⟩
  · exact ⟨.radii, if_neg hr⟩

theorem refused_segment
    (h : ¬∀ x ∈ (Shape.segment p q).numbers, Scalar.isFinite x = true) :
    Refused settings name (.segment p q) := by
  refine ⟨rfl, ?_⟩
  cases hregion : Region.ofHalfPlane? p q settings.halfPlaneExtent with
  | none => simp only [toRegion, hregion]
  | some region =>
    obtain ⟨hp, hq⟩ := Region.isFinite_of_ofHalfPlane? hα hregion
    exact absurd (List.forall_mem_append.mpr ⟨Point.isFinite_iff.mp hp, Point.isFinite_iff.mp hq⟩) h

omit hα in
theorem refused_polygon {vertices : List (Point α)}
    (h : ¬∀ x ∈ (Shape.polygon vertices).numbers, Scalar.isFinite x = true) :
    Refused settings name (.polygon vertices) := by
  cases hregion : Region.ofPoints? vertices with
  | none => exact ⟨.fewVertices, by simp only [ofShape, hregion, orDefect]; rfl⟩
  | some region =>
    refine absurd (fun x hx => ?_) h
    obtain ⟨p, hp, hx⟩ := List.mem_flatMap.mp hx
    exact Point.isFinite_iff.mp (Region.isFinite_of_ofPoints? hregion hp) x hx

include hcos in
/-- Of the shapes with a number that is not finite all are refused but arcs of a positive radius. -/
theorem refused_iff {s : Shape α} (hs : ¬∀ x ∈ s.numbers, Scalar.isFinite x = true) :
    Refused settings name s ↔ ¬s.IsProperArc := by
  cases s with
  | circle center radius => exact iff_of_true (refused_circle hα settings name hs) not_false
  | ellipse center rx ry rotation =>
    exact iff_of_true (refused_ellipse hα hcos settings name hs) not_false
  | segment p q => exact iff_of_true (refused_segment hα settings name hs) not_false
  | polygon vertices => exact iff_of_true (refused_polygon settings name hs) not_false
  | circleArc center radius start stop major =>
    by_cases hr : isPositive radius = true
    · refine iff_of_false (fun ⟨defect, h⟩ => ?_) (fun h => h hr)
      rw [ofShape, if_pos hr] at h
      cases h
    · exact iff_of_true ⟨.radius, if_neg hr⟩ hr
  | unsupported className => exact absurd (List.forall_mem_nil _) hs

end Tagged

end Strict

namespace Tagged

/-- Of the shapes with a double that is not finite exactly the arcs of a positive radius are not
refused. Such an arc has the region between the directions of its ends, which is empty if its center
or one of its angles is not finite. Of cosine it is assumed that what is not finite leads to what is
no number. -/
theorem refused_doubles_iff {sin cos : Float → Float}
    (hcos : ∀ x, x.isFinite = false → (cos x).isNaN = true) (settings : Settings Float)
    (name : String) {s : Shape Float} (hs : ¬AllFinite s.numbers) :
    letI := Scalar.doubles sin cos
    (Refused settings name s ↔ ¬s.IsProperArc) ∧
      ∀ arc, s.arc? = some arc → s.IsProperArc →
        ofShape settings name s = .ok ⟨name, .circleArc, .resolved (arc.region settings), s⟩ ∧
          (¬arc.IsFinite → arc.region settings = Region.empty) := by
  let := Scalar.doubles sin cos
  have hα := Scalar.strict_doubles sin cos
  have hfinite : ∀ x : Float, (cos x).isFinite = true → x.isFinite = true :=
    fun _ => Scalar.isFinite_of_apply hcos
  refine ⟨refused_iff hα hfinite settings name hs, fun arc harc hradius => ⟨?_, ?_⟩⟩
  · cases s with
    | circleArc center radius start stop major =>
      cases harc
      exact if_pos hradius
    | _ => cases harc
  · exact Arc.region_eq_empty hα hfinite settings

/-- An ellipse that is turned by an infinite angle. -/
theorem refused_doubles_turned :
    let cos : Float → Float := fun x => if x.isFinite then Float.cos x else 0 / 0
    let s : Shape Float := .ellipse ⟨0, 0⟩ 2 1 (1 / 0)
    letI := Scalar.doubles Float.sin cos
    (∀ x, x.isFinite = false → (cos x).isNaN = true) ∧ ¬AllFinite s.numbers ∧
      Refused Settings.default "E" s := by
  intro cos s
  have hcos : ∀ x, x.isFinite = false → (cos x).isNaN = true := by
    intro x hx
    simp only [cos, hx, Bool.false_eq_true, if_false]
    decide
  have hs : ¬AllFinite s.numbers := by
    simp only [s, Shape.numbers, allFinite_append, allFinite_cons]
    exact fun h => absurd h.2.2.2.1 (by decide)
  exact ⟨hcos, hs, (refused_doubles_iff hcos _ _ hs).1.mpr not_false⟩

/-- An arc about a point that is no number. -/
theorem not_refused_arc :
    let s : Shape Float := .circleArc ⟨0 / 0, 0⟩ 5 ⟨5, 0⟩ ⟨0, 5⟩ false
    ¬AllFinite s.numbers ∧
      ofShape Settings.default "C(5)" s =
        .ok ⟨"C(5)", .circleArc, .resolved Region.empty, s⟩ ∧
      ¬Refused Settings.default "C(5)" s := by
  intro s
  have hs : ¬AllFinite s.numbers := by
    simp only [s, Shape.numbers, Point.numbers, List.cons_append, allFinite_cons]
    exact fun h => absurd h.1 (by decide)
  have hok : ofShape Settings.default "C(5)" s =
      .ok ⟨"C(5)", .circleArc, .resolved Region.empty, s⟩ := by
    have hempty : (Arc.ofEndpoints (⟨0 / 0, 0⟩ : Point Float) 5 ⟨5, 0⟩ ⟨0, 5⟩ false).region
        Settings.default = Region.empty :=
      Arc.region_eq_empty_of_center (Scalar.strict_doubles Float.sin Float.cos) _ (by decide)
    rw [ofShape, if_pos (by decide), hempty]
  refine ⟨hs, hok, fun hrefused => ?_⟩
  obtain ⟨defect, h⟩ := hrefused
  rw [hok] at h
  cases h

end Tagged

end PlanarArea
