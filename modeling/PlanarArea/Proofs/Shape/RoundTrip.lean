import PlanarArea.Proofs.Json.RoundTrip
import PlanarArea.Shape.Json

/-!
# Shapes that are read back

A number is written as `null` unless it is finite, and only finite numbers are read. So whatever is
read has finite numbers, and a shape with finite numbers is read back from its written form. In that
form every field of the type stands exactly once, also one that could be left out.
-/
namespace PlanarArea

/-- The coordinates. -/
def Point.numbers {α : Type} (p : Point α) : List α :=
  [p.x, p.y]

/-- All numbers that make up the shape. -/
def Shape.numbers {α : Type} : Shape α → List α
  | circle center radius => center.numbers ++ [radius]
  | ellipse center radiusX radiusY rotation => center.numbers ++ [radiusX, radiusY, rotation]
  | circleArc center radius start stop _ =>
    center.numbers ++ radius :: (start.numbers ++ stop.numbers)
  | segment start stop => start.numbers ++ stop.numbers
  | polygon vertices => vertices.flatMap Point.numbers
  | unsupported _ => []

/-- Every number is one. -/
def AllFinite (xs : List Float) : Prop :=
  ∀ x ∈ xs, x.isFinite = true

@[simp] theorem allFinite_nil : AllFinite [] := List.forall_mem_nil _

@[simp] theorem allFinite_cons {x : Float} {xs : List Float} :
    AllFinite (x :: xs) ↔ x.isFinite = true ∧ AllFinite xs :=
  List.forall_mem_cons

@[simp] theorem allFinite_append {xs ys : List Float} :
    AllFinite (xs ++ ys) ↔ AllFinite xs ∧ AllFinite ys :=
  List.forall_mem_append

theorem allFinite_flatMap {β : Type} {f : β → List Float} {bs : List β} :
    AllFinite (bs.flatMap f) ↔ ∀ b ∈ bs, AllFinite (f b) := by
  simp only [AllFinite, List.mem_flatMap]
  exact ⟨fun h b hb x hx => h x ⟨b, hb, hx⟩, fun h x ⟨b, hb, hx⟩ => h b hb x hx⟩

namespace Json

theorem float?_ofFloat {x : Float} (h : x.isFinite = true) : (ofFloat x).float? = some x := by
  simp [ofFloat, float?, h]

/-- No number is read that is not finite. -/
theorem isFinite_of_float? {j : Json} {x : Float} (h : j.float? = some x) :
    x.isFinite = true := by
  cases j with
  | int n =>
    simp only [float?, Option.ite_none_right_eq_some, Option.some.injEq] at h
    obtain ⟨hfinite, rfl⟩ := h
    exact hfinite
  | float y =>
    simp only [float?, Option.ite_none_right_eq_some, Option.some.injEq] at h
    obtain ⟨hfinite, rfl⟩ := h
    exact hfinite
  | _ => cases h

end Json

namespace Point

theorem ofJson?_toJson {p : Point Float} (h : AllFinite p.numbers) :
    ofJson? p.toJson = some p := by
  obtain ⟨hx, hy⟩ : p.x.isFinite = true ∧ p.y.isFinite = true := by simpa [numbers] using h
  simp [toJson, ofJson?, Json.float?_ofFloat hx, Json.float?_ofFloat hy]

theorem allFinite_of_ofJson? {j : Json} {p : Point Float} (h : ofJson? j = some p) :
    AllFinite p.numbers := by
  unfold ofJson? at h
  split at h
  · simp only [Option.bind_eq_bind, Option.bind_eq_some_iff, Option.pure_def,
      Option.some.injEq] at h
    obtain ⟨x, hx, y, hy, rfl⟩ := h
    simp [numbers, Json.isFinite_of_float? hx, Json.isFinite_of_float? hy]
  · cases h

theorem listOfJson?_toJson {ps : List (Point Float)} (h : AllFinite (ps.flatMap numbers)) :
    listOfJson? (.arr (ps.map toJson)) = some ps :=
  Json.mapM_map_of_read fun p hp => ofJson?_toJson (allFinite_flatMap.mp h p hp)

theorem allFinite_of_listOfJson? {j : Json} {ps : List (Point Float)}
    (h : listOfJson? j = some ps) : AllFinite (ps.flatMap numbers) := by
  unfold listOfJson? at h
  split at h
  · exact allFinite_flatMap.mpr (Json.forall_mem_of_mapM (fun _ _ => allFinite_of_ofJson?) h)
  · cases h

end Point

namespace Shape

section Numbers

variable {center start stop : Point Float} {radius radiusX radiusY rotation : Float} {major : Bool}

theorem allFinite_circle_iff : AllFinite (circle center radius).numbers ↔
    AllFinite center.numbers ∧ radius.isFinite = true := by
  simp [numbers]

theorem allFinite_ellipse_iff : AllFinite (ellipse center radiusX radiusY rotation).numbers ↔
    AllFinite center.numbers ∧ radiusX.isFinite = true ∧ radiusY.isFinite = true ∧
      rotation.isFinite = true := by
  simp [numbers]

theorem allFinite_circleArc_iff : AllFinite (circleArc center radius start stop major).numbers ↔
    AllFinite center.numbers ∧ radius.isFinite = true ∧ AllFinite start.numbers ∧
      AllFinite stop.numbers := by
  simp [numbers]

theorem allFinite_segment_iff : AllFinite (segment start stop).numbers ↔
    AllFinite start.numbers ∧ AllFinite stop.numbers := by
  simp [numbers]

end Numbers

/-- The fields that are read for the type of a shape, all by their names. -/
theorem ofMembers?_tag (s : Shape Float) (members : List (String × Json)) :
    ofMembers? s.tag members = match s with
      | circle _ _ => do
        return circle (← (entry "center" members).required Point.ofJson?)
          (← (entry "radius" members).required Json.float?)
      | ellipse _ _ _ _ => do
        return ellipse (← (entry "center" members).required Point.ofJson?)
          (← (entry "radius_x" members).required Json.float?)
          (← (entry "radius_y" members).required Json.float?)
          (← (entry "rotation_deg" members).optional Json.float? 0)
      | circleArc _ _ _ _ _ => do
        return circleArc (← (entry "center" members).required Point.ofJson?)
          (← (entry "radius" members).required Json.float?)
          (← (entry "point1" members).required Point.ofJson?)
          (← (entry "point2" members).required Point.ofJson?)
          (← (entry "major" members).optional Json.bool? false)
      | segment _ _ => do
        return segment (← (entry "point1" members).required Point.ofJson?)
          (← (entry "point2" members).required Point.ofJson?)
      | polygon _ => do
        return polygon (← (entry "vertices" members).required Point.listOfJson?)
      | unsupported _ => do
        return unsupported (← (entry "class_name" members).required Json.str?) := by
  cases s <;> simp [ofMembers?, tag, kind?, Kind.tag, unsupportedTag]

/-- The written form holds its type once. -/
theorem entry_type (s : Shape Float) :
    entry "type" (("type", .str s.tag) :: s.fields) = .once (.str s.tag) := by
  cases s <;> simp [entry, fields]

/-- A shape with finite numbers is read back from its written form. -/
theorem ofJson?_toJson {s : Shape Float} (h : AllFinite s.numbers) :
    ofJson? s.toJson = some s := by
  simp only [ofJson?, toJson, entry_type, Entry.required, Json.str?]
  rw [ofMembers?_tag]
  cases s with
  | circle center radius =>
    obtain ⟨hcenter, hradius⟩ := allFinite_circle_iff.mp h
    simp [entry, Entry.required, fields, Point.ofJson?_toJson hcenter,
      Json.float?_ofFloat hradius]
  | ellipse center radiusX radiusY rotation =>
    obtain ⟨hcenter, hx, hy, hrotation⟩ := allFinite_ellipse_iff.mp h
    simp [entry, Entry.required, Entry.optional, fields, Point.ofJson?_toJson hcenter,
      Json.float?_ofFloat hx, Json.float?_ofFloat hy, Json.float?_ofFloat hrotation]
  | circleArc center radius start stop major =>
    obtain ⟨hcenter, hradius, hstart, hstop⟩ := allFinite_circleArc_iff.mp h
    simp [entry, Entry.required, Entry.optional, fields, Point.ofJson?_toJson hcenter,
      Json.float?_ofFloat hradius, Point.ofJson?_toJson hstart, Point.ofJson?_toJson hstop,
      Json.bool?]
  | segment start stop =>
    obtain ⟨hstart, hstop⟩ := allFinite_segment_iff.mp h
    simp [entry, Entry.required, fields, Point.ofJson?_toJson hstart, Point.ofJson?_toJson hstop]
  | polygon vertices =>
    simp [entry, Entry.required, fields, Point.listOfJson?_toJson h]
  | unsupported className =>
    simp [entry, Entry.required, fields, Json.str?]

theorem exists_of_required {β : Type} {read? : Json → Option β} {entry : Entry} {v : β}
    (h : entry.required read? = some v) : ∃ j, read? j = some v := by
  cases entry with
  | once j => exact ⟨j, h⟩
  | missing => cases h
  | repeated => cases h

theorem exists_of_optional {β : Type} {read? : Json → Option β} {default v : β} {entry : Entry}
    (h : entry.optional read? default = some v) : v = default ∨ ∃ j, read? j = some v := by
  cases entry with
  | once j => exact .inr ⟨j, h⟩
  | missing =>
    cases h
    exact .inl rfl
  | repeated => cases h

theorem isFinite_of_required {entry : Entry} {x : Float}
    (h : entry.required Json.float? = some x) : x.isFinite = true := by
  obtain ⟨j, hj⟩ := exists_of_required h
  exact Json.isFinite_of_float? hj

theorem point_of_required {entry : Entry} {p : Point Float}
    (h : entry.required Point.ofJson? = some p) : AllFinite p.numbers := by
  obtain ⟨j, hj⟩ := exists_of_required h
  exact Point.allFinite_of_ofJson? hj

/-- The rotation that is left out. -/
theorem isFinite_zero : (0 : Float).isFinite = true := by
  decide +kernel

theorem allFinite_of_ofMembers? {name : String} {members : List (String × Json)} {s : Shape Float}
    (h : ofMembers? name members = some s) : AllFinite s.numbers := by
  simp only [ofMembers?, Option.bind_eq_bind, Option.pure_def] at h
  split at h
  · simp only [Option.bind_eq_some_iff, Option.some.injEq] at h
    obtain ⟨center, hcenter, radius, hradius, rfl⟩ := h
    exact allFinite_circle_iff.mpr ⟨point_of_required hcenter, isFinite_of_required hradius⟩
  split at h
  · simp only [Option.bind_eq_some_iff, Option.some.injEq] at h
    obtain ⟨center, hcenter, rx, hrx, ry, hry, rotation, hrotation, rfl⟩ := h
    have hfinite : rotation.isFinite = true := by
      rcases exists_of_optional hrotation with rfl | ⟨j, hj⟩
      · exact isFinite_zero
      · exact Json.isFinite_of_float? hj
    exact allFinite_ellipse_iff.mpr ⟨point_of_required hcenter, isFinite_of_required hrx,
      isFinite_of_required hry, hfinite⟩
  split at h
  · simp only [Option.bind_eq_some_iff, Option.some.injEq] at h
    obtain ⟨center, hcenter, radius, hradius, start, hstart, stop, hstop, major, -, rfl⟩ := h
    exact allFinite_circleArc_iff.mpr ⟨point_of_required hcenter, isFinite_of_required hradius,
      point_of_required hstart, point_of_required hstop⟩
  split at h
  · simp only [Option.bind_eq_some_iff, Option.some.injEq] at h
    obtain ⟨start, hstart, stop, hstop, rfl⟩ := h
    exact allFinite_segment_iff.mpr ⟨point_of_required hstart, point_of_required hstop⟩
  split at h
  · simp only [Option.bind_eq_some_iff, Option.some.injEq] at h
    obtain ⟨vertices, hvertices, rfl⟩ := h
    obtain ⟨j, hj⟩ := exists_of_required hvertices
    exact Point.allFinite_of_listOfJson? hj
  split at h
  · simp only [Option.bind_eq_some_iff, Option.some.injEq] at h
    obtain ⟨className, -, rfl⟩ := h
    exact allFinite_nil
  · cases h

theorem allFinite_of_ellipse {center radiusX radiusY : Json} {rotation : Float} {s : Shape Float}
    (hrotation : rotation.isFinite = true)
    (h : ((Point.ofJson? center).bind fun c => radiusX.float?.bind fun rx =>
      radiusY.float?.bind fun ry => some (ellipse c rx ry rotation)) = some s) :
    AllFinite s.numbers := by
  simp only [Option.bind_eq_some_iff, Option.some.injEq] at h
  obtain ⟨c, hc, rx, hrx, ry, hry, rfl⟩ := h
  exact allFinite_ellipse_iff.mpr ⟨Point.allFinite_of_ofJson? hc, Json.isFinite_of_float? hrx,
    Json.isFinite_of_float? hry, hrotation⟩

theorem allFinite_of_circleArc {center radius start stop : Json} {major : Bool} {s : Shape Float}
    (h : ((Point.ofJson? center).bind fun c => radius.float?.bind fun r =>
      (Point.ofJson? start).bind fun p => (Point.ofJson? stop).bind fun q =>
        some (circleArc c r p q major)) = some s) :
    AllFinite s.numbers := by
  simp only [Option.bind_eq_some_iff, Option.some.injEq] at h
  obtain ⟨c, hc, r, hr, p, hp, q, hq, rfl⟩ := h
  exact allFinite_circleArc_iff.mpr ⟨Point.allFinite_of_ofJson? hc, Json.isFinite_of_float? hr,
    Point.allFinite_of_ofJson? hp, Point.allFinite_of_ofJson? hq⟩

theorem allFinite_of_ofItems? {name : String} {items : List Json} {s : Shape Float}
    (h : ofItems? name items = some s) : AllFinite s.numbers := by
  simp only [ofItems?, Option.bind_eq_bind, Option.pure_def] at h
  split at h
  · split at h
    · simp only [Option.bind_eq_some_iff, Option.some.injEq] at h
      obtain ⟨center, hcenter, radius, hradius, rfl⟩ := h
      exact allFinite_circle_iff.mpr
        ⟨Point.allFinite_of_ofJson? hcenter, Json.isFinite_of_float? hradius⟩
    · cases h
  split at h
  · split at h
    · split at h
      · exact allFinite_of_ellipse isFinite_zero h
      · obtain ⟨rotation, hrotation, h⟩ := Option.bind_eq_some_iff.mp h
        exact allFinite_of_ellipse (Json.isFinite_of_float? hrotation) h
      · cases h
    · cases h
  split at h
  · split at h
    · split at h
      · exact allFinite_of_circleArc h
      · obtain ⟨major, -, h⟩ := Option.bind_eq_some_iff.mp h
        exact allFinite_of_circleArc h
      · cases h
    · cases h
  split at h
  · split at h
    · simp only [Option.bind_eq_some_iff, Option.some.injEq] at h
      obtain ⟨start, hstart, stop, hstop, rfl⟩ := h
      exact allFinite_segment_iff.mpr
        ⟨Point.allFinite_of_ofJson? hstart, Point.allFinite_of_ofJson? hstop⟩
    · cases h
  split at h
  · split at h
    · simp only [Option.bind_eq_some_iff, Option.some.injEq] at h
      obtain ⟨vertices, hvertices, rfl⟩ := h
      exact Point.allFinite_of_listOfJson? hvertices
    · cases h
  split at h
  · split at h
    · simp only [Option.bind_eq_some_iff, Option.some.injEq] at h
      obtain ⟨className, -, rfl⟩ := h
      exact allFinite_nil
    · cases h
  · cases h

/-- Whatever is read as a shape has finite numbers. -/
theorem allFinite_of_ofJson? {j : Json} {s : Shape Float} (h : ofJson? j = some s) :
    AllFinite s.numbers := by
  unfold ofJson? at h
  split at h
  · split at h
    · exact allFinite_of_ofMembers? h
    · cases h
  · exact allFinite_of_ofItems? h
  · cases h

end Shape

end PlanarArea
