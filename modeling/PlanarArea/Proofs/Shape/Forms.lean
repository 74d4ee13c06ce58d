import Mathlib.Data.List.Perm.Basic
import PlanarArea.Proofs.Shape.RoundTrip

/-!
# The forms of a shape

An object is read by the names of its members. So their order does not matter, nor do members that
are no field of the type. An array is read by position. In both a last field that has a default may
be left out, and both give the same shape. An object that lacks a field without a default, or has
its type or a field twice, is not read.
-/
namespace PlanarArea.Shape

/-- How often an object has a member of this name. -/
def count (name : String) (members : List (String × Json)) : Nat :=
  (members.map Prod.fst).count name

/-- The names of the fields of a shape. -/
def names (s : Shape Float) : List String :=
  s.fields.map Prod.fst

/-- The names of the fields that may be left out. -/
def optionalNames : List String :=
  ["rotation_deg", "major"]

/-- The last field has its default value; a rotation may be a zero of either sign. -/
def AtDefault : Shape Float → Prop
  | ellipse _ _ _ rotation => (rotation == 0) = true
  | circleArc _ _ _ _ major => major = false
  | circle .. | segment .. | polygon _ | unsupported _ => False

/-- The shape with the default in the last field, if there is one. -/
def orDefault : Shape Float → Shape Float
  | ellipse center radiusX radiusY _ => ellipse center radiusX radiusY 0
  | circleArc center radius start stop _ => circleArc center radius start stop false
  | s => s

/-- Equal as the numbers compare: a rotation may be a zero of either sign. -/
def Same : Shape Float → Shape Float → Prop
  | ellipse center radiusX radiusY rotation, ellipse center' radiusX' radiusY' rotation' =>
    center = center' ∧ radiusX = radiusX' ∧ radiusY = radiusY' ∧ (rotation == rotation') = true
  | s, t => s = t

/-- The members are the type of the shape, the given fields and others that are neither, in any
order. -/
def Holds (s : Shape Float) (fields members : List (String × Json)) : Prop :=
  ∃ others, (∀ m ∈ others, m.1 ≠ "type" ∧ m.1 ∉ s.names) ∧
    members.Perm (("type", .str s.tag) :: fields ++ others)

theorem same_orDefault {s : Shape Float} (h : s.AtDefault) : s.Same s.orDefault := by
  cases s with
  | ellipse center radiusX radiusY rotation => exact ⟨rfl, rfl, rfl, h⟩
  | circleArc center radius start stop major =>
    obtain rfl := h
    rfl
  | circle center radius => cases h
  | segment start stop => cases h
  | polygon vertices => cases h
  | unsupported className => cases h

section Entries

variable {name : String} {members members' others : List (String × Json)}

/-- What an object says if it has these members of one name. -/
def Entry.ofFound : List (String × Json) → Entry
  | [] => missing
  | [m] => once m.2
  | _ :: _ :: _ => repeated

theorem entry_eq_ofFound : entry name members = .ofFound (members.filter (·.1 == name)) := by
  unfold entry
  generalize members.filter (·.1 == name) = found
  cases found with
  | nil => rfl
  | cons m rest => cases rest <;> rfl

theorem Entry.ofFound_perm (h : members.Perm members') : ofFound members = ofFound members' := by
  match members, members' with
  | [], _ => rw [h.nil_eq]
  | [m], _ => rw [List.singleton_perm.mp h]
  | _ :: _ :: _, [] => exact absurd h.length_eq (by simp)
  | _ :: _ :: _, [m] => exact absurd h.length_eq (by simp)
  | _ :: _ :: _, _ :: _ :: _ => rfl

theorem Entry.ofFound_eq_missing_iff : ofFound members = missing ↔ members.length = 0 := by
  match members with
  | [] => simp [ofFound]
  | [m] => simp [ofFound]
  | _ :: _ :: _ => simp [ofFound]

theorem Entry.ofFound_eq_repeated_iff : ofFound members = repeated ↔ 2 ≤ members.length := by
  match members with
  | [] => simp [ofFound]
  | [m] => simp [ofFound]
  | _ :: _ :: _ => simp [ofFound]

theorem Entry.ofFound_of_mem {m : String × Json} (h : m ∈ members) :
    ofFound members = once m.2 ∨ ofFound members = repeated := by
  match members with
  | [] => exact absurd h List.not_mem_nil
  | [m'] =>
    rw [List.mem_singleton.mp h]
    exact .inl rfl
  | _ :: _ :: _ => exact .inr rfl

theorem length_filter (name : String) (members : List (String × Json)) :
    (members.filter (·.1 == name)).length = count name members := by
  rw [count, List.count, List.countP_map, List.countP_eq_length_filter]
  rfl

theorem entry_eq_missing_iff : entry name members = .missing ↔ count name members = 0 := by
  rw [entry_eq_ofFound, Entry.ofFound_eq_missing_iff, length_filter]

theorem entry_eq_repeated_iff : entry name members = .repeated ↔ 2 ≤ count name members := by
  rw [entry_eq_ofFound, Entry.ofFound_eq_repeated_iff, length_filter]

theorem entry_perm (h : members.Perm members') : entry name members = entry name members' := by
  rw [entry_eq_ofFound, entry_eq_ofFound, Entry.ofFound_perm (h.filter _)]

/-- Members of other names do not count. -/
theorem entry_append_of_ne (h : ∀ m ∈ others, m.1 ≠ name) :
    entry name (members ++ others) = entry name members := by
  have hnone : others.filter (·.1 == name) = [] := by
    simpa using h
  rw [entry_eq_ofFound, entry_eq_ofFound, List.filter_append, hnone, List.append_nil]

theorem entry_cons_self {v : Json} (h : name ∉ members.map Prod.fst) :
    entry name ((name, v) :: members) = .once v := by
  have hnone : members.filter (·.1 == name) = [] := by
    simp only [List.filter_eq_nil_iff, beq_iff_eq]
    exact fun m hm hname => h (hname ▸ List.mem_map_of_mem hm)
  rw [entry_eq_ofFound, List.filter_cons, if_pos (beq_self_eq_true name), hnone]
  rfl

/-- A member is the only one of its name or there are several. -/
theorem entry_of_mem {v : Json} (h : (name, v) ∈ members) :
    entry name members = .once v ∨ entry name members = .repeated := by
  rw [entry_eq_ofFound]
  exact Entry.ofFound_of_mem (List.mem_filter.mpr ⟨h, beq_self_eq_true name⟩)

/-- The entry of a field that can be read: there once, or missing if it may be left out. -/
def Readable (name : String) (members : List (String × Json)) : Prop :=
  entry name members ≠ .repeated ∧ (entry name members = .missing → name ∈ optionalNames)

theorem readable_of_required {β : Type} {read? : Json → Option β} {v : β}
    (h : (entry name members).required read? = some v) : Readable name members := by
  unfold Readable
  cases hentry : entry name members with
  | missing =>
    rw [hentry] at h
    cases h
  | once j => simp
  | repeated =>
    rw [hentry] at h
    cases h

theorem readable_of_optional {β : Type} {read? : Json → Option β} {default v : β}
    (hname : name ∈ optionalNames) (h : (entry name members).optional read? default = some v) :
    Readable name members := by
  refine ⟨fun hrepeated => ?_, fun _ => hname⟩
  rw [hrepeated] at h
  cases h

end Entries

section Objects

variable {s t : Shape Float} {members members' : List (String × Json)}

theorem type_not_mem_names (s : Shape Float) : "type" ∉ s.names := by
  cases s <;> simp [names, fields]

/-- Fields hold no second type. -/
theorem entry_type_of_subset {kept : List (String × Json)} (hkept : kept ⊆ s.fields) :
    entry "type" (("type", .str s.tag) :: kept) = .once (.str s.tag) :=
  entry_cons_self fun h => s.type_not_mem_names (List.map_subset Prod.fst hkept h)

/-- Only the members that are fields of the type are read. -/
theorem ofMembers?_congr (s : Shape Float)
    (h : ∀ name ∈ s.names, entry name members = entry name members') :
    ofMembers? s.tag members = ofMembers? s.tag members' := by
  rw [ofMembers?_tag, ofMembers?_tag]
  cases s with
  | circle center radius =>
    simp only [h "center" (by simp [names, fields]), h "radius" (by simp [names, fields])]
  | ellipse center radiusX radiusY rotation =>
    simp only [h "center" (by simp [names, fields]), h "radius_x" (by simp [names, fields]),
      h "radius_y" (by simp [names, fields]), h "rotation_deg" (by simp [names, fields])]
  | circleArc center radius start stop major =>
    simp only [h "center" (by simp [names, fields]), h "radius" (by simp [names, fields]),
      h "point1" (by simp [names, fields]), h "point2" (by simp [names, fields]),
      h "major" (by simp [names, fields])]
  | segment start stop =>
    simp only [h "point1" (by simp [names, fields]), h "point2" (by simp [names, fields])]
  | polygon vertices => simp only [h "vertices" (by simp [names, fields])]
  | unsupported className => simp only [h "class_name" (by simp [names, fields])]

/-- Other members and the order of the members make no difference. -/
theorem ofJson?_of_holds {kept : List (String × Json)} (hkept : kept ⊆ s.fields)
    (h : s.Holds kept members) :
    ofJson? (.obj members) = ofJson? (.obj (("type", .str s.tag) :: kept)) := by
  obtain ⟨others, hothers, hperm⟩ := h
  have hentry : ∀ name, (∀ m ∈ others, m.1 ≠ name) →
      entry name members = entry name (("type", .str s.tag) :: kept) := by
    intro name hname
    rw [entry_perm hperm, entry_append_of_ne hname]
  -- The type is told first; it decides which names count.
  have htype := hentry "type" fun m hm => (hothers m hm).1
  have hmembers := ofMembers?_congr s fun name hname =>
    hentry name fun m hm hsame => (hothers m hm).2 (hsame ▸ hname)
  simp only [ofJson?, htype, entry_type_of_subset hkept, Entry.required, Json.str?, hmembers]

/-- Without the last field it has its default. -/
theorem ofJson?_dropLast (h : AllFinite s.numbers) (hdefault : s.AtDefault) :
    ofJson? (.obj (("type", .str s.tag) :: s.fields.dropLast)) = some s.orDefault := by
  simp only [ofJson?, entry_type_of_subset (List.dropLast_subset _), Entry.required, Json.str?]
  rw [ofMembers?_tag]
  cases s with
  | ellipse center radiusX radiusY rotation =>
    obtain ⟨hcenter, hx, hy, -⟩ := allFinite_ellipse_iff.mp h
    simp [entry, Entry.required, Entry.optional, fields, Point.ofJson?_toJson hcenter,
      Json.float?_ofFloat hx, Json.float?_ofFloat hy, orDefault]
  | circleArc center radius start stop major =>
    obtain ⟨hcenter, hradius, hstart, hstop⟩ := allFinite_circleArc_iff.mp h
    simp [entry, Entry.required, Entry.optional, fields, Point.ofJson?_toJson hcenter,
      Json.float?_ofFloat hradius, Point.ofJson?_toJson hstart, Point.ofJson?_toJson hstop,
      orDefault]
  | circle center radius => cases hdefault
  | segment start stop => cases hdefault
  | polygon vertices => cases hdefault
  | unsupported className => cases hdefault

/-- An object that is read has all fields of its type in readable form. -/
theorem readable_of_ofMembers? (h : ofMembers? s.tag members = some t) :
    ∀ name ∈ s.names, Readable name members := by
  rw [ofMembers?_tag] at h
  cases s with
  | circle center radius =>
    simp only [Option.bind_eq_bind, Option.bind_eq_some_iff] at h
    obtain ⟨c, hc, r, hr, -⟩ := h
    simp [names, fields, readable_of_required hc, readable_of_required hr]
  | ellipse center radiusX radiusY rotation =>
    simp only [Option.bind_eq_bind, Option.bind_eq_some_iff] at h
    obtain ⟨c, hc, rx, hrx, ry, hry, r, hr, -⟩ := h
    have hrotation := readable_of_optional (by simp [optionalNames]) hr
    simp [names, fields, readable_of_required hc, readable_of_required hrx,
      readable_of_required hry, hrotation]
  | circleArc center radius start stop major =>
    simp only [Option.bind_eq_bind, Option.bind_eq_some_iff] at h
    obtain ⟨c, hc, r, hr, p, hp, q, hq, m, hm, -⟩ := h
    have hmajor := readable_of_optional (by simp [optionalNames]) hm
    simp [names, fields, readable_of_required hc, readable_of_required hr,
      readable_of_required hp, readable_of_required hq, hmajor]
  | segment start stop =>
    simp only [Option.bind_eq_bind, Option.bind_eq_some_iff] at h
    obtain ⟨p, hp, q, hq, -⟩ := h
    simp [names, fields, readable_of_required hp, readable_of_required hq]
  | polygon vertices =>
    simp only [Option.bind_eq_bind, Option.bind_eq_some_iff] at h
    obtain ⟨ps, hps, -⟩ := h
    simp [names, fields, readable_of_required hps]
  | unsupported className =>
    simp only [Option.bind_eq_bind, Option.bind_eq_some_iff] at h
    obtain ⟨c, hc, -⟩ := h
    simp [names, fields, readable_of_required hc]

theorem ofMembers?_eq_none {name : String} (hname : name ∈ s.names)
    (h : 2 ≤ count name members ∨ count name members = 0 ∧ name ∉ optionalNames) :
    ofMembers? s.tag members = none := by
  by_contra hne
  obtain ⟨t, ht⟩ := Option.ne_none_iff_exists'.mp hne
  obtain ⟨honce, hmissing⟩ := readable_of_ofMembers? ht name hname
  cases h with
  | inl hrepeated => exact honce (entry_eq_repeated_iff.mpr hrepeated)
  | inr hlacks => exact hlacks.2 (hmissing (entry_eq_missing_iff.mpr hlacks.1))

end Objects

section Arrays

variable {s : Shape Float}

theorem ofItems?_fields (h : AllFinite s.numbers) :
    ofItems? s.tag (s.fields.map Prod.snd) = some s := by
  cases s with
  | circle center radius =>
    obtain ⟨hcenter, hradius⟩ := allFinite_circle_iff.mp h
    simp [ofItems?, tag, kind?, Kind.tag, fields, Point.ofJson?_toJson hcenter,
      Json.float?_ofFloat hradius]
  | ellipse center radiusX radiusY rotation =>
    obtain ⟨hcenter, hx, hy, hrotation⟩ := allFinite_ellipse_iff.mp h
    simp [ofItems?, tag, kind?, Kind.tag, fields, Point.ofJson?_toJson hcenter,
      Json.float?_ofFloat hx, Json.float?_ofFloat hy, Json.float?_ofFloat hrotation]
  | circleArc center radius start stop major =>
    obtain ⟨hcenter, hradius, hstart, hstop⟩ := allFinite_circleArc_iff.mp h
    simp [ofItems?, tag, kind?, Kind.tag, fields, Point.ofJson?_toJson hcenter,
      Json.float?_ofFloat hradius, Point.ofJson?_toJson hstart, Point.ofJson?_toJson hstop,
      Json.bool?]
  | segment start stop =>
    obtain ⟨hstart, hstop⟩ := allFinite_segment_iff.mp h
    simp [ofItems?, tag, kind?, Kind.tag, fields, Point.ofJson?_toJson hstart,
      Point.ofJson?_toJson hstop]
  | polygon vertices =>
    simp [ofItems?, tag, kind?, Kind.tag, fields, Point.listOfJson?_toJson h]
  | unsupported className =>
    simp [ofItems?, tag, kind?, Kind.tag, fields, unsupportedTag, Json.str?]

theorem ofItems?_dropLast (h : AllFinite s.numbers) (hdefault : s.AtDefault) :
    ofItems? s.tag (s.fields.dropLast.map Prod.snd) = some s.orDefault := by
  cases s with
  | ellipse center radiusX radiusY rotation =>
    obtain ⟨hcenter, hx, hy, -⟩ := allFinite_ellipse_iff.mp h
    simp [ofItems?, tag, kind?, Kind.tag, fields, Point.ofJson?_toJson hcenter,
      Json.float?_ofFloat hx, Json.float?_ofFloat hy, orDefault]
  | circleArc center radius start stop major =>
    obtain ⟨hcenter, hradius, hstart, hstop⟩ := allFinite_circleArc_iff.mp h
    simp [ofItems?, tag, kind?, Kind.tag, fields, Point.ofJson?_toJson hcenter,
      Json.float?_ofFloat hradius, Point.ofJson?_toJson hstart, Point.ofJson?_toJson hstop,
      orDefault]
  | circle center radius => cases hdefault
  | segment start stop => cases hdefault
  | polygon vertices => cases hdefault
  | unsupported className => cases hdefault

end Arrays

/-- A shape with finite numbers is read from every object that holds its fields, in any order and
with other members between them, and from the array of its fields. Where the last field has its
default it may be left out of both. No object is read that has its type or a field of the type
twice, or lacks a field of the type that has no default. -/
theorem ofJson?_forms {s : Shape Float} (h : AllFinite s.numbers) :
    (∀ members, s.Holds s.fields members → ofJson? (.obj members) = some s) ∧
      ofJson? (.arr (.str s.tag :: s.fields.map Prod.snd)) = some s ∧
      (s.AtDefault → s.Same s.orDefault ∧
        (∀ members, s.Holds s.fields.dropLast members →
          ofJson? (.obj members) = some s.orDefault) ∧
        ofJson? (.arr (.str s.tag :: s.fields.dropLast.map Prod.snd)) = some s.orDefault) ∧
      (∀ members, 2 ≤ count "type" members → ofJson? (.obj members) = none) ∧
      ∀ members, ("type", .str s.tag) ∈ members → ∀ name ∈ s.names,
        (2 ≤ count name members ∨ count name members = 0 ∧ name ∉ optionalNames) →
          ofJson? (.obj members) = none := by
  have htwice : ∀ members, entry "type" members = .repeated → ofJson? (.obj members) = none := by
    intro members hrepeated
    simp only [ofJson?, hrepeated, Entry.required]
  refine ⟨?_, ofItems?_fields h, ?_, ?_, ?_⟩
  · intro members hmembers
    rw [ofJson?_of_holds (List.Subset.refl _) hmembers]
    exact ofJson?_toJson h
  · intro hdefault
    refine ⟨same_orDefault hdefault, ?_, ofItems?_dropLast h hdefault⟩
    intro members hmembers
    rw [ofJson?_of_holds (List.dropLast_subset _) hmembers]
    exact ofJson?_dropLast h hdefault
  · intro members hcount
    exact htwice members (entry_eq_repeated_iff.mpr hcount)
  · intro members htype name hname hcount
    cases entry_of_mem htype with
    | inl honce =>
      simp only [ofJson?, honce, Entry.required, Json.str?]
      exact ofMembers?_eq_none hname hcount
    | inr hrepeated => exact htwice members hrepeated

/-- An ellipse that is not rotated, from an object with the type at its end and without the
rotation, and from an array; without a radius, or with the center twice, it is not read. -/
theorem ofJson?_forms_ellipse :
    let s : Shape Float := ellipse ⟨1, 2⟩ 3 4 0
    let center : Json := .arr [.ofFloat 1, .ofFloat 2]
    AllFinite s.numbers ∧
      ofJson? (.obj [("note", .null), ("major", .bool true), ("radius_y", .ofFloat 4),
        ("radius_x", .ofFloat 3), ("center", center), ("type", .str "ellipse")]) = some s ∧
      ofJson? (.arr [.str "ellipse", center, .ofFloat 3, .ofFloat 4, .ofFloat 0]) = some s ∧
      ofJson? (.arr [.str "ellipse", center, .ofFloat 3, .ofFloat 4]) = some s ∧
      ofJson? (.obj [("type", .str "ellipse"), ("type", .str "circle")]) = none ∧
      ofJson? (.obj [("center", center), ("radius_x", .ofFloat 3), ("type", .str "ellipse")]) =
        none ∧
      ofJson? (.obj [("center", center), ("radius_x", .ofFloat 3), ("radius_y", .ofFloat 4),
        ("center", center), ("type", .str "ellipse")]) = none := by
  intro s center
  have hfinite : AllFinite s.numbers := by
    simp only [s, numbers, Point.numbers, List.cons_append, List.nil_append, allFinite_cons,
      allFinite_nil, and_true]
    decide +kernel
  have hdefault : s.AtDefault := by
    simp only [s, AtDefault]
    decide +kernel
  have hreverse : s.Holds s.fields.dropLast
      [("note", .null), ("major", .bool true), ("radius_y", .ofFloat 4),
        ("radius_x", .ofFloat 3), ("center", center), ("type", .str "ellipse")] := by
    refine ⟨[("major", .bool true), ("note", .null)], ?_, ?_⟩
    · simp [s, names, fields]
    · exact List.reverse_perm (("type", .str s.tag) :: s.fields.dropLast ++
        [("major", .bool true), ("note", .null)])
  obtain ⟨-, hitems, hleft, htwice, hbad⟩ := ofJson?_forms hfinite
  obtain ⟨-, hobject, hfewer⟩ := hleft hdefault
  refine ⟨hfinite, hobject _ hreverse, hitems, hfewer, htwice _ (by decide), ?_, ?_⟩
  · exact hbad _ (by simp [s, tag, kind?, Kind.tag]) "radius_y" (by simp [s, names, fields])
      (.inr (by decide))
  · exact hbad _ (by simp [s, tag, kind?, Kind.tag]) "center" (by simp [s, names, fields])
      (.inl (by decide))

end PlanarArea.Shape
