import PlanarArea.Json.Basic
import PlanarArea.Shape.Basic

/-!
The JSON forms of a shape.

A shape is written as an object with its `type` and its fields. It may also be read from an array
that holds the type and then the fields in their order. Only the rotation of an ellipse and the
size of an arc have defaults; members that are no field of the type are passed over.
-/
namespace PlanarArea

def Point.toJson (p : Point Float) : Json :=
  .arr [.ofFloat p.x, .ofFloat p.y]

def Point.ofJson? : Json → Option (Point Float)
  | .arr [x, y] => do return ⟨← x.float?, ← y.float?⟩
  | _ => none

def Point.listOfJson? : Json → Option (List (Point Float))
  | .arr items => items.mapM Point.ofJson?
  | _ => none

namespace Shape

/-- The name of a type of shapes, as it is written in JSON. -/
def Kind.tag : Kind → String
  | circle => "circle"
  | ellipse => "ellipse"
  | circleArc => "circle_arc"
  | segment => "segment"
  | polygon => "polygon"

def unsupportedTag : String := "unsupported"

def tag (s : Shape Float) : String :=
  match s.kind? with
  | some k => k.tag
  | none => unsupportedTag

/-- The fields of a shape, in their order. -/
def fields : Shape Float → List (String × Json)
  | circle center radius => [("center", center.toJson), ("radius", .ofFloat radius)]
  | ellipse center rx ry rotation =>
    [("center", center.toJson), ("radius_x", .ofFloat rx), ("radius_y", .ofFloat ry),
      ("rotation_deg", .ofFloat rotation)]
  | circleArc center radius start stop major =>
    [("center", center.toJson), ("radius", .ofFloat radius), ("point1", start.toJson),
      ("point2", stop.toJson), ("major", .bool major)]
  | segment start stop => [("point1", start.toJson), ("point2", stop.toJson)]
  | polygon vertices => [("vertices", .arr (vertices.map Point.toJson))]
  | unsupported className => [("class_name", .str className)]

def toJson (s : Shape Float) : Json :=
  .obj (("type", .str s.tag) :: s.fields)

/-- What an object says under a name. -/
inductive Entry where
  | missing
  | once (value : Json)
  | repeated

def entry (name : String) (members : List (String × Json)) : Entry :=
  match members.filter (·.1 == name) with
  | [] => .missing
  | [m] => .once m.2
  | _ => .repeated

/-- A field that has to be there, once. -/
def Entry.required {β : Type} (read? : Json → Option β) : Entry → Option β
  | once v => read? v
  | missing | repeated => none

/-- A field that may be left out. -/
def Entry.optional {β : Type} (read? : Json → Option β) (default : β) : Entry → Option β
  | missing => some default
  | once v => read? v
  | repeated => none

/-- The shape with the given type whose fields are found by name. -/
def ofMembers? (tag : String) (members : List (String × Json)) : Option (Shape Float) :=
  let field {β : Type} (name : String) (read? : Json → Option β) : Option β :=
    (entry name members).required read?
  if tag = Kind.circle.tag then do
    return circle (← field "center" Point.ofJson?) (← field "radius" Json.float?)
  else if tag = Kind.ellipse.tag then do
    return ellipse (← field "center" Point.ofJson?) (← field "radius_x" Json.float?)
      (← field "radius_y" Json.float?)
      (← (entry "rotation_deg" members).optional Json.float? 0)
  else if tag = Kind.circleArc.tag then do
    return circleArc (← field "center" Point.ofJson?) (← field "radius" Json.float?)
      (← field "point1" Point.ofJson?) (← field "point2" Point.ofJson?)
      (← (entry "major" members).optional Json.bool? false)
  else if tag = Kind.segment.tag then do
    return segment (← field "point1" Point.ofJson?) (← field "point2" Point.ofJson?)
  else if tag = Kind.polygon.tag then do
    return polygon (← field "vertices" Point.listOfJson?)
  else if tag = unsupportedTag then do
    return unsupported (← field "class_name" Json.str?)
  else none

/-- The shape with the given type whose fields are listed in their order. -/
def ofItems? (tag : String) (items : List Json) : Option (Shape Float) :=
  if tag = Kind.circle.tag then
    match items with
    | [center, radius] => do return circle (← Point.ofJson? center) (← radius.float?)
    | _ => none
  else if tag = Kind.ellipse.tag then
    match items with
    | center :: rx :: ry :: more => do
      let rotation ← match more with
        | [] => some 0
        | [rotation] => rotation.float?
        | _ => none
      return ellipse (← Point.ofJson? center) (← rx.float?) (← ry.float?) rotation
    | _ => none
  else if tag = Kind.circleArc.tag then
    match items with
    | center :: radius :: start :: stop :: more => do
      let major ← match more with
        | [] => some false
        | [major] => major.bool?
        | _ => none
      return circleArc (← Point.ofJson? center) (← radius.float?) (← Point.ofJson? start)
        (← Point.ofJson? stop) major
    | _ => none
  else if tag = Kind.segment.tag then
    match items with
    | [start, stop] => do return segment (← Point.ofJson? start) (← Point.ofJson? stop)
    | _ => none
  else if tag = Kind.polygon.tag then
    match items with
    | [vertices] => do return polygon (← Point.listOfJson? vertices)
    | _ => none
  else if tag = unsupportedTag then
    match items with
    | [name] => do return unsupported (← name.str?)
    | _ => none
  else none

def ofJson? : Json → Option (Shape Float)
  | .obj members =>
    match (entry "type" members).required Json.str? with
    | some tag => ofMembers? tag members
    | none => none
  | .arr (.str tag :: items) => ofItems? tag items
  | _ => none

end Shape

end PlanarArea
