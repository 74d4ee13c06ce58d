import PlanarArea.Plane.Point

/-!
The shapes that an expression can name. A thing that has a name but no area is carried as
unsupported, so that its name still resolves.
-/
namespace PlanarArea

inductive Shape (α : Type) where
  | circle (center : Point α) (radius : α)
  /-- The rotation is in degrees, counter-clockwise. -/
  | ellipse (center : Point α) (radiusX radiusY rotation : α)
  | circleArc (center : Point α) (radius : α) (start stop : Point α) (major : Bool)
  | segment (start stop : Point α)
  | polygon (vertices : List (Point α))
  | unsupported (className : String)
deriving DecidableEq, Repr

namespace Shape

/-- The kinds of shapes that have a meaning as regions. -/
inductive Kind where
  | circle
  | ellipse
  | circleArc
  | segment
  | polygon
deriving DecidableEq, Repr

def Kind.name : Kind → String
  | circle => "Circle"
  | ellipse => "Ellipse"
  | circleArc => "CircleArc"
  | segment => "Segment"
  | polygon => "Polygon"

variable {α : Type}

def kind? : Shape α → Option Kind
  | circle .. => some .circle
  | ellipse .. => some .ellipse
  | circleArc .. => some .circleArc
  | segment .. => some .segment
  | polygon .. => some .polygon
  | unsupported _ => none

/-- The name of the type of the shape. -/
def className (s : Shape α) : String :=
  match s with
  | unsupported className => className
  | circle .. => Kind.circle.name
  | ellipse .. => Kind.ellipse.name
  | circleArc .. => Kind.circleArc.name
  | segment .. => Kind.segment.name
  | polygon .. => Kind.polygon.name

variable [Scalar α]

/-- Whether two points are one for a chain of edges. -/
def joined (p q : Point α) : Bool :=
  !(Point.coincidence < (p - q).norm)

/-- Leaves out every point that is joined to the last one kept. -/
def chainFrom (last : Point α) : List (Point α) → List (Point α)
  | [] => []
  | p :: ps => if joined last p then chainFrom last ps else p :: chainFrom p ps

/-- The polygon along a chain of edges, each starting where the one before ended. The last corner
is left out if it closes the chain. -/
def ofEdges (edges : List (Point α × Point α)) : Shape α :=
  match edges.flatMap fun (p, q) => [p, q] with
  | [] => polygon []
  | first :: rest =>
    let others := chainFrom first rest
    match others.getLast? with
    | some last =>
      if (first - last).norm ≤ Point.coincidence then polygon (first :: others.dropLast)
      else polygon (first :: others)
    | none => polygon [first]

end Shape

end PlanarArea
