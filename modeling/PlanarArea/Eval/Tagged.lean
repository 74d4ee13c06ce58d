import PlanarArea.Circle.Cut
import PlanarArea.Fault
import PlanarArea.Region.Basic
import PlanarArea.Shape.Basic

/-!
From shapes to regions.

A segment has no region of its own: next to `&` it cuts, elsewhere it stands for the half plane on
its left. So it stays pending until the operator that it meets decides.
-/
namespace PlanarArea

inductive Slot (α : Type) where
  | pending (start stop : Point α)
  | resolved (region : Region α)
deriving DecidableEq, Repr

/-- A named shape with its region, or a segment whose region is not decided yet. -/
structure Tagged (α : Type) where
  name : String
  kind : Shape.Kind
  slot : Slot α
  source : Shape α
deriving DecidableEq, Repr

variable {α : Type} [Scalar α]

def Slot.isPending : Slot α → Bool
  | pending .. => true
  | resolved _ => false

/-- The arc that an arc shape draws. -/
def Shape.arc? : Shape α → Option (Arc α)
  | circleArc center radius start stop major =>
    some (Arc.ofEndpoints center radius start stop major)
  | _ => none

/-- Finite and greater than zero. -/
def isPositive (x : α) : Bool :=
  Scalar.isFinite x && 0 < x

namespace Tagged

def isPending (t : Tagged α) : Bool :=
  t.slot.isPending

/-- The region of a shape; a pending segment becomes the half plane on its left. -/
def toRegion (settings : Settings α) (t : Tagged α) : Except ShapeError (Region α) :=
  match t.slot with
  | .resolved region => .ok region
  | .pending start stop =>
    match Region.ofHalfPlane? start stop settings.halfPlaneExtent with
    | some region => .ok region
    | none => .error (.degenerate t.name .coincidentEndpoints)

/-- A region, or the defect of the shape that has none. -/
def orDefect (name : String) (defect : Defect) : Option (Region α) → Except ShapeError (Region α)
  | some region => .ok region
  | none => .error (.degenerate name defect)

/-- The shape called `name` with its region; a segment is left pending. -/
def ofShape (settings : Settings α) (name : String) (shape : Shape α) :
    Except ShapeError (Tagged α) :=
  let resolved (kind : Shape.Kind) (region : Region α) : Tagged α :=
    ⟨name, kind, .resolved region, shape⟩
  match shape with
  | .circle center radius =>
    if isPositive radius then
      (orDefect name .emptyCircle (Region.ofCircle? center radius settings.curvePoints)).map
        (resolved .circle)
    else .error (.degenerate name .radius)
  | .ellipse center rx ry rotation =>
    if isPositive rx && isPositive ry then
      (orDefect name .emptyEllipse
        (Region.ofEllipse? center rx ry (Angle.ofDegrees rotation) settings.curvePoints)).map
        (resolved .ellipse)
    else .error (.degenerate name .radii)
  | .circleArc center radius start stop major =>
    if isPositive radius then
      .ok (resolved .circleArc ((Arc.ofEndpoints center radius start stop major).region settings))
    else .error (.degenerate name .radius)
  | .segment start stop => .ok ⟨name, .segment, .pending start stop, shape⟩
  | .polygon vertices =>
    (orDefect name .fewVertices (Region.ofPoints? vertices)).map (resolved .polygon)
  | .unsupported className => .error (.unconvertible name className)

end Tagged

end PlanarArea
