import PlanarArea.Op
import PlanarArea.Plane.Angle
import PlanarArea.Plane.Hull

/-!
Regions of the plane: polygons with holes, how they are built from points and curves, and their
area.

A ring is the list of its corners; the edge from the last corner to the first is implied.
-/
namespace PlanarArea

abbrev Ring (α : Type) := List (Point α)

structure Polygon (α : Type) where
  exterior : Ring α
  holes : List (Ring α)
deriving DecidableEq, Repr

structure Region (α : Type) where
  polygons : List (Polygon α)
deriving DecidableEq, Repr

variable {α : Type} [Scalar α]

namespace Ring

/-- The edges of a ring, the closing one last. -/
def edges (ring : Ring α) : List (Point α × Point α) :=
  ring.zip (ring.tail ++ ring.take 1)

/-- The signed area about the origin, positive for counter-clockwise rings, zero for fewer than
three corners. -/
def signedArea (ring : Ring α) : α :=
  if ring.length < 3 then 0
  else 0.5 * Scalar.sum (ring.edges.map fun (p, q) => p.x * q.y - q.x * p.y)

/-- The area that a ring encloses, summed about its first corner. -/
def area (ring : Ring α) : α :=
  match ring with
  | [] => 0
  | base :: _ =>
    let twice := Scalar.sum (ring.edges.map fun (p, q) =>
      (p - base).x * (q - base).y - (p - base).y * (q - base).x)
    Scalar.abs (twice / 2)

/-- Takes off last corners that are near the first one. -/
def openSeam (ring : Ring α) : Ring α :=
  match ring with
  | [] => []
  | first :: rest => first :: (rest.reverse.dropWhile (Point.near first)).reverse

/-- The ring through the given points, counter-clockwise and without repeated corners, none if a
point is not finite or fewer than three corners are left. -/
def ofPoints? (ps : List (Point α)) : Option (Ring α) :=
  if ps.all Point.isFinite then
    let ring := openSeam (Point.spaced ps)
    if List.length ring < 3 then none
    else if signedArea ring < 0 then some ring.reverse
    else some ring
  else none

end Ring

/-- The area of the exterior less the areas of the holes. -/
def Polygon.area (p : Polygon α) : α :=
  Scalar.abs (p.holes.foldl (fun total hole => total - Ring.area hole) (Ring.area p.exterior))

namespace Region

def empty : Region α := ⟨[]⟩

/-- The region inside one ring. -/
def ofRing (ring : Ring α) : Region α := ⟨[⟨ring, []⟩]⟩

def ofPoints? (ps : List (Point α)) : Option (Region α) :=
  (Ring.ofPoints? ps).map ofRing

/-- An ellipse with the given half axes, turned by `rotation`, as a polygon. -/
def ofEllipse? (center : Point α) (rx ry rotation : α) (samples : Nat) : Option (Region α) :=
  if 0 < rx ∧ 0 < ry then
    let n := max samples 3
    let s := Scalar.sin rotation
    let c := Scalar.cos rotation
    ofPoints? <| (List.range n).map fun k =>
      let t := Angle.turn * Scalar.ofNat k / Scalar.ofNat n
      let x := rx * Scalar.cos t
      let y := ry * Scalar.sin t
      ⟨center.x + x * c - y * s, center.y + x * s + y * c⟩
  else none

def ofCircle? (center : Point α) (radius : α) (samples : Nat) : Option (Region α) :=
  ofEllipse? center radius radius 0 samples

/-- The points left of the directed line from `p` to `q` within reach: a box that goes `extent`
beyond both points and `extent` away from the line. None if the points coincide. -/
def ofHalfPlane? (p q : Point α) (extent : α) : Option (Region α) :=
  let d := q - p
  let len := d.norm
  if 1e-10 ≤ len then
    let d := d / len
    let n := d.turnLeft
    let near₁ := p - d * extent
    let near₂ := q + d * extent
    ofPoints? [near₁, near₂, near₂ + n * extent, near₁ + n * extent]
  else none

/-- The convex hull of the points. -/
def ofHull? (ps : List (Point α)) : Option (Region α) :=
  (Hull.ofPoints? ps).bind ofPoints?

def area (r : Region α) : α :=
  r.polygons.foldl (fun total p => total + p.area) 0

/-- The number of separate pieces. -/
def components (r : Region α) : Nat :=
  r.polygons.length

/-- Whether the region has no piece or no area. -/
def isEmpty (r : Region α) : Bool :=
  r.polygons.isEmpty || r.area ≤ 0

/-- Whether two rings have equal corners in the same order. -/
def sameRing : Ring α → Ring α → Bool
  | [], [] => true
  | p :: ps, q :: qs => Point.same p q && sameRing ps qs
  | _, _ => false

def sameRings : List (Ring α) → List (Ring α) → Bool
  | [], [] => true
  | r :: rs, s :: ss => sameRing r s && sameRings rs ss
  | _, _ => false

/-- Whether two regions are written with the same corners, piece by piece. -/
def same (r s : Region α) : Bool :=
  go r.polygons s.polygons
where
  go : List (Polygon α) → List (Polygon α) → Bool
    | [], [] => true
    | p :: ps, q :: qs =>
      sameRing p.exterior q.exterior && sameRings p.holes q.holes && go ps qs
    | _, _ => false

@[simp] theorem isEmpty_empty : (empty : Region α).isEmpty = true := rfl

end Region

/-- A way to combine two regions by the set operation of an operator. -/
structure Clipper (α : Type) where
  combine : Op → Region α → Region α → Region α

end PlanarArea
