import PlanarArea.Plane.Point

/-!
Convex hulls by monotone chains: the points are sorted, one chain takes the lower side from left to
right and another the upper side from right to left, each turning left at every point.
-/
namespace PlanarArea.Hull

variable {α : Type} [Scalar α]

/-- The order of points by `x`, then by `y`. -/
def leftToRight (p q : Point α) : Bool :=
  if p.x < q.x then true else if q.x < p.x then false else !(q.y < p.y)

/-- Puts `p` on a chain, newest point first, after taking off the points at which the chain would
not turn left. -/
def push (p : Point α) : List (Point α) → List (Point α)
  | b :: a :: chain =>
    if Point.cross a b p ≤ 0 then push p (a :: chain) else p :: b :: a :: chain
  | chain => p :: chain

/-- The chain through sorted points without its last point. -/
def chain (ps : List (Point α)) : List (Point α) :=
  (ps.foldl (fun c p => push p c) []).tail.reverse

/-- The points that a hull is made from: finite, sorted and apart from one another. -/
def candidates (ps : List (Point α)) : List (Point α) :=
  Point.spaced ((ps.filter Point.isFinite).mergeSort leftToRight)

/-- The corners of the convex hull, counter-clockwise, none if the points span no area. -/
def ofPoints? (ps : List (Point α)) : Option (List (Point α)) :=
  if ps.length < 3 then none
  else
    let sorted := candidates ps
    if sorted.length < 3 then none
    else
      let hull := chain sorted ++ chain sorted.reverse
      if hull.length < 3 then none else some hull

end PlanarArea.Hull
