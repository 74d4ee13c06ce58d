import PlanarArea.Plane.Point

/-!
Angles in radians: the polar angle about a center, differences wrapped into one turn, and the
points of a circle.
-/
namespace PlanarArea.Angle

variable {α : Type} [Scalar α]

/-- A full turn. -/
def turn : α := 2 * Scalar.pi

def ofDegrees (x : α) : α :=
  x * (Scalar.pi / 180)

/-- The polar angle of `p` about `center`. -/
def about (center p : Point α) : α :=
  Scalar.atan2 (p - center).y (p - center).x

/-- The point of a circle at an angle. -/
def onCircle (center : Point α) (radius angle : α) : Point α :=
  ⟨center.x + radius * Scalar.cos angle, center.y + radius * Scalar.sin angle⟩

/-- Applies `step` while `again` holds, at most `bound` times. -/
def iterateWhile (again : α → Bool) (step : α → α) : Nat → α → α
  | 0, x => x
  | bound + 1, x => if again x then iterateWhile again step bound (step x) else x

/-- More turns than it takes to bring `x` to less than one turn from zero. -/
def turnsIn (turn x : α) : Nat :=
  2 * Scalar.truncate (Scalar.abs x / turn) + 2

/-- Moves `x` by `step`, a turn forward or backward, while `again` holds. -/
def wrapWhile (turn : α) (again : α → Bool) (step : α → α) (x : α) : α :=
  iterateWhile again step (turnsIn turn x) x

/-- The difference from one angle to another, brought into `[0, turn)`. -/
def ccwWithin (turn start stop : α) : α :=
  let raised := wrapWhile turn (· < 0) (· + turn) (stop - start)
  wrapWhile turn (turn ≤ ·) (· - turn) raised

/-- The angle swept when turning counter-clockwise from one direction to another. -/
def ccwSweep (start stop : α) : α :=
  ccwWithin turn start stop

/-- Points on a circle at equal steps from `start` across `sweep`, both ends included. -/
def sampleSweep (center : Point α) (radius start sweep : α) (intervals : Nat) : List (Point α) :=
  let n := max intervals 1
  (List.range (n + 1)).map fun i =>
    onCircle center radius (start + Scalar.ofNat i / Scalar.ofNat n * sweep)

end PlanarArea.Angle
