import PlanarArea.Plane.Angle

/-!
Arcs of circles: a start angle and a signed sweep, positive when counter-clockwise.
-/
namespace PlanarArea

structure Arc (α : Type) where
  center : Point α
  radius : α
  start : α
  sweep : α
deriving DecidableEq, Repr

namespace Arc

variable {α : Type} [Scalar α]

/-- The sweep from one angle to another: of the two ways round, a minor arc takes the one of at
most half a turn and a major arc the other. -/
def sweepBetween (start stop : α) (major : Bool) : α :=
  let ccw := Angle.ccwSweep start stop
  let back := -(Angle.turn - ccw)
  if major then (if ccw < Scalar.pi then back else ccw)
  else (if Scalar.pi < ccw then back else ccw)

/-- The minor or major arc between the directions of two points from the center. -/
def ofEndpoints (center : Point α) (radius : α) (p q : Point α) (major : Bool) : Arc α :=
  let start := Angle.about center p
  ⟨center, radius, start, sweepBetween start (Angle.about center q) major⟩

/-- Whether the direction `angle` lies on the arc, or within `slack` of an end beyond it. -/
def contains (arc : Arc α) (angle slack : α) : Bool :=
  let turn := Angle.turn
  let offset := angle - arc.start
  if 0 ≤ arc.sweep then
    let raised := Angle.wrapWhile turn (· < 0) (· + turn) offset
    let rel := Angle.wrapWhile turn (turn < ·) (· - turn) raised
    rel ≤ arc.sweep + slack
  else
    let lowered := Angle.wrapWhile turn (0 < ·) (· - turn) offset
    let rel := Angle.wrapWhile turn (· < -turn) (· + turn) lowered
    arc.sweep - slack ≤ rel

/-- Points on the arc at equal steps, both ends included. -/
def sample (arc : Arc α) (intervals : Nat) : List (Point α) :=
  Angle.sampleSweep arc.center arc.radius arc.start arc.sweep intervals

end Arc

end PlanarArea
