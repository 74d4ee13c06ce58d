import PlanarArea.Circle.Arc
import PlanarArea.Circle.Hit
import PlanarArea.Region.Basic

/-!
Circular segments: the region between an arc and its chord, and the pieces that a line cuts off a
circle or an arc.
-/
namespace PlanarArea

variable {α : Type} [Scalar α]

/-- The region between an arc and its chord, empty if the sweep encloses nothing. -/
def Arc.region (settings : Settings α) (arc : Arc α) : Region α :=
  let n := settings.intervals arc.sweep settings.arcMinPoints
  (Region.ofPoints? (arc.sample n)).getD Region.empty

/-- The region between a cut stretch of arc and its chord. -/
def Arc.cutRegion? (settings : Settings α) (arc : Arc α) : Option (Region α) :=
  Region.ofPoints? (arc.sample (settings.intervals arc.sweep settings.cutMinPoints))

namespace Cut

/-- The side of the line on which a cut piece of a circle lies, as the sign of `Point.cross`: away
from the center, and left if the line passes through the center. -/
def wantedSide (p q center : Point α) (radius : α) : α :=
  let distance := Point.cross p q center / (q - p).norm
  if 1e-9 * Scalar.max radius 1 < distance then -1 else 1

/-- The stretch of a circle between two of its directions that lies on the wanted side of the
line. -/
def circleArc (p q center : Point α) (radius start stop : α) : Arc α :=
  let ccw := Angle.ccwSweep start stop
  let middle := Angle.onCircle center radius (start + 0.5 * ccw)
  let side := Scalar.signum (Point.cross p q middle)
  let wanted := wantedSide p q center radius
  ⟨center, radius, start, if Scalar.same side wanted then ccw else -(Angle.turn - ccw)⟩

/-- The piece of a circle that the line from `p` to `q` cuts off, none if it meets the circle fewer
than twice. -/
def circle? (settings : Settings α) (center : Point α) (radius : α) (p q : Point α) :
    Option (Region α) :=
  match Hit.ofLine settings p q center radius with
  | first :: second :: _ =>
    (circleArc p q center radius first.angle second.angle).cutRegion? settings
  | _ => none

/-- The stretch of an arc between two of its directions that does not reach back over its start. -/
def arcBetween (arc : Arc α) (first second : α) : Arc α :=
  let ccw := Angle.ccwSweep first second
  let toStart := Angle.ccwSweep first arc.start
  ⟨arc.center, arc.radius, first, if toStart < ccw then -(Angle.turn - ccw) else ccw⟩

/-- The region between the line from `p` to `q` and the arc, none if fewer than two crossings lie
on the arc. -/
def arc? (settings : Settings α) (arc : Arc α) (p q : Point α) : Option (Region α) :=
  let hits := Hit.ofLine settings p q arc.center arc.radius
  match hits.filter fun h => arc.contains h.angle settings.angleSlack with
  | first :: second :: _ => (arcBetween arc first.angle second.angle).cutRegion? settings
  | _ => none

end Cut

end PlanarArea
