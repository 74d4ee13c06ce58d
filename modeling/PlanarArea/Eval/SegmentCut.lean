import PlanarArea.Eval.Tagged

/-!
A segment next to `&`.

The line of the segment cuts a circle or an arc exactly; polygons and ellipses are clipped by the
half plane. A line that does not cut a circle or an arc properly leaves it whole.
-/
namespace PlanarArea.Tagged

variable {α : Type} [Scalar α]

/-- The cut of a shape along a segment, none if they are no such pair. -/
def cutAlong (clip : Clipper α) (settings : Settings α) (segment shape : Tagged α) :
    Except ShapeError (Option (Region α)) :=
  match segment.slot, shape.slot with
  | .pending start stop, .resolved whole =>
    match shape.kind, shape.source with
    | .circle, .circle center radius =>
      .ok (some ((Cut.circle? settings center radius start stop).getD whole))
    | .circleArc, source =>
      .ok (some ((source.arc?.bind fun arc => Cut.arc? settings arc start stop).getD whole))
    | .polygon, _ | .ellipse, _ =>
      match segment.toRegion settings with
      | .ok half => .ok (some (clip.combine .inter whole half))
      | .error e => .error e
    | _, _ => .ok none
  | _, _ => .ok none

/-- The cut that `left & right` makes if exactly one of them is a segment. -/
def cut (clip : Clipper α) (settings : Settings α) (left right : Tagged α) :
    Except ShapeError (Option (Region α)) :=
  match left.kind, right.kind with
  | .segment, .segment => .ok none
  | .segment, _ => cutAlong clip settings left right
  | _, .segment => cutAlong clip settings right left
  | _, _ => .ok none

end PlanarArea.Tagged
