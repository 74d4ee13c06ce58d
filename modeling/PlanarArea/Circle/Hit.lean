import PlanarArea.Plane.Angle
import PlanarArea.Settings

/-!
Where a line meets a circle.

With `x = p + (q - p) * t` on the line, `|x - center|² = radius²` is a quadratic equation in `t`.
-/
namespace PlanarArea

/-- A common point of a line and a circle, with its angle about the center. -/
structure Hit (α : Type) where
  point : Point α
  angle : α
deriving DecidableEq, Repr

namespace Hit

variable {α : Type} [Scalar α]

/-- The common points of the line through `p` and `q` and a circle: none, one or two, in the order
of the direction from `p` to `q`. A slightly negative discriminant counts as tangency, and there is
none for a direction that is too short. -/
def ofLine (settings : Settings α) (p q center : Point α) (radius : α) : List (Hit α) :=
  let d := q - p
  let f := p - center
  let a := d.dot d
  let b := 2 * f.dot d
  let c := f.dot f - radius * radius
  let disc := b * b - 4 * a * c
  if Scalar.abs a < settings.minDirection then []
  else if disc < -settings.discSlack then []
  else
    let root := Scalar.sqrt (Scalar.max disc 0)
    let signs : List α := if settings.discSlack < root then [-1, 1] else [0]
    signs.map fun sign =>
      let point := p + d * ((-b + sign * root) / (2 * a))
      ⟨point, Angle.about center point⟩

theorem length_ofLine_le (settings : Settings α) (p q center : Point α) (radius : α) :
    (ofLine settings p q center radius).length ≤ 2 := by
  unfold ofLine
  dsimp only
  split
  · simp
  · split
    · simp
    · split <;> simp

end Hit

end PlanarArea
