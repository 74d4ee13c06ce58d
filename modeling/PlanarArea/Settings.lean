import PlanarArea.Expr.Parse
import PlanarArea.Scalar

/-!
Tolerances and sampling densities of an evaluation: lengths of directions are squared, angles in
radians, and curves have at least so many intervals.
-/
namespace PlanarArea

structure Settings (α : Type) where
  /-- Discriminants from `-discSlack` to zero count as tangency, and two crossings are told apart
  when the root of the discriminant exceeds `discSlack`. -/
  discSlack : α
  minDirection : α
  angleSlack : α
  arcMinPoints : Nat
  cutMinPoints : Nat
  pointsPerRadian : α
  curvePoints : Nat
  halfPlaneExtent : α
  /-- The number of boundary points that each of several regions gives to their hull. -/
  hullSamples : Nat
  maxDepth : Nat

namespace Settings

variable {α : Type} [Scalar α]

def default : Settings α where
  discSlack := 1e-9
  minDirection := 1e-12
  angleSlack := 1e-6
  arcMinPoints := 32
  cutMinPoints := 16
  pointsPerRadian := 16
  curvePoints := 256
  halfPlaneExtent := 1e4
  hullSamples := 50
  maxDepth := Expr.defaultLimit

instance : Inhabited (Settings α) := ⟨default⟩

/-- The number of intervals for a sweep, at least `least` and at least one. -/
def intervals (s : Settings α) (sweep : α) (least : Nat) : Nat :=
  max (max (Scalar.truncate (Scalar.abs sweep * s.pointsPerRadian)) least) 1

end Settings

end PlanarArea
