import PlanarArea.Plane.Point

/-!
Nodes: points with integer coordinates, on which orientation is decided exactly.
-/
namespace PlanarArea

abbrev Node := Point Int

instance : Hashable Node where
  hash n := mixHash (hash n.x) (hash n.y)

namespace Node

/-- The order by `x`, then by `y`, in which a sweep meets the nodes. -/
def before (a b : Node) : Bool :=
  a.x < b.x || (a.x = b.x && a.y < b.y)

/-- Positive when `c` lies left of the directed line from `a` to `b`. -/
def cross (a b c : Node) : Int :=
  (b.x - a.x) * (c.y - a.y) - (b.y - a.y) * (c.x - a.x)

/-- How far `c` lies along the way from `a` to `b`, in units of which the whole way takes
`along a b b`. -/
def along (a b c : Node) : Int :=
  (b.x - a.x) * (c.x - a.x) + (b.y - a.y) * (c.y - a.y)

/-- Whether `c` lies on the segment from `a` to `b` and is not one of its ends. -/
def isInside (a b c : Node) : Bool :=
  cross a b c = 0 && 0 < along a b c && along a b c < along a b b

def squaredDistance (a b : Node) : Int :=
  along a b b

/-- The integer nearest to `num / den` for a positive `den`, halves going up. -/
def nearest (num den : Int) : Int :=
  (2 * num + den) / (2 * den)

/-- The node nearest to the point in which two segments cross, none unless each passes from one
side of the other to the other side. -/
def crossing? (a b c d : Node) : Option Node :=
  let ca := cross c d a
  let cb := cross c d b
  let ac := cross a b c
  let ad := cross a b d
  if ca * cb < 0 ∧ ac * ad < 0 then
    let den := (ca - cb).natAbs
    let num := ca.natAbs
    some ⟨a.x + nearest ((b.x - a.x) * num) den, a.y + nearest ((b.y - a.y) * num) den⟩
  else none

end Node

end PlanarArea
