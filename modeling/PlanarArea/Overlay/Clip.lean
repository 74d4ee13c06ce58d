import PlanarArea.Overlay.Contour
import PlanarArea.Overlay.Grid

/-!
Set operations on regions with double coordinates. Each operand means its even-odd set: the points
around which its rings, holes included, close an odd number of times.
-/
namespace PlanarArea.Overlay

/-- The combined set of two sets of rings. -/
def combineRings (op : Op) (left right : List (Ring Int)) : List (Polygon Int) :=
  let pieces := Arrangement.pieces left right
  Contour.polygons (Boundary.ofFound pieces.length (Sweep.boundary op pieces)).contours

def combine (op : Op) (left right : Region Float) : Region Float :=
  let grid := Grid.ofPoints (left.rings.flatten ++ right.rings.flatten)
  let snapped (r : Region Float) : List (Ring Int) := r.rings.map fun ring => ring.map grid.snap
  ⟨(combineRings op (snapped left) (snapped right)).map fun p =>
    ⟨p.exterior.map grid.unsnap, p.holes.map fun hole => hole.map grid.unsnap⟩⟩

def clipper : Clipper Float := ⟨combine⟩

end PlanarArea.Overlay
