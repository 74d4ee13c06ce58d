import PlanarArea.Overlay.Node
import PlanarArea.Region.Basic

/-!
The grid on which two regions are combined: its center is that of their common box, and half of the
larger side of the box takes about `2 ^ 29` steps.
-/
namespace PlanarArea

structure Grid where
  center : Point Float
  /-- A step is `2 ^ -scale`. -/
  scale : Int

namespace Grid

/-- The binary digits of a step count for half of the larger side of the box. -/
def bits : Nat := 29

/-- The least and the greatest of some numbers and two given ones. -/
def range (lo hi : Float) (xs : List Float) : Float × Float :=
  xs.foldl (fun r x => (if x < r.1 then x else r.1, if r.2 < x then x else r.2)) (lo, hi)

/-- Steps per unit as a power of two, for half of the larger side of a box. A box without size
takes any step, and in one that is too large for a double all points fall together. -/
def scaleFor (half : Float) : Int :=
  if half.isFinite then
    if half == 0 then 0 else bits - half.log2.toInt64.toInt
  else -4096

/-- The nearest step, halves going away from zero. -/
def toStep (x : Float) : Int :=
  x.round.toInt64.toInt

def ofPoints (ps : List (Point Float)) : Grid :=
  match ps with
  | [] => ⟨⟨0, 0⟩, 0⟩
  | p :: _ =>
    let xs := range p.x p.x (ps.map Point.x)
    let ys := range p.y p.y (ps.map Point.y)
    let halfX := (xs.2 - xs.1) * 0.5
    let halfY := (ys.2 - ys.1) * 0.5
    let scale := scaleFor (if halfX < halfY then halfY else halfX)
    ⟨⟨xs.1 + halfX, ys.1 + halfY⟩, scale⟩

def snap (g : Grid) (p : Point Float) : Node :=
  ⟨toStep ((p.x - g.center.x).scaleB g.scale), toStep ((p.y - g.center.y).scaleB g.scale)⟩

def unsnap (g : Grid) (n : Node) : Point Float :=
  ⟨g.center.x + (Float.ofInt n.x).scaleB (-g.scale),
    g.center.y + (Float.ofInt n.y).scaleB (-g.scale)⟩

end Grid

/-- Every ring of a region, holes included. -/
def Region.rings {α : Type} (r : Region α) : List (Ring α) :=
  r.polygons.flatMap fun p => p.exterior :: p.holes

end PlanarArea
