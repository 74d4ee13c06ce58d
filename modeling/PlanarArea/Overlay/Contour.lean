import PlanarArea.Overlay.Sweep
import Std.Data.HashMap

/-!
From bounding pieces to polygons with holes.

Contours are taken from left to right. A contour starts with the highest free piece at its leftmost
node: with the set above that piece it is a hole, otherwise an exterior. Exteriors and holes have
the set on their right, so an exterior takes its first piece to the right and a hole takes it to the
left. A contour ends as soon as it is back at the node where it started.

Where several pieces meet, an exterior turns to the side of the set, so that parts that meet in a
node only are kept apart. A hole turns to the other side, so that it is no larger than it has to be.
-/
namespace PlanarArea

/-- The boundary of a set, with what has been taken for contours so far. -/
structure Boundary where
  borders : Array (Option Border)
  fans : Std.HashMap Node (List Spoke)
  taken : Array Bool

namespace Boundary

def ofFound (count : Nat) (found : Sweep.Found) : Boundary where
  borders := found.borders.foldl (fun a b => a.setIfInBounds b.1 (some b.2))
    (Array.replicate count none)
  fans := found.fans.foldl (fun m f => m.insert f.node f.spokes) ∅
  taken := Array.replicate count false

def border? (b : Boundary) (id : Nat) : Option Border :=
  (b.borders[id]?).join

/-- Whether a piece bounds the set and belongs to no contour yet. -/
def isFree (b : Boundary) (id : Nat) : Bool :=
  (b.border? id).isSome && !b.taken.getD id true

def take (b : Boundary) (id : Nat) : Boundary :=
  { b with taken := b.taken.setIfInBounds id true }

/-- The spokes of a node in the order in which they follow the piece `id`. -/
def after (id : Nat) (spokes : List Spoke) : List Spoke :=
  let (front, back) := spokes.span fun s => s.id != id
  back.tail ++ front

/-- The piece by which a contour goes on from a node to which the piece `id` has led: the first free
one, in clockwise order for holes and in counter-clockwise order for exteriors. -/
def next? (b : Boundary) (hole : Bool) (id : Nat) (node : Node) : Option Nat :=
  let spokes := b.fans.getD node []
  let order := after id (if hole then spokes.reverse else spokes)
  (order.find? fun s => b.isFree s.id).map Spoke.id

/-- The other end of a piece. -/
def farEnd (b : Boundary) (id : Nat) (node : Node) : Node :=
  match b.border? id with
  | some border => if border.lo = node then border.hi else border.lo
  | none => node

/-- Follows a contour from `node`, to which the piece `id` has led, until it comes back to `home`;
gives the corners on the way and what is left of the boundary. -/
def follow (hole : Bool) (home : Node) : Nat → Nat → Node → Boundary → Ring Int × Boundary
  | 0, _, _, b => ([], b)
  | bound + 1, id, node, b =>
    if node = home then ([], b)
    else match b.next? hole id node with
      | none => ([], b)
      | some succ =>
        let (ring, b) := follow hole home bound succ (b.farEnd succ node) (b.take succ)
        (node :: ring, b)

/-- The highest free piece to the right of a node. -/
def highest? (b : Boundary) (node : Node) : Option Nat :=
  ((b.fans.getD node []).reverse.find? fun s => s.toRight && b.isFree s.id).map Spoke.id

end Boundary

/-- A closed walk along the boundary, around the set or around a gap in it. -/
structure Contour where
  isHole : Bool
  ring : Ring Int

namespace Boundary

/-- The contour that starts with the free piece `id` or with a higher one at the same node. -/
def contour? (b : Boundary) (id : Nat) : Option (Contour × Boundary) := do
  let first := (b.highest? (← b.border? id).lo).getD id
  let border ← b.border? first
  let (home, node) :=
    if border.setAbove then (border.hi, border.lo) else (border.lo, border.hi)
  let (ring, b) := follow border.setAbove home b.borders.size first node (b.take first)
  return (⟨border.setAbove, home :: ring⟩, b)

/-- All contours, from the piece `id` on. -/
def contoursFrom : Nat → Nat → Boundary → List Contour
  | 0, _, _ => []
  | bound + 1, id, b =>
    if b.borders.size ≤ id then []
    else if b.isFree id then
      match b.contour? id with
      | some (contour, b) => contour :: contoursFrom bound id b
      | none => []
    else contoursFrom bound (id + 1) b

/-- The contours of the boundary. Each step takes a piece or passes one by. -/
def contours (b : Boundary) : List Contour :=
  contoursFrom (2 * b.borders.size + 1) 0 b

end Boundary

namespace Contour

/-- Twice the signed area, positive for counter-clockwise rings. -/
def doubleArea (ring : Ring Int) : Int :=
  (ring.zip (ring.tail ++ ring.take 1)).foldl (fun total (p, q) =>
    total + (p.x * q.y - p.y * q.x)) 0

/-- Whether a ray from `n` to the right crosses the edge from `a` to `b`. -/
def rayCrosses (n a b : Node) : Bool :=
  if a.y ≤ n.y && n.y < b.y then 0 < Node.cross a b n
  else if b.y ≤ n.y && n.y < a.y then 0 < Node.cross b a n
  else false

/-- Whether a node lies inside a ring. -/
def encloses (ring : Ring Int) (n : Node) : Bool :=
  ((ring.zip (ring.tail ++ ring.take 1)).filter fun (a, b) => rayCrosses n a b).length % 2 = 1

/-- A ring on a grid that is twice as fine, where the middle of an edge is a node. -/
def doubled (ring : Ring Int) : Ring Int :=
  ring.map fun n => ⟨2 * n.x, 2 * n.y⟩

/-- The smallest of the exteriors around a hole, by its place in the list. Exteriors come with
their double areas. A hole may touch an exterior in corners, so the middle of an edge is looked
for. -/
def parent? (exteriors : List (Ring Int × Nat)) (hole : Ring Int) : Option Nat :=
  match hole with
  | a :: b :: _ =>
    let size := (doubleArea hole).natAbs
    let middle : Node := ⟨a.x + b.x, a.y + b.y⟩
    let around := exteriors.zipIdx.filter fun ((ring, area), _) =>
      size < area && encloses (doubled ring) middle
    let best := around.foldl (fun (best : Option (Nat × Nat)) ((_, area), i) =>
      match best with
      | some (least, _) => if area < least then some (area, i) else best
      | none => some (area, i)) none
    best.map Prod.snd
  | _ => none

/-- The polygons of contours: every exterior with the holes in it. -/
def polygons (contours : List Contour) : List (Polygon Int) :=
  let (holes, exteriors) := contours.partition Contour.isHole
  let sized := exteriors.map fun c => (c.ring, (doubleArea c.ring).natAbs)
  let owned := holes.map fun c => (parent? sized c.ring, c.ring)
  sized.zipIdx.map fun ((ring, _), i) =>
    ⟨Arrangement.straighten ring,
      (owned.filter fun o => o.1 = some i).map fun o => Arrangement.straighten o.2⟩

end Contour

end PlanarArea
