import PlanarArea.Op
import PlanarArea.Overlay.Arrangement

/-!
Which pieces bound the combined set, and in what order they stand around each node.

A sweep from left to right keeps the pieces that it cuts, from the lowest to the highest, each with
the membership above it. A piece bounds the combined set if the set holds on one side of it only.
-/
namespace PlanarArea

/-- A bounding piece from its first node to its last one in sweep order. -/
structure Border where
  lo : Node
  hi : Node
  /-- Whether the set lies above the piece, otherwise it lies below. -/
  setAbove : Bool
deriving DecidableEq, Repr

/-- A bounding piece as it is seen from one of its ends. -/
structure Spoke where
  id : Nat
  /-- Whether the piece goes right from there. -/
  toRight : Bool
deriving DecidableEq, Repr

/-- A node with its bounding pieces, counter-clockwise from straight down. -/
structure Fan where
  node : Node
  spokes : List Spoke
deriving Repr

namespace Sweep

/-- A numbered piece on the sweep line, with the membership above it. -/
structure Strand where
  piece : Piece
  id : Nat
  above : Sides
  /-- Whether the set lies above the piece, none if the piece does not bound it. -/
  setAbove? : Option Bool
deriving Repr

/-- Whether the set lies above a piece with the given membership on its two sides. -/
def setAbove? (op : Op) (below above : Sides) : Option Bool :=
  let inBelow := op.holds below.left below.right
  let inAbove := op.holds above.left above.right
  if inBelow = inAbove then none else some inAbove

/-- The pieces that start at a node, from the lowest to the highest, above the given membership. -/
def enter (op : Op) (below : Sides) : List (Piece × Nat) → List Strand
  | [] => []
  | (p, id) :: rest =>
    let above := below.flip p.windings.flips
    ⟨p, id, above, setAbove? op below above⟩ :: enter op above rest

/-- The pieces among the strands that bound the combined set, seen from their left or right ends. -/
def spokes (toRight : Bool) (strands : List Strand) : List Spoke :=
  strands.filterMap fun s => s.setAbove?.map fun _ => ⟨s.id, toRight⟩

def border? (s : Strand) : Option (Nat × Border) :=
  s.setAbove?.map fun above => (s.id, ⟨s.piece.lo, s.piece.hi, above⟩)

/-- What a sweep finds: the fans of all nodes, and the bounding pieces by their numbers. -/
structure Found where
  fans : List Fan
  borders : List (Nat × Border)

/-- Sweeps over the nodes in their order; `pieces` are those that start at the nodes ahead. -/
def run (op : Op) (status : List Strand) (pieces : List (Piece × Nat)) : List Node → Found
  | [] => ⟨[], []⟩
  | node :: nodes =>
    let (lower, upper) := status.span fun s => 0 < Node.cross s.piece.lo s.piece.hi node
    let (ended, higher) := upper.span fun s => s.piece.hi = node
    let (starting, ahead) := pieces.span fun p => p.1.lo = node
    let below := match lower.getLast? with
      | some s => s.above
      | none => Sides.outside
    let entered := enter op below starting
    let found := run op (lower ++ entered ++ higher) ahead nodes
    ⟨⟨node, spokes true entered ++ (spokes false ended).reverse⟩ :: found.fans,
      entered.filterMap border? ++ found.borders⟩

/-- The boundary of the combined set of sorted pieces. -/
def boundary (op : Op) (pieces : List Piece) : Found :=
  let nodes := Arrangement.sortNodes (pieces.flatMap fun p => [p.lo, p.hi])
  run op [] pieces.zipIdx nodes

end Sweep

end PlanarArea
