import PlanarArea.Overlay.Node
import PlanarArea.Region.Basic
import Std.Data.HashMap

/-!
Two sets of rings as one set of pieces that meet in their ends only.

Pieces are cut where they meet. Two that cross are cut at the node nearest to the crossing, or one
of them is cut at a near end of the other. That may bend them, and then they may cross again. So
cutting is repeated until no cut bends a piece; each time, ends further away count as near.
-/
namespace PlanarArea

/-- Membership in the two operands of an operator. -/
structure Sides where
  left : Bool
  right : Bool
deriving DecidableEq, Repr

namespace Sides

def outside : Sides := ⟨false, false⟩

/-- Membership after a boundary is crossed. -/
def flip (a b : Sides) : Sides :=
  ⟨a.left != b.left, a.right != b.right⟩

end Sides

/-- How often the rings of each operand run along a piece, less how often they run back. -/
structure Windings where
  left : Int
  right : Int
deriving DecidableEq, Repr

namespace Windings

def zero : Windings := ⟨0, 0⟩

def add (v w : Windings) : Windings :=
  ⟨v.left + w.left, v.right + w.right⟩

def back (w : Windings) : Windings :=
  ⟨-w.left, -w.right⟩

/-- The operands for which membership changes across a piece. -/
def flips (w : Windings) : Sides :=
  ⟨w.left % 2 = 1, w.right % 2 = 1⟩

end Windings

/-- A boundary piece from its first node to its last one in sweep order. -/
structure Piece where
  lo : Node
  hi : Node
  windings : Windings
deriving DecidableEq, Repr

namespace Piece

/-- The piece from `a` to `b`, none if they are equal. -/
def between? (a b : Node) (windings : Windings) : Option Piece :=
  if Node.before a b then some ⟨a, b, windings⟩
  else if Node.before b a then some ⟨b, a, windings.back⟩
  else none

/-- By the first node, then from the lowest direction to the highest, then by length. -/
def precedes (p q : Piece) : Bool :=
  if p.lo = q.lo then
    let turn := Node.cross p.lo p.hi q.hi
    if turn = 0 then !Node.before q.hi p.hi else 0 < turn
  else Node.before p.lo q.lo

/-- Joins neighbours of a sorted list that cover the same segment. Where rings run back as often as
they run along, nothing is left. -/
def merge : List Piece → List Piece
  | [] => []
  | p :: rest =>
    match merge rest with
    | q :: done =>
      if p.lo = q.lo ∧ p.hi = q.hi then
        let windings := p.windings.add q.windings
        if windings = Windings.zero then done else { p with windings := windings } :: done
      else p :: q :: done
    | [] => [p]

/-- The end of a piece that is nearer to a node, and the square of its distance. -/
def nearerEnd (p : Piece) (n : Node) : Node × Int :=
  let toLo := Node.squaredDistance p.lo n
  let toHi := Node.squaredDistance p.hi n
  if toLo < toHi then (p.lo, toLo) else (p.hi, toHi)

/-- Splits a piece at some nodes. -/
def split (nodes : List Node) (p : Piece) : List Piece :=
  let inner := nodes.mergeSort fun a b => Node.along p.lo p.hi a ≤ Node.along p.lo p.hi b
  ((p.lo :: inner).zip (inner ++ [p.hi])).filterMap fun (a, b) => between? a b p.windings

end Piece

/-- A place at which a numbered piece is cut. -/
structure Cut where
  id : Nat
  node : Node
  bends : Bool
deriving DecidableEq, Repr

namespace Arrangement

/-- Adds a corner to a chain, the latest first. The corner before it is left out if the chain goes
straight on or back there. -/
def addCorner : List Node → Node → List Node
  | b :: a :: chain, n =>
    if Node.cross a b n = 0 then n :: a :: chain else n :: b :: a :: chain
  | [b], n => if b = n then [b] else [n, b]
  | [], n => [n]

/-- Leaves out the corners at which a ring goes straight on or back. -/
def straighten (ring : Ring Int) : Ring Int :=
  let corners := ((ring ++ ring.take 1).foldl addCorner []).tail.reverse
  match corners.getLast?, corners with
  | some last, a :: b :: rest => if Node.cross last a b = 0 then b :: rest else corners
  | _, _ => corners

/-- The edges of rings as pieces. -/
def ofRings (windings : Windings) (rings : List (Ring Int)) : List Piece :=
  rings.flatMap fun ring =>
    let corners := straighten ring
    (corners.zip (corners.tail ++ corners.take 1)).filterMap fun (a, b) =>
      Piece.between? a b windings

/-- The cuts of two numbered pieces. An end is near within the square root of `reach`. -/
def cutsOf (reach : Int) (p q : Piece × Nat) : List Cut :=
  match Node.crossing? p.1.lo p.1.hi q.1.lo q.1.hi with
  | none =>
    ([q.1.lo, q.1.hi].filter (Node.isInside p.1.lo p.1.hi)).map (⟨p.2, ·, false⟩) ++
      ([p.1.lo, p.1.hi].filter (Node.isInside q.1.lo q.1.hi)).map (⟨q.2, ·, false⟩)
  | some n =>
    if Node.cross p.1.lo p.1.hi n = 0 ∧ Node.cross q.1.lo q.1.hi n = 0 then
      [⟨p.2, n, false⟩, ⟨q.2, n, false⟩]
    else
      let (endP, distP) := p.1.nearerEnd n
      let (endQ, distQ) := q.1.nearerEnd n
      if reach < min distP distQ then [⟨p.2, n, true⟩, ⟨q.2, n, true⟩]
      else if distP ≤ distQ then [⟨q.2, endP, true⟩]
      else [⟨p.2, endQ, true⟩]

/-- The cuts of sorted pieces; `active` are the earlier ones that reach as far to the right as the
sweep has come. -/
def cuts (reach : Int) (active : List (Piece × Nat)) : List (Piece × Nat) → List Cut
  | [] => []
  | p :: rest =>
    let active := active.filter fun q => p.1.lo.x ≤ q.1.hi.x
    let low := min p.1.lo.y p.1.hi.y
    let high := max p.1.lo.y p.1.hi.y
    let near := active.filter fun q =>
      low ≤ max q.1.lo.y q.1.hi.y && min q.1.lo.y q.1.hi.y ≤ high
    near.flatMap (fun q => cutsOf reach q p) ++ cuts reach (p :: active) rest

def sortPieces (pieces : List Piece) : List Piece :=
  Piece.merge (pieces.mergeSort Piece.precedes)

/-- Cuts numbered pieces. -/
def cutPieces (cuts : List Cut) (pieces : List (Piece × Nat)) : List Piece :=
  let nodes : Std.HashMap Nat (List Node) := cuts.foldl (fun m c =>
    m.insert c.id (c.node :: m.getD c.id [])) ∅
  sortPieces (pieces.flatMap fun p => p.1.split (nodes.getD p.2 []))

/-- Cuts sorted pieces until no cut bends any, a number of times at most. -/
def settle : Nat → Int → List Piece → List Piece
  | 0, _, pieces => pieces
  | rounds + 1, reach, pieces =>
    let numbered := pieces.zipIdx
    let found := cuts reach [] numbered
    if found.isEmpty then pieces
    else
      let next := cutPieces found numbered
      if found.any Cut.bends then settle rounds (2 * reach) next else next

/-- The pieces of two sets of rings, sorted, meeting in their ends only. After so many rounds every
end is near. -/
def pieces (left right : List (Ring Int)) : List Piece :=
  settle 64 1 (sortPieces (ofRings ⟨1, 0⟩ left ++ ofRings ⟨0, 1⟩ right))

/-- A sorted list without repetitions. -/
def dedup : List Node → List Node
  | [] => []
  | [n] => [n]
  | a :: b :: rest => if a = b then dedup (b :: rest) else a :: dedup (b :: rest)

def sortNodes (nodes : List Node) : List Node :=
  dedup (nodes.mergeSort fun a b => !Node.before b a)

end Arrangement

end PlanarArea
