import PlanarArea.Eval.SegmentCut
import PlanarArea.Scene.Basic

/-!
The value of an expression: a fold of its tree from the shapes at the leaves to one region.

A leaf keeps its shape until an operator uses it. For `|` and `^` a pending or empty side gives way
to the other one, and `-` keeps its left side when the right one is empty.
-/
namespace PlanarArea

inductive Value (α : Type) where
  | shape (tagged : Tagged α)
  | derived (region : Region α)
deriving DecidableEq, Repr

namespace Value

variable {α : Type} [Scalar α]

def isPending : Value α → Bool
  | shape t => t.isPending
  | derived _ => false

/-- A pending segment is not empty. -/
def isEmpty : Value α → Bool
  | shape t => match t.slot with
    | .resolved region => region.isEmpty
    | .pending .. => false
  | derived region => region.isEmpty

/-- The region of a value; a pending segment becomes a half plane. -/
def toRegion (settings : Settings α) : Value α → Except ShapeError (Region α)
  | shape t => t.toRegion settings
  | derived region => .ok region

/-- The set operation on the regions of two values, the left one first. -/
def combine (clip : Clipper α) (settings : Settings α) (op : Op) (left right : Value α) :
    Except ShapeError (Value α) :=
  match left.toRegion settings with
  | .error e => .error e
  | .ok l =>
    match right.toRegion settings with
    | .error e => .error e
    | .ok r => .ok (derived (clip.combine op l r))

/-- The cut that two values make if both are shapes and one is a segment. -/
def cut (clip : Clipper α) (settings : Settings α) :
    Value α → Value α → Except ShapeError (Option (Region α))
  | shape l, shape r => Tagged.cut clip settings l r
  | _, _ => .ok none

def apply (clip : Clipper α) (settings : Settings α) (op : Op) (left right : Value α) :
    Except ShapeError (Value α) :=
  match op with
  | .inter =>
    match cut clip settings left right with
    | .error e => .error e
    | .ok (some region) => .ok (derived region)
    | .ok none => combine clip settings .inter left right
  | .union | .xor =>
    if left.isPending || left.isEmpty then .ok right
    else if right.isPending || right.isEmpty then .ok left
    else combine clip settings op left right
  | .diff =>
    if left.isEmpty then .ok (derived Region.empty)
    else if right.isEmpty then .ok left
    else combine clip settings .diff left right

/-- The value of a tree. Names are resolved left to right, and the first fault ends the fold. -/
def ofExpr (clip : Clipper α) (settings : Settings α) (resolver : Resolver α) :
    Expr → Except ShapeError (Value α)
  | .name name =>
    match resolver.resolve name with
    | .error e => .error e
    | .ok source =>
      match Tagged.ofShape settings name source with
      | .error e => .error e
      | .ok t => .ok (shape t)
  | .binary op left right =>
    match ofExpr clip settings resolver left with
    | .error e => .error e
    | .ok l =>
      match ofExpr clip settings resolver right with
      | .error e => .error e
      | .ok r => apply clip settings op l r

end Value

end PlanarArea
