import PlanarArea.Op

/-!
Expression trees: names combined by the four operators.
-/
namespace PlanarArea

inductive Expr where
  | name (text : String)
  | binary (op : Op) (left right : Expr)
deriving DecidableEq, Repr

namespace Expr

/-- The names at the leaves, left to right, repetitions kept. -/
def names : Expr → List String
  | name text => [text]
  | binary _ left right => left.names ++ right.names

/-- The operators in the order in which they are written. -/
def ops : Expr → List Op
  | name _ => []
  | binary op left right => left.ops ++ op :: right.ops

def opCount : Expr → Nat
  | name _ => 0
  | binary _ left right => 1 + left.opCount + right.opCount

/-- The number of operators on the longest way from the root to a leaf. -/
def height : Expr → Nat
  | name _ => 0
  | binary _ left right => 1 + max left.height right.height

/-- Every operator with its operands in parentheses; a leaf is its bare name. -/
def render : Expr → String
  | name text => text
  | binary op left right => s!"({left.render} {op.symbol} {right.render})"

end Expr

end PlanarArea
