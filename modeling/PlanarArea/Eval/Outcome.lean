import PlanarArea.Eval.Value
import PlanarArea.Json.Basic
import PlanarArea.Region.Boundary

/-!
The outcome of evaluating the text of an expression, and the report of it.
-/
namespace PlanarArea

/-- What an evaluation gives. After a fault there is no region and the area is zero. -/
structure Outcome (α : Type) where
  area : α
  /-- The regions of the result that are not empty. -/
  regions : List (Region α)
  /-- One region for all of them. -/
  combined : Option (Region α)
  fault : Option Fault

namespace Outcome

variable {α : Type} [Scalar α]

def isOk (o : Outcome α) : Bool :=
  o.fault.isNone

def ofFault (fault : Fault) : Outcome α :=
  ⟨0, [], none, some fault⟩

/-- The outcome with these regions, empty ones left out. -/
def ofRegions (settings : Settings α) (regions : List (Region α)) : Outcome α :=
  let kept := regions.filter fun r => !r.isEmpty
  let combined := Region.merge? settings kept
  let area := match combined with
    | some r => Scalar.max r.area 0
    | none => 0
  ⟨area, kept, combined, none⟩

/-- The region that a tree stands for. -/
def regionOfExpr (clip : Clipper α) (settings : Settings α) (resolver : Resolver α) (e : Expr) :
    Except ShapeError (Region α) :=
  match Value.ofExpr clip settings resolver e with
  | .error e => .error e
  | .ok v => v.toRegion settings

/-- Evaluates the text of an expression; whatever goes wrong is part of the outcome. -/
def evaluate (clip : Clipper α) (settings : Settings α) (resolver : Resolver α) (text : String) :
    Outcome α :=
  match Expr.parse text settings.maxDepth with
  | .error e => ofFault (.malformed e)
  | .ok tree =>
    match regionOfExpr clip settings resolver tree with
    | .error e => ofFault (.unresolved e)
    | .ok region => ofRegions settings [region]

end Outcome

/-- What is told of an outcome: the area, or the text of the fault. -/
inductive Report (α : Type) where
  | area (value : α)
  | error (text : String)
deriving DecidableEq, Repr

def Outcome.report {α : Type} (o : Outcome α) : Report α :=
  match o.fault with
  | some fault => .error fault.message
  | none => .area o.area

namespace Report

def toJson : Report Float → Json
  | area value => .obj [("type", .str "area"), ("value", .ofFloat value)]
  | error text => .obj [("type", .str "error"), ("value", .str text)]

/-- Reads a report back. -/
def ofJson? (j : Json) : Option (Report Float) := do
  let value ← j.get? "value"
  match (← j.get? "type").str? with
  | some "area" => return area (← value.float?)
  | some "error" => return error (← value.str?)
  | _ => none

end Report

end PlanarArea
