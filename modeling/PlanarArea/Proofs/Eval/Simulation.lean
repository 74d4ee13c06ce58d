import PlanarArea.Eval.Outcome

/-!
# Evaluations side by side

A change of the leaves is often carried through an evaluation to its result: the values are what
they were, changed, and so is the fault. It is enough that the change commutes with what an
evaluation does to single shapes and regions. Each operator then takes the same way with the changed
operands, and so does a whole tree.
-/
namespace PlanarArea

/-- The tree with every name replaced. -/
def Expr.rename (ρ : String → String) : Expr → Expr
  | name text => name (ρ text)
  | binary op left right => binary op (left.rename ρ) (right.rename ρ)

theorem Expr.rename_id (e : Expr) : e.rename id = e := by
  induction e with
  | name text => rfl
  | binary op left right hl hr => rw [rename, hl, hr]

/-- A change of shapes, regions and faults that commutes with what evaluations do to them. -/
structure Simulation {α : Type} [Scalar α] (clip : Clipper α) (settings : Settings α) where
  tagged : Tagged α → Tagged α
  region : Region α → Region α
  fault : ShapeError → ShapeError
  kind_tagged (t) : (tagged t).kind = t.kind
  isPending_tagged (t) : (tagged t).isPending = t.isPending
  isEmpty_tagged (t) : (Value.shape (tagged t)).isEmpty = (Value.shape t).isEmpty
  isEmpty_region (r) : (region r).isEmpty = r.isEmpty
  region_empty : region Region.empty = Region.empty
  combine_region (op r s) : clip.combine op (region r) (region s) = region (clip.combine op r s)
  toRegion_tagged (t) : (tagged t).toRegion settings =
    ((t.toRegion settings).map region).mapError fault
  cutAlong_tagged (t u) : Tagged.cutAlong clip settings (tagged t) (tagged u) =
    ((Tagged.cutAlong clip settings t u).map (Option.map region)).mapError fault

namespace Simulation

variable {α : Type} [Scalar α] {clip : Clipper α} {settings : Settings α}
variable (sim : Simulation clip settings)

def value : Value α → Value α
  | .shape t => .shape (sim.tagged t)
  | .derived r => .derived (sim.region r)

/-- What becomes of a result, where `f` changes what was found. -/
def result {β : Type} (f : β → β) (x : Except ShapeError β) : Except ShapeError β :=
  (x.map f).mapError sim.fault

variable (l r : Value α)

theorem isPending_value : (sim.value l).isPending = l.isPending := by
  cases l with
  | shape t => exact sim.isPending_tagged t
  | derived a => rfl

theorem isEmpty_value : (sim.value l).isEmpty = l.isEmpty := by
  cases l with
  | shape t => exact sim.isEmpty_tagged t
  | derived a => exact sim.isEmpty_region a

theorem toRegion_value :
    (sim.value l).toRegion settings = sim.result sim.region (l.toRegion settings) := by
  cases l with
  | shape t => exact sim.toRegion_tagged t
  | derived a => rfl

theorem combine_value (op : Op) :
    Value.combine clip settings op (sim.value l) (sim.value r) =
      sim.result sim.value (Value.combine clip settings op l r) := by
  simp only [Value.combine, toRegion_value]
  cases l.toRegion settings with
  | error e => rfl
  | ok a =>
    cases r.toRegion settings with
    | error e => rfl
    | ok b => exact congrArg (fun c => Except.ok (Value.derived c)) (sim.combine_region op a b)

/-- Which of two shapes is cut depends on their kinds. -/
theorem cut_tagged (t u : Tagged α) :
    Tagged.cut clip settings (sim.tagged t) (sim.tagged u) =
      sim.result (Option.map sim.region) (Tagged.cut clip settings t u) := by
  simp only [Tagged.cut, sim.kind_tagged]
  split
  · rfl
  · exact sim.cutAlong_tagged t u
  · exact sim.cutAlong_tagged u t
  · rfl

theorem cut_value :
    Value.cut clip settings (sim.value l) (sim.value r) =
      sim.result (Option.map sim.region) (Value.cut clip settings l r) := by
  cases l with
  | derived a => rfl
  | shape t =>
    cases r with
    | derived b => rfl
    | shape u => exact sim.cut_tagged t u

/-- An operator takes the same way with the changed operands. -/
theorem apply_value (op : Op) :
    Value.apply clip settings op (sim.value l) (sim.value r) =
      sim.result sim.value (Value.apply clip settings op l r) := by
  cases op with
  | inter =>
    simp only [Value.apply, cut_value, combine_value]
    cases Value.cut clip settings l r with
    | error e => rfl
    | ok found =>
      cases found with
      | none => rfl
      | some a => rfl
  | union | xor =>
    simp only [Value.apply, isPending_value, isEmpty_value, combine_value]
    split
    · rfl
    · split
      · rfl
      · rfl
  | diff =>
    simp only [Value.apply, isEmpty_value, combine_value]
    split
    · exact congrArg (fun c => Except.ok (Value.derived c)) sim.region_empty.symm
    · split
      · rfl
      · rfl

variable {ρ : String → String} {resolver resolver' : Resolver α} {e : Expr}

/-- A tree evaluates to what it was, changed, if each of its leaves does. -/
theorem ofExpr_rename
    (h : ∀ n ∈ e.names, Value.ofExpr clip settings resolver' (.name (ρ n)) =
      sim.result sim.value (Value.ofExpr clip settings resolver (.name n))) :
    Value.ofExpr clip settings resolver' (e.rename ρ) =
      sim.result sim.value (Value.ofExpr clip settings resolver e) := by
  induction e with
  | name text => exact h text (List.mem_singleton.mpr rfl)
  | binary op left right hl hr =>
    simp only [Expr.rename, Value.ofExpr, hl fun n hn => h n (List.mem_append_left _ hn),
      hr fun n hn => h n (List.mem_append_right _ hn)]
    cases Value.ofExpr clip settings resolver left with
    | error err => rfl
    | ok l =>
      cases Value.ofExpr clip settings resolver right with
      | error err => rfl
      | ok r => exact sim.apply_value l r op

theorem regionOfExpr_rename
    (h : ∀ n ∈ e.names, Value.ofExpr clip settings resolver' (.name (ρ n)) =
      sim.result sim.value (Value.ofExpr clip settings resolver (.name n))) :
    Outcome.regionOfExpr clip settings resolver' (e.rename ρ) =
      sim.result sim.region (Outcome.regionOfExpr clip settings resolver e) := by
  simp only [Outcome.regionOfExpr, sim.ofExpr_rename h]
  cases Value.ofExpr clip settings resolver e with
  | error err => rfl
  | ok v => exact sim.toRegion_value v

end Simulation

end PlanarArea
