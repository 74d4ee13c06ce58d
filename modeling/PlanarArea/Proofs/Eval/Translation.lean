import PlanarArea.Proofs.Circle.Translation
import PlanarArea.Proofs.Eval.Faults
import PlanarArea.Proofs.Eval.SetAlgebra
import PlanarArea.Proofs.Eval.Simulation

/-!
# Moving a scene

When every shape of a scene moves by one vector, an expression over it evaluates to what it was,
moved, or fails as it did. Two evaluations run side by side: each step of the one is the step of the
other, moved. No region changes its area on the way, so the area of an expression does not depend on
where the scene lies.
-/
namespace PlanarArea

section Move

variable {α : Type} [Scalar α]

/-- The shape with its center, end points and vertices moved. -/
def Shape.move (v : Point α) : Shape α → Shape α
  | circle center radius => circle (center + v) radius
  | ellipse center radiusX radiusY rotation => ellipse (center + v) radiusX radiusY rotation
  | circleArc center radius start stop major =>
    circleArc (center + v) radius (start + v) (stop + v) major
  | segment start stop => segment (start + v) (stop + v)
  | polygon vertices => polygon (vertices.map (· + v))
  | unsupported className => unsupported className

/-- Every name stands for the moved shape. -/
def Resolver.move (v : Point α) (resolver : Resolver α) : Resolver α :=
  fun name => (resolver name).map (Shape.move v)

def Slot.move (v : Point α) : Slot α → Slot α
  | pending start stop => pending (start + v) (stop + v)
  | resolved region => resolved (region.move v)

def Tagged.move (v : Point α) (t : Tagged α) : Tagged α :=
  ⟨t.name, t.kind, t.slot.move v, t.source.move v⟩

theorem Tagged.orDefect_move (v : Point α) (name : String) (defect : Defect)
    (found : Option (Region α)) : orDefect name defect (found.map (Region.move v)) =
      (orDefect name defect found).map (Region.move v) := by
  cases found with
  | none => rfl
  | some region => rfl

def Value.move (v : Point α) : Value α → Value α
  | shape t => shape (t.move v)
  | derived region => derived (region.move v)

theorem Value.isPending_move (v : Point α) (l : Value α) :
    (l.move v).isPending = l.isPending := by
  cases l with
  | derived region => rfl
  | shape t =>
    simp only [move, isPending, Tagged.isPending, Tagged.move]
    cases t.slot with
    | pending start stop => rfl
    | resolved region => rfl

/-- The outcome with its regions moved. -/
def Outcome.move (v : Point α) (o : Outcome α) : Outcome α :=
  { o with regions := o.regions.map (Region.move v), combined := o.combined.map (Region.move v) }

/-- Where two regions lie together does not matter to the clipper. -/
def Clipper.Moves (clip : Clipper α) (v : Point α) : Prop :=
  ∀ op r s, clip.combine op (r.move v) (s.move v) = (clip.combine op r s).move v

end Move

variable {K : Type} [CommRing K] [Scalar K] [Scalar.Exact K] {v : Point K}
variable {clip : Clipper K} {settings : Settings K}

theorem Shape.arc?_move (shape : Shape K) : (shape.move v).arc? = shape.arc?.map (Arc.move v) := by
  cases shape with
  | circleArc center radius start stop major =>
    exact congrArg some (Arc.ofEndpoints_move v center radius start stop major)
  | _ => rfl

namespace Tagged

/-- A moved shape is converted to the moved region, or has the same fault. -/
theorem ofShape_move (name : String) (shape : Shape K) :
    ofShape settings name (shape.move v) = (ofShape settings name shape).map (move v) := by
  -- Wrapping a moved region with the moved shape moves the wrapped one.
  have hwrap : ∀ (kind : Shape.Kind) (source : Shape K) (found : Except ShapeError (Region K)),
      (found.map (Region.move v)).map
          (fun region => (⟨name, kind, .resolved region, source.move v⟩ : Tagged K)) =
        (found.map fun region => (⟨name, kind, .resolved region, source⟩ : Tagged K)).map
          (move v) := by
    intro kind source found
    cases found with
    | error e => rfl
    | ok region => rfl
  cases shape with
  | circle center radius =>
    simp only [Shape.move, ofShape, Region.ofCircle?_move, orDefect_move]
    split
    · exact hwrap .circle (.circle center radius) _
    · rfl
  | ellipse center rx ry rotation =>
    simp only [Shape.move, ofShape, Region.ofEllipse?_move, orDefect_move]
    split
    · exact hwrap .ellipse (.ellipse center rx ry rotation) _
    · rfl
  | circleArc center radius start stop major =>
    simp only [Shape.move, ofShape, Arc.ofEndpoints_move, Arc.region_move]
    split
    · rfl
    · rfl
  | segment start stop => rfl
  | polygon vertices =>
    simp only [Shape.move, ofShape, Region.ofPoints?_move, orDefect_move]
    exact hwrap .polygon (.polygon vertices) _
  | unsupported className => rfl

theorem toRegion_move (t : Tagged K) : (t.move v).toRegion settings =
    ((t.toRegion settings).map (Region.move v)).mapError id := by
  obtain ⟨name, kind, slot, source⟩ := t
  cases slot with
  | resolved region => rfl
  | pending start stop =>
    simp only [toRegion, move, Slot.move, Region.ofHalfPlane?_move]
    cases Region.ofHalfPlane? start stop settings.halfPlaneExtent with
    | none => rfl
    | some half => rfl

theorem cutAlong_move (hclip : clip.Moves v) (segment shape : Tagged K) :
    cutAlong clip settings (segment.move v) (shape.move v) =
      ((cutAlong clip settings segment shape).map (Option.map (Region.move v))).mapError id := by
  obtain ⟨name, kind, slot, source⟩ := shape
  simp only [cutAlong, toRegion_move]
  cases hsegment : segment.slot with
  | resolved region =>
    simp only [move, hsegment, Slot.move, Except.map, Except.mapError, Option.map_none]
  | pending start stop =>
    simp only [move, hsegment, Slot.move]
    cases slot with
    | pending start' stop' => rfl
    | resolved whole =>
      cases kind with
      | circle =>
        cases source with
        | circle center radius =>
          simp only [Shape.move, Cut.circle?_move, Option.getD_map]
          rfl
        | _ => rfl
      | circleArc =>
        simp only [Shape.arc?_move]
        cases source.arc? with
        | none => rfl
        | some arc =>
          simp only [Option.map_some, Option.bind_some, Cut.arc?_move, Option.getD_map]
          rfl
      | polygon | ellipse =>
        -- Both are clipped by the moved half plane.
        cases segment.toRegion settings with
        | error e => rfl
        | ok half => exact congrArg (fun r => Except.ok (some r)) (hclip .inter whole half)
      | segment => rfl

end Tagged

/-- Moving commutes with what evaluations do. -/
def Simulation.ofMove (settings : Settings K) (hclip : clip.Moves v) :
    Simulation clip settings where
  tagged := Tagged.move v
  region := Region.move v
  fault := id
  kind_tagged _ := rfl
  isPending_tagged t := Value.isPending_move v (.shape t)
  isEmpty_tagged t := by
    simp only [Value.isEmpty, Tagged.move]
    cases t.slot with
    | pending start stop => rfl
    | resolved region => exact Region.isEmpty_move v region
  isEmpty_region := Region.isEmpty_move v
  region_empty := rfl
  combine_region := hclip
  toRegion_tagged t := t.toRegion_move
  cutAlong_tagged := Tagged.cutAlong_move hclip

theorem Simulation.value_ofMove (hclip : clip.Moves v) :
    (ofMove settings hclip).value = Value.move v := by
  funext l
  cases l <;> rfl

theorem Simulation.result_ofMove (hclip : clip.Moves v) {β : Type} (f : β → β) :
    (ofMove settings hclip).result f = Except.map f := by
  funext x
  cases x <;> rfl

variable (settings) in
/-- A leaf of a moved scene is the moved leaf. -/
theorem Simulation.leaf_ofMove (hclip : clip.Moves v) (resolver : Resolver K) (e : Expr) :
    ∀ n ∈ e.names, Value.ofExpr clip settings (resolver.move v) (.name (id n)) =
      (ofMove settings hclip).result (ofMove settings hclip).value
        (Value.ofExpr clip settings resolver (.name n)) := by
  intro n _
  rw [result_ofMove, value_ofMove]
  simp only [Value.ofExpr, Resolver.resolve, Resolver.move, id]
  cases resolver n with
  | none => rfl
  | some source =>
    simp only [Option.map_some, Tagged.ofShape_move]
    cases Tagged.ofShape settings n source with
    | error e => rfl
    | ok t => rfl

/-- A tree over a moved scene has the moved value, or the same fault. -/
theorem Value.ofExpr_move (hclip : clip.Moves v) (resolver : Resolver K) (e : Expr) :
    ofExpr clip settings (resolver.move v) e =
      (ofExpr clip settings resolver e).map (move v) := by
  have hsim := (Simulation.ofMove settings hclip).ofExpr_rename
    (Simulation.leaf_ofMove settings hclip resolver e)
  rwa [Expr.rename_id, Simulation.result_ofMove, Simulation.value_ofMove] at hsim

namespace Outcome

theorem regionOfExpr_move (hclip : clip.Moves v) (resolver : Resolver K) (e : Expr) :
    regionOfExpr clip settings (resolver.move v) e =
      (regionOfExpr clip settings resolver e).map (Region.move v) := by
  have hsim := (Simulation.ofMove settings hclip).regionOfExpr_rename
    (Simulation.leaf_ofMove settings hclip resolver e)
  rwa [Expr.rename_id, Simulation.result_ofMove] at hsim

theorem ofRegions_move (r : Region K) :
    ofRegions settings [r.move v] = (ofRegions settings [r]).move v := by
  cases hempty : r.isEmpty with
  | true => simp [ofRegions, hempty, Region.merge?, move]
  | false => simp [ofRegions, hempty, Region.merge?, move, Region.area_move]

theorem evaluate_move (hclip : clip.Moves v) (resolver : Resolver K) (text : String) :
    evaluate clip settings (resolver.move v) text =
      (evaluate clip settings resolver text).move v := by
  simp only [evaluate]
  cases Expr.parse text settings.maxDepth with
  | error err => rfl
  | ok tree =>
    simp only [regionOfExpr_move hclip]
    cases regionOfExpr clip settings resolver tree with
    | error err => rfl
    | ok region => exact ofRegions_move region

/-- Let the clipper not mind where regions lie. Then a tree over a moved scene has the fault that it
has over the scene itself, or the region, moved, which has the same area, as many pieces and is
empty if it was. So has the value of the tree, and so has the outcome of every text. -/
theorem moved_scene (hclip : clip.Moves v) (settings : Settings K) (resolver : Resolver K)
    (e : Expr) :
    (∀ err, regionOfExpr clip settings resolver e = .error err →
      regionOfExpr clip settings (resolver.move v) e = .error err) ∧
    (∀ region, regionOfExpr clip settings resolver e = .ok region →
      regionOfExpr clip settings (resolver.move v) e = .ok (region.move v) ∧
      (region.move v).area = region.area ∧
      (region.move v).components = region.components ∧
      (region.move v).isEmpty = region.isEmpty) ∧
    Value.ofExpr clip settings (resolver.move v) e =
      (Value.ofExpr clip settings resolver e).map (Value.move v) ∧
    ∀ text, evaluate clip settings (resolver.move v) text =
      (evaluate clip settings resolver text).move v := by
  refine ⟨?_, ?_, Value.ofExpr_move hclip resolver e, evaluate_move hclip resolver⟩
  · intro err herr
    rw [regionOfExpr_move hclip, herr]
    rfl
  · intro region hregion
    refine ⟨?_, region.area_move v, region.components_move v, region.isEmpty_move v⟩
    rw [regionOfExpr_move hclip, hregion]
    rfl

end Outcome

/-- Different polygons stay different when they move. -/
theorem Polygon.move_injective (v : Point ℝ) : Function.Injective (Polygon.move v) := by
  have hpoint : Function.Injective fun p : Point ℝ => p + v := by
    intro p q h
    have hx : p.x + v.x = q.x + v.x := congrArg Point.x h
    have hy : p.y + v.y = q.y + v.y := congrArg Point.y h
    exact Point.eq_of_coords (add_right_cancel hx) (add_right_cancel hy)
  have hring := List.map_injective_iff.mpr hpoint
  intro p q h
  cases p
  cases q
  simp only [Polygon.move, Polygon.mk.injEq] at h
  rw [hring h.1, List.map_injective_iff.mpr hring h.2]

theorem Clipper.ofPieces_moves (v : Point ℝ) : ofPieces.Moves v := by
  intro op r s
  simp only [ofPieces, Region.move, ← List.map_append,
    List.dedup_map_of_injective (Polygon.move_injective v), List.filter_map]
  congr 2
  apply List.filter_congr
  intro p _
  simp only [Function.comp, List.mem_map_of_injective (Polygon.move_injective v)]

namespace Outcome

/-- Two triangles apart are as large together wherever they lie. -/
theorem moved_scene_triangles :
    let v : Point ℝ := ⟨2, -1⟩
    let settings : Settings ℝ := Settings.default
    let e := Expr.binary .union (.name "A") (.name "B")
    Clipper.ofPieces.Moves v ∧
      ∃ region, regionOfExpr Clipper.ofPieces settings triangles e = .ok region ∧
        regionOfExpr Clipper.ofPieces settings (triangles.move v) e = .ok (region.move v) ∧
        (region.move v).area = region.area ∧
        (region.move v).components = region.components ∧
        (region.move v).isEmpty = region.isEmpty := by
  intro v settings e
  have hmoves := Clipper.ofPieces_moves v
  obtain ⟨region, hregion⟩ : ∃ region,
      regionOfExpr Clipper.ofPieces settings triangles e = .ok region := by
    apply exists_regionOfExpr
    · exact fun n _ => ⟨_, _, rfl, ofShape_triangleAt settings n _⟩
    · exact fun n _ start stop h => nomatch h
  exact ⟨hmoves, region, hregion, (moved_scene hmoves settings triangles e).2.1 region hregion⟩

end Outcome

end PlanarArea
