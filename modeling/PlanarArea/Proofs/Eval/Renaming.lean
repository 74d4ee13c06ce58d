import PlanarArea.Overlay.Clip
import PlanarArea.Proofs.Eval.Faults
import PlanarArea.Proofs.Eval.Simulation

/-!
# New names for shapes

A name is looked up, kept with the shape and told in a fault, and nothing is computed from it. So a
tree under new names, over any look-up that knows the same shapes by them, has the same value with
the names replaced, or the same fault about the new name. Two names may become one. Shapes that the
tree does not name have no influence.
-/
namespace PlanarArea

variable (ρ : String → String)

/-- The same fault about the new name. -/
def ShapeError.rename : ShapeError → ShapeError
  | unknown name => unknown (ρ name)
  | unconvertible name className => unconvertible (ρ name) className
  | degenerate name defect => degenerate (ρ name) defect

theorem ShapeError.rename_id : ShapeError.rename id = id := by
  funext e
  cases e <;> rfl

def Fault.rename : Fault → Fault
  | malformed error => malformed error
  | unresolved error => unresolved (error.rename ρ)

section Values

variable {α : Type}

def Tagged.rename (t : Tagged α) : Tagged α :=
  { t with name := ρ t.name }

/-- The value under new names; a region has none. -/
def Value.rename : Value α → Value α
  | shape t => shape (t.rename ρ)
  | derived region => derived region

theorem Value.rename_id : (Value.rename id : Value α → Value α) = id := by
  funext v
  cases v <;> rfl

/-- The outcome with the name in its fault replaced. -/
def Outcome.rename (o : Outcome α) : Outcome α :=
  { o with fault := o.fault.map (Fault.rename ρ) }

theorem map_id_mapError_id {ε β : Type} (x : Except ε β) : (x.map id).mapError id = x := by
  cases x with
  | error e => rfl
  | ok b => rfl

end Values

variable {α : Type} [Scalar α] {clip : Clipper α} {settings : Settings α}

namespace Tagged

/-- A shape is converted alike under every name. -/
theorem ofShape_rename (name : String) (shape : Shape α) :
    ofShape settings (ρ name) shape =
      ((ofShape settings name shape).map (rename ρ)).mapError (ShapeError.rename ρ) := by
  have hwrap : ∀ (kind : Shape.Kind) (defect : Defect) (found : Option (Region α)),
      (orDefect (ρ name) defect found).map
          (fun region => (⟨ρ name, kind, .resolved region, shape⟩ : Tagged α)) =
        (((orDefect name defect found).map
          fun region => (⟨name, kind, .resolved region, shape⟩ : Tagged α)).map
          (rename ρ)).mapError (ShapeError.rename ρ) := by
    intro kind defect found
    cases found with
    | none => rfl
    | some region => rfl
  cases shape with
  | circle center radius =>
    simp only [ofShape]
    split
    · exact hwrap .circle _ _
    · rfl
  | ellipse center rx ry rotation =>
    simp only [ofShape]
    split
    · exact hwrap .ellipse _ _
    · rfl
  | circleArc center radius start stop major =>
    simp only [ofShape]
    split
    · rfl
    · rfl
  | segment start stop => rfl
  | polygon vertices => exact hwrap .polygon _ _
  | unsupported className => rfl

theorem toRegion_rename (t : Tagged α) :
    (t.rename ρ).toRegion settings =
      ((t.toRegion settings).map id).mapError (ShapeError.rename ρ) := by
  simp only [toRegion, rename]
  cases t.slot with
  | resolved region => rfl
  | pending start stop =>
    simp only
    cases Region.ofHalfPlane? start stop settings.halfPlaneExtent with
    | none => rfl
    | some half => rfl

/-- A cut reads slots, kind and source, and a name only for its fault. -/
theorem cutAlong_rename (segment shape : Tagged α) :
    cutAlong clip settings (segment.rename ρ) (shape.rename ρ) =
      ((cutAlong clip settings segment shape).map (Option.map id)).mapError
        (ShapeError.rename ρ) := by
  simp only [cutAlong, toRegion_rename]
  simp only [rename]
  split
  · split
    · rfl
    · rfl
    · cases segment.toRegion settings with
      | error e => rfl
      | ok half => rfl
    · cases segment.toRegion settings with
      | error e => rfl
      | ok half => rfl
    · rfl
  · rfl

end Tagged

/-- New names commute with what evaluations do. -/
def Simulation.ofNames (clip : Clipper α) (settings : Settings α) : Simulation clip settings where
  tagged := Tagged.rename ρ
  region := id
  fault := ShapeError.rename ρ
  kind_tagged _ := rfl
  isPending_tagged _ := rfl
  isEmpty_tagged _ := rfl
  isEmpty_region _ := rfl
  region_empty := rfl
  combine_region _ _ _ := rfl
  toRegion_tagged := Tagged.toRegion_rename ρ
  cutAlong_tagged := Tagged.cutAlong_rename ρ

theorem Simulation.value_ofNames :
    (Simulation.ofNames ρ clip settings).value = Value.rename ρ := by
  funext v
  cases v <;> rfl

variable {resolver resolver' : Resolver α} {e : Expr}

/-- A leaf under its new name, over a look-up that knows the same shape by it. -/
theorem Value.ofExpr_name_rename {n : String} (h : resolver' (ρ n) = resolver n) :
    ofExpr clip settings resolver' (.name (ρ n)) =
      ((ofExpr clip settings resolver (.name n)).map (rename ρ)).mapError
        (ShapeError.rename ρ) := by
  simp only [ofExpr, Resolver.resolve, h]
  cases resolver n with
  | none => rfl
  | some source =>
    simp only [Tagged.ofShape_rename]
    cases Tagged.ofShape settings n source with
    | error e => rfl
    | ok t => rfl

variable (clip settings) in
theorem Simulation.leaf_ofNames (h : ∀ n ∈ e.names, resolver' (ρ n) = resolver n) :
    ∀ n ∈ e.names, Value.ofExpr clip settings resolver' (.name (ρ n)) =
      (ofNames ρ clip settings).result (ofNames ρ clip settings).value
        (Value.ofExpr clip settings resolver (.name n)) := by
  intro n hn
  rw [value_ofNames]
  exact Value.ofExpr_name_rename ρ (h n hn)

variable (clip settings) in
/-- A tree under new names. -/
theorem Value.ofExpr_rename (h : ∀ n ∈ e.names, resolver' (ρ n) = resolver n) :
    ofExpr clip settings resolver' (e.rename ρ) =
      ((ofExpr clip settings resolver e).map (rename ρ)).mapError (ShapeError.rename ρ) := by
  have hsim := (Simulation.ofNames ρ clip settings).ofExpr_rename
    (Simulation.leaf_ofNames ρ clip settings h)
  rwa [Simulation.value_ofNames] at hsim

namespace Outcome

variable (clip settings) in
theorem regionOfExpr_rename (h : ∀ n ∈ e.names, resolver' (ρ n) = resolver n) :
    regionOfExpr clip settings resolver' (e.rename ρ) =
      (regionOfExpr clip settings resolver e).mapError (ShapeError.rename ρ) := by
  rw [(Simulation.ofNames ρ clip settings).regionOfExpr_rename, Simulation.result]
  · cases regionOfExpr clip settings resolver e with
    | error err => rfl
    | ok region => rfl
  · exact Simulation.leaf_ofNames ρ clip settings h

/-- The outcome of a tree whose region is the same up to the name in its fault. -/
theorem ofExpr_of_regionOfExpr {e' : Expr}
    (h : regionOfExpr clip settings resolver' e' =
      (regionOfExpr clip settings resolver e).mapError (ShapeError.rename ρ)) :
    ofExpr clip settings resolver' e' = (ofExpr clip settings resolver e).rename ρ := by
  simp only [ofExpr, h]
  cases regionOfExpr clip settings resolver e with
  | error err => rfl
  | ok region => rfl

/-- Let a look-up know the same shape by the new name of each leaf as another one by the old name.
Then the tree under new names has the value, the region and the outcome that it had, up to the name
that a value keeps or a fault tells. Two look-ups that agree on the names of a tree make no
difference to it. -/
theorem names_carry_no_geometry (clip : Clipper α) (settings : Settings α)
    (resolver resolver' : Resolver α) (e : Expr) :
    (∀ ρ : String → String, (∀ n ∈ e.names, resolver' (ρ n) = resolver n) →
      Value.ofExpr clip settings resolver' (e.rename ρ) =
        ((Value.ofExpr clip settings resolver e).map (Value.rename ρ)).mapError
          (ShapeError.rename ρ) ∧
      regionOfExpr clip settings resolver' (e.rename ρ) =
        (regionOfExpr clip settings resolver e).mapError (ShapeError.rename ρ) ∧
      ofExpr clip settings resolver' (e.rename ρ) =
        (ofExpr clip settings resolver e).rename ρ) ∧
    ((∀ n ∈ e.names, resolver' n = resolver n) →
      Value.ofExpr clip settings resolver' e = Value.ofExpr clip settings resolver e ∧
      regionOfExpr clip settings resolver' e = regionOfExpr clip settings resolver e ∧
      ofExpr clip settings resolver' e = ofExpr clip settings resolver e) := by
  constructor
  · intro ρ h
    have hregion := regionOfExpr_rename ρ clip settings h
    exact ⟨Value.ofExpr_rename ρ clip settings h, hregion, ofExpr_of_regionOfExpr ρ hregion⟩
  · -- Every name is its own new name.
    intro h
    have hvalue := Value.ofExpr_rename id clip settings h
    rw [Expr.rename_id, Value.rename_id, ShapeError.rename_id, map_id_mapError_id] at hvalue
    have hregion :
        regionOfExpr clip settings resolver' e = regionOfExpr clip settings resolver e := by
      simp only [regionOfExpr, hvalue]
    refine ⟨hvalue, hregion, ?_⟩
    simp only [ofExpr, hregion]

/-- A circle of radius five. -/
def disc : Shape Float :=
  .circle ⟨0, 0⟩ 5

/-- In `A - B` two names of one shape become one name, by which a hash map knows the shape, and a
third shape of the scene is left out. -/
theorem names_carry_no_geometry_disc :
    let clip := Overlay.clipper
    let settings : Settings Float := Settings.default
    let scene := Scene.ofList [("A", disc), ("B", disc), ("Z", .segment ⟨0, 0⟩ ⟨1, 0⟩)]
    let smaller := Scene.ofList [("A", disc), ("B", disc)]
    let table : Std.HashMap String (Shape Float) := (∅ : Std.HashMap _ _).insert "C" disc
    let e := Expr.binary .diff (.name "A") (.name "B")
    (∀ n ∈ e.names, table[(fun _ : String => "C") n]? = scene.resolver n) ∧
      ofExpr clip settings (fun n => table[n]?) (.binary .diff (.name "C") (.name "C")) =
        (ofExpr clip settings scene.resolver e).rename (fun _ => "C") ∧
      (∀ n ∈ e.names, smaller.resolver n = scene.resolver n) ∧
      ofExpr clip settings smaller.resolver e = ofExpr clip settings scene.resolver e := by
  intro clip settings scene smaller table e
  have htable : ∀ n ∈ e.names, table[(fun _ : String => "C") n]? = scene.resolver n := by
    simp [e, Expr.names, table, scene, Scene.resolver, Scene.ofList, Scene.get?_insert]
  have hsmaller : ∀ n ∈ e.names, smaller.resolver n = scene.resolver n := by
    simp [e, Expr.names, smaller, scene, Scene.resolver, Scene.ofList, Scene.get?_insert]
  exact ⟨htable,
    ((names_carry_no_geometry clip settings scene.resolver (fun n => table[n]?) e).1 _ htable).2.2,
    hsmaller,
    ((names_carry_no_geometry clip settings scene.resolver smaller.resolver e).2 hsmaller).2.2⟩

end Outcome

end PlanarArea
