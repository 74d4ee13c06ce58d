import PlanarArea.Region.Basic
import PlanarArea.Settings

/-!
Points along the boundary of a region, at equal distances, and the hull that covers several
regions.
-/
namespace PlanarArea.Region

variable {α : Type} [Scalar α]

/-- A piece of boundary with its length. -/
structure Stretch (α : Type) where
  start : Point α
  stop : Point α
  length : α

/-- The exterior edges of positive length, polygon after polygon. -/
def stretches (r : Region α) : List (Stretch α) :=
  r.polygons.flatMap fun p => (Ring.edges p.exterior).filterMap fun (a, b) =>
    let length := (b - a).norm
    if 0 < length then some ⟨a, b, length⟩ else none

/-- The stretch in which the arc length `target` falls, with the length walked before it. The last
stretch takes what lies beyond the end. -/
def locate (target walked : α) (s : Stretch α) : List (Stretch α) → α × Stretch α × List (Stretch α)
  | [] => (walked, s, [])
  | next :: rest =>
    if walked + s.length < target then locate target (walked + s.length) next rest
    else (walked, s, next :: rest)

/-- The point of a stretch at the arc length `target`, `walked` lying before the stretch. -/
def Stretch.at (s : Stretch α) (target walked : α) : Point α :=
  s.start + (s.stop - s.start) * Scalar.clamp ((target - walked) / s.length) 0 1

/-- The points at ascending arc lengths. -/
def walk (walked : α) (s : Stretch α) (rest : List (Stretch α)) : List α → List (Point α)
  | [] => []
  | target :: targets =>
    let (walked, s, rest) := locate target walked s rest
    s.at target walked :: walk walked s rest targets

/-- `n` points at equal arc lengths along the exteriors. -/
def sampleBoundary (r : Region α) (n : Nat) : List (Point α) :=
  match r.stretches with
  | [] => []
  | s :: rest =>
    let total := Scalar.sum ((s :: rest).map Stretch.length)
    if total ≤ 0 then []
    else
      let step := total / Scalar.ofNat n
      walk 0 s rest ((List.range n).map fun i => step * Scalar.ofNat i)

/-- One region that covers several: the hull of points of their boundaries. -/
def merge? (settings : Settings α) : List (Region α) → Option (Region α)
  | [] => none
  | [r] => some r
  | rs => ofHull? (rs.flatMap fun r => r.sampleBoundary settings.hullSamples)

end PlanarArea.Region
