import PlanarArea.Eval.Tagged
import PlanarArea.Proofs.Plane.Doubles
import PlanarArea.Proofs.Region.Spelling

/-!
# Boundaries through one or two points

Fewer than three different points do not bound anything, but a point is compared only with the last
one kept, and at the end with the first one. So a boundary that goes to and fro between two points
keeps a corner for each time it leads from one to the other. It is rejected exactly if, closed, it
does so fewer than three times.
-/
namespace PlanarArea

namespace Point

variable {α : Type} [Scalar α]

/-- Among any three of the points two have the same coordinates. -/
def Few (ps : List (Point α)) : Prop :=
  ∀ p ∈ ps, ∀ q ∈ ps, ∀ r ∈ ps, same p q = true ∨ same q r = true ∨ same p r = true

instance (ps : List (Point α)) : Decidable (Few ps) :=
  inferInstanceAs (Decidable (∀ p ∈ ps, ∀ q ∈ ps, ∀ r ∈ ps, _))

theorem near_of_same {p q : Point Float} (hq : q.isFinite = true) (h : same p q = true) :
    near p q = true :=
  (near_congr_of_same h q).trans (near_self_of_isFinite hq)

end Point

namespace Ring

variable {ps : List (Point Float)}

/-- Of few points one is near all those that another one is near, if it is near that one. -/
theorem clustered_of_few (hfinite : ps.all Point.isFinite = true) (hfew : Point.Few ps) :
    Clustered ps where
  self p hp := Point.near_self_of_isFinite (List.all_eq_true.mp hfinite p hp)
  comm p _ q _ := Point.near_comm_float p q
  congr p hp q hq hnear r hr := by
    have hr' := List.all_eq_true.mp hfinite r hr
    obtain hpq | hqr | hpr := hfew p hp q hq r hr
    · exact Point.near_congr_of_same hpq r
    · have hpr : Point.near p r = true := by
        rw [Point.near_comm_float, ← Point.near_congr_of_same hqr p, Point.near_comm_float, hnear]
      rw [hpr, Point.near_of_same hr' hqr]
    · have hqr : Point.near q r = true := by
        rw [Point.near_comm_float, ← Point.near_congr_of_same hpr q, hnear]
      rw [hqr, Point.near_of_same hr' hpr]

/-- Three points of which two are the same have an edge that does not lead away. -/
theorem hops_lt_of_length_le (hfinite : ps.all Point.isFinite = true) (hfew : Point.Few ps)
    (hlen : ps.length ≤ 3) : hops ps < 3 := by
  obtain hlt | heq := Nat.lt_or_eq_of_le hlen
  · exact (hops_le_length ps).trans_lt hlt
  · obtain ⟨p, q, r, rfl⟩ := List.length_eq_three.mp heq
    obtain ⟨-, hq, hr⟩ : p.isFinite = true ∧ q.isFinite = true ∧ r.isFinite = true := by
      simpa using hfinite
    have hhops : hops [p, q, r] = hop (p, q) + (hop (q, r) + hop (r, p)) := rfl
    have hpq := hop_le_one (p, q)
    have hqr := hop_le_one (q, r)
    have hrp := hop_le_one (r, p)
    obtain hsame | hsame | hsame := hfew p (by simp) q (by simp) r (by simp)
    · have hzero : hop (p, q) = 0 := hop_of_near (Point.near_of_same hq hsame)
      omega
    · have hzero : hop (q, r) = 0 := hop_of_near (Point.near_of_same hr hsame)
      omega
    · have hzero : hop (r, p) = 0 :=
        hop_of_near ((Point.near_comm_float r p).trans (Point.near_of_same hr hsame))
      omega

end Ring

namespace Region

/-- Finite points of which fewer than three are different make no region, and a polygon through them
is degenerate, exactly if their closed boundary leads from a point to one that is not near fewer
than three times. A list of at most three such points never makes a region. -/
theorem ofPoints?_few_iff {ps : List (Point Float)} (hfinite : ps.all Point.isFinite = true)
    (hfew : Point.Few ps) :
    (ofPoints? ps = none ↔ Ring.hops ps < 3) ∧
      (∀ settings name, Tagged.ofShape settings name (.polygon ps) =
        .error (.degenerate name .fewVertices) ↔ Ring.hops ps < 3) ∧
      (ps.length ≤ 3 → ofPoints? ps = none) := by
  have hnone : ofPoints? ps = none ↔ Ring.hops ps < 3 := by
    rw [ofPoints?, Option.map_eq_none_iff]
    exact Ring.ofPoints?_eq_none_iff hfinite (Ring.clustered_of_few hfinite hfew)
  refine ⟨hnone, fun settings name => ?_, fun hlen => ?_⟩
  · rw [← hnone, Tagged.ofShape]
    cases ofPoints? ps with
    | none => exact iff_of_true rfl rfl
    | some region =>
      refine iff_of_false (fun h => ?_) (Option.some_ne_none _)
      cases h
  · exact hnone.mpr (Ring.hops_lt_of_length_le hfinite hfew hlen)

/-- Two points, each written twice next to itself and the first one once more at the end, with
either zero. -/
theorem ofPoints?_few_doubled :
    let ps : List (Point Float) := [⟨0, 0⟩, ⟨-0.0, 0⟩, ⟨1, 0⟩, ⟨1, 0⟩, ⟨0, 0⟩]
    ps.all Point.isFinite = true ∧ Point.Few ps ∧ Ring.hops ps < 3 ∧ ofPoints? ps = none ∧
      Tagged.ofShape Settings.default "T" (.polygon ps) =
        .error (.degenerate "T" .fewVertices) := by
  intro ps
  have hfinite : ps.all Point.isFinite = true := by decide +kernel
  have hfew : Point.Few ps := by decide +kernel
  have hhops : Ring.hops ps < 3 := by decide +kernel
  obtain ⟨hnone, hdegenerate, -⟩ := ofPoints?_few_iff hfinite hfew
  exact ⟨hfinite, hfew, hhops, hnone.mpr hhops, (hdegenerate _ _).mpr hhops⟩

/-- Two points taken in turn, twice each, are four corners. -/
theorem ofPoints?_alternating :
    let ps : List (Point Float) := [⟨0, 0⟩, ⟨1, 0⟩, ⟨0, 0⟩, ⟨1, 0⟩]
    ps.all Point.isFinite = true ∧ Point.Few ps ∧ ofPoints? ps = some (ofRing ps) ∧
      Tagged.ofShape Settings.default "T" (.polygon ps) =
        .ok ⟨"T", .polygon, .resolved (ofRing ps), .polygon ps⟩ := by
  intro ps
  have hregion : ofPoints? ps = some (ofRing ps) := by decide +kernel
  refine ⟨by decide +kernel, by decide +kernel, hregion, ?_⟩
  rw [Tagged.ofShape, hregion]
  rfl

end Region

end PlanarArea
