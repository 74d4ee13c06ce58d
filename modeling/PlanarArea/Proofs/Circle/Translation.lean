import PlanarArea.Circle.Cut
import PlanarArea.Proofs.Region.Translation

/-!
# Moving circles and lines

A line meets a moved circle in the moved points and at the same angles, so that the same crossings
lie on an arc and the same stretch of it is cut off.
-/
namespace PlanarArea

/-- The hit moved with the line and the circle. -/
def Hit.move {α : Type} [Scalar α] (v : Point α) (h : Hit α) : Hit α :=
  ⟨h.point + v, h.angle⟩

def Arc.move {α : Type} [Scalar α] (v : Point α) (arc : Arc α) : Arc α :=
  ⟨arc.center + v, arc.radius, arc.start, arc.sweep⟩

variable {K : Type} [CommRing K] [Scalar K] [Scalar.Exact K] (v : Point K)

theorem Hit.ofLine_move (settings : Settings K) (p q center : Point K) (radius : K) :
    ofLine settings (p + v) (q + v) (center + v) radius =
      (ofLine settings p q center radius).map (move v) := by
  simp only [ofLine, Point.add_sub_add]
  split
  · rfl
  · split
    · rfl
    · rw [List.map_map]
      apply List.map_congr_left
      intro sign _
      rw [Function.comp, move, Point.move_add, Angle.about_move]

namespace Arc

section Move

variable {α : Type} [Scalar α] (v : Point α) (arc : Arc α)

@[simp] theorem center_move : (arc.move v).center = arc.center + v := rfl
@[simp] theorem radius_move : (arc.move v).radius = arc.radius := rfl
@[simp] theorem sweep_move : (arc.move v).sweep = arc.sweep := rfl

/-- Which angles lie on an arc does not depend on where its circle lies. -/
@[simp] theorem contains_move (angle slack : α) :
    (arc.move v).contains angle slack = arc.contains angle slack := rfl

theorem arcBetween_move (first second : α) :
    Cut.arcBetween (arc.move v) first second = (Cut.arcBetween arc first second).move v := rfl

end Move

theorem ofEndpoints_move (center : Point K) (radius : K) (p q : Point K) (major : Bool) :
    ofEndpoints (center + v) radius (p + v) (q + v) major =
      (ofEndpoints center radius p q major).move v := by
  simp only [ofEndpoints, Angle.about_move]
  rfl

theorem sample_move (arc : Arc K) (intervals : Nat) :
    (arc.move v).sample intervals = (arc.sample intervals).map (· + v) :=
  Angle.sampleSweep_move v arc.center arc.radius arc.start arc.sweep intervals

theorem region_move (settings : Settings K) (arc : Arc K) :
    (arc.move v).region settings = (arc.region settings).move v := by
  simp only [region, sweep_move, sample_move, Region.ofPoints?_move]
  cases Region.ofPoints? (arc.sample (settings.intervals arc.sweep settings.arcMinPoints)) with
  | none => rfl
  | some r => rfl

theorem cutRegion?_move (settings : Settings K) (arc : Arc K) :
    (arc.move v).cutRegion? settings = (arc.cutRegion? settings).map (Region.move v) := by
  simp only [cutRegion?, sweep_move, sample_move, Region.ofPoints?_move]

end Arc

namespace Cut

theorem circleArc_move (p q center : Point K) (radius start stop : K) :
    circleArc (p + v) (q + v) (center + v) radius start stop =
      (circleArc p q center radius start stop).move v := by
  simp only [circleArc, wantedSide, Angle.onCircle_move, Point.cross_move, Point.add_sub_add]
  rfl

theorem circle?_move (settings : Settings K) (center : Point K) (radius : K) (p q : Point K) :
    circle? settings (center + v) radius (p + v) (q + v) =
      (circle? settings center radius p q).map (Region.move v) := by
  simp only [circle?, Hit.ofLine_move]
  generalize Hit.ofLine settings p q center radius = hits
  match hits with
  | [] | [_] => rfl
  | first :: second :: _ =>
    simp only [List.map_cons, Hit.move, circleArc_move, Arc.cutRegion?_move]

/-- The crossings on a moved arc are the moved ones, as they have the same angles. -/
theorem arc?_move (settings : Settings K) (arc : Arc K) (p q : Point K) :
    arc? settings (arc.move v) (p + v) (q + v) =
      (arc? settings arc p q).map (Region.move v) := by
  have hfilter : ∀ hits : List (Hit K),
      (hits.map (Hit.move v)).filter (fun h => arc.contains h.angle settings.angleSlack) =
        (hits.filter fun h => arc.contains h.angle settings.angleSlack).map (Hit.move v) :=
    fun hits => List.filter_map
  simp only [arc?, Arc.center_move, Arc.radius_move, Arc.contains_move, Hit.ofLine_move, hfilter]
  generalize (Hit.ofLine settings p q arc.center arc.radius).filter
    (fun h => arc.contains h.angle settings.angleSlack) = crossings
  match crossings with
  | [] | [_] => rfl
  | first :: second :: _ =>
    simp only [List.map_cons, Hit.move, Arc.arcBetween_move, Arc.cutRegion?_move]

end Cut

end PlanarArea
