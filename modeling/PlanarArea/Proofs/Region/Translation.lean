import PlanarArea.Proofs.Plane.Translation
import PlanarArea.Proofs.Region.Corners

/-!
# Moving regions

A region that is built from moved points is the region built from the points, moved. The orientation
of a ring is read off a sum about the origin, in which the vector cancels along the edges;
everything else is a matter of differences.
-/
namespace PlanarArea

namespace Ring

/-- The edges of a ring of images. -/
theorem edges_map {α β : Type} (f : Point α → Point β) (ring : Ring α) :
    edges (ring.map f) = ring.edges.map (Prod.map f f) := by
  rw [edges, edges, ← List.map_tail, ← List.map_take, ← List.map_append, List.zip_map]

variable {K : Type} [CommRing K] [Scalar K] [Scalar.Exact K] (v : Point K)

/-- The products of the vector with the corners cancel along the edges. -/
theorem sum_edges_move (ring : Ring K) :
    ((edges (ring.map (· + v))).map fun e => e.1.x * e.2.y - e.2.x * e.1.y).sum =
      (ring.edges.map fun e => e.1.x * e.2.y - e.2.x * e.1.y).sum := by
  have hcancel := sum_edges_sub (fun z => v.x * z.y - v.y * z.x) ring
  rw [edges_map, List.map_map]
  have hsplit : (ring.edges.map ((fun e => e.1.x * e.2.y - e.2.x * e.1.y) ∘
      Prod.map (· + v) (· + v))).sum =
      (ring.edges.map fun e => (e.1.x * e.2.y - e.2.x * e.1.y) +
        ((v.x * e.2.y - v.y * e.2.x) - (v.x * e.1.y - v.y * e.1.x))).sum := by
    congr 1
    apply List.map_congr_left
    intro e _
    simp only [Function.comp, Prod.map, Point.add_x, Point.add_y, Scalar.exact_add]
    ring
  rw [hsplit, List.sum_map_add, hcancel, add_zero]

theorem signedArea_move (ring : Ring K) : signedArea (ring.map (· + v)) = signedArea ring := by
  simp only [signedArea, List.length_map, Scalar.exact_sum, Scalar.exact_sub, Scalar.exact_mul,
    sum_edges_move]

theorem area_move (ring : Ring K) : area (ring.map (· + v)) = area ring := by
  cases ring with
  | nil => rfl
  | cons base rest =>
    have hedges := edges_map (· + v) (base :: rest)
    rw [List.map_cons] at hedges
    simp only [List.map_cons, area, hedges, List.map_map]
    congr 3
    apply List.map_congr_left
    intro e _
    simp only [Function.comp, Prod.map, Point.add_sub_add]

theorem openSeam_move (ring : Ring K) :
    openSeam (ring.map (· + v)) = (openSeam ring).map (· + v) := by
  cases ring with
  | nil => rfl
  | cons first rest =>
    have hnear : Point.near (first + v) ∘ (· + v) = Point.near first :=
      funext fun p => Point.near_move v first p
    simp only [List.map_cons, openSeam, ← List.map_reverse, List.dropWhile_map, hnear]

theorem ofPoints?_move (ps : List (Point K)) :
    ofPoints? (ps.map (· + v)) = (ofPoints? ps).map (List.map (· + v)) := by
  have hfinite : ∀ qs : List (Point K), qs.all Point.isFinite = true := by simp
  simp only [ofPoints?, if_pos (hfinite _), Point.spaced_move, openSeam_move, List.length_map,
    signedArea_move]
  split
  · rfl
  · split
    · simp only [Option.map_some, List.map_reverse]
    · rfl

end Ring

/-- The polygon with every corner moved. -/
def Polygon.move {α : Type} [Scalar α] (v : Point α) (p : Polygon α) : Polygon α :=
  ⟨p.exterior.map (· + v), p.holes.map (List.map (· + v))⟩

/-- The region with every corner moved. -/
def Region.move {α : Type} [Scalar α] (v : Point α) (r : Region α) : Region α :=
  ⟨r.polygons.map (Polygon.move v)⟩

theorem Region.components_move {α : Type} [Scalar α] (v : Point α) (r : Region α) :
    (r.move v).components = r.components := by
  simp only [components, move, List.length_map]

variable {K : Type} [CommRing K] [Scalar K] [Scalar.Exact K] (v : Point K)

theorem Polygon.area_move (p : Polygon K) : (p.move v).area = p.area := by
  simp only [area, move, List.foldl_map, Ring.area_move]

namespace Region

theorem area_move (r : Region K) : (r.move v).area = r.area := by
  simp only [area, move, List.foldl_map, Polygon.area_move]

@[simp] theorem isEmpty_move (r : Region K) : (r.move v).isEmpty = r.isEmpty := by
  simp only [isEmpty, area_move]
  simp only [move, List.isEmpty_map]

theorem ofPoints?_move (ps : List (Point K)) :
    ofPoints? (ps.map (· + v)) = (ofPoints? ps).map (move v) := by
  simp only [ofPoints?, Ring.ofPoints?_move, Option.map_map]
  rfl

theorem ofEllipse?_move (center : Point K) (rx ry rotation : K) (samples : Nat) :
    ofEllipse? (center + v) rx ry rotation samples =
      (ofEllipse? center rx ry rotation samples).map (move v) := by
  simp only [ofEllipse?]
  split
  · rw [← ofPoints?_move, List.map_map]
    congr 1
    apply List.map_congr_left
    intro k _
    apply Point.eq_of_coords
    · simp only [Function.comp, Point.add_x, Scalar.exact_add, Scalar.exact_sub]
      ring
    · simp only [Function.comp, Point.add_y, Scalar.exact_add]
      ring
  · rfl

theorem ofCircle?_move (center : Point K) (radius : K) (samples : Nat) :
    ofCircle? (center + v) radius samples = (ofCircle? center radius samples).map (move v) :=
  ofEllipse?_move v center radius radius _ samples

theorem ofHalfPlane?_move (p q : Point K) (extent : K) :
    ofHalfPlane? (p + v) (q + v) extent = (ofHalfPlane? p q extent).map (move v) := by
  simp only [ofHalfPlane?, Point.add_sub_add]
  split
  · simp only [← ofPoints?_move, List.map_cons, List.map_nil, Point.move_sub, Point.move_add]
  · rfl

end Region

end PlanarArea
