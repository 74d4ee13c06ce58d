import PlanarArea.Proofs.Plane.Exact

/-!
# Corners of regions

What becomes of the corners that a region is made from, and the area of a region as a sum over its
pieces.
-/
namespace PlanarArea

namespace Point

theorem near_eq_false {p q : Point ℝ}
    (h : 1 ≤ (p.x - q.x) * (p.x - q.x) + (p.y - q.y) * (p.y - q.y)) : near p q = false := by
  have hroot : (1 : ℝ) ≤ Real.sqrt ((p.x - q.x) * (p.x - q.x) + (p.y - q.y) * (p.y - q.y)) :=
    Real.le_sqrt_of_sq_le (by linarith)
  simp only [near, norm, coincidence, sub_x, sub_y, Scalar.real_sub, Scalar.real_mul,
    Scalar.real_add, Scalar.real_sqrt, Scalar.real_lt, Scalar.real_decimal, decide_eq_false_iff_not,
    not_lt]
  exact le_trans (by norm_num) hroot

end Point

namespace Ring

theorem sum_zip_sub {β G : Type} [AddCommGroup G] (g : β → G) {xs ys : List β}
    (h : xs.length = ys.length) :
    ((xs.zip ys).map fun e => g e.2 - g e.1).sum = (ys.map g).sum - (xs.map g).sum := by
  induction xs generalizing ys with
  | nil =>
    cases ys with
    | nil => simp
    | cons y ys => simp at h
  | cons x xs ih =>
    cases ys with
    | nil => simp at h
    | cons y ys =>
      have hlen : xs.length = ys.length := by simpa using h
      simp only [List.zip_cons_cons, List.map_cons, List.sum_cons, ih hlen]
      abel

/-- Differences along the edges of a ring cancel. -/
theorem sum_edges_sub {α G : Type} [AddCommGroup G] (g : Point α → G) (ring : Ring α) :
    (ring.edges.map fun e => g e.2 - g e.1).sum = 0 := by
  cases ring with
  | nil => simp [edges]
  | cons p ps =>
    rw [edges, sum_zip_sub]
    · simp only [List.tail_cons, List.take_succ_cons, List.take_zero, List.map_append,
        List.map_cons, List.map_nil, List.sum_append, List.sum_cons, List.sum_nil]
      abel
    · simp

theorem mem_of_mem_edges {α : Type} {ring : Ring α} {e : Point α × Point α} (h : e ∈ ring.edges) :
    e.1 ∈ ring ∧ e.2 ∈ ring := by
  obtain ⟨hstart, hstop⟩ := List.of_mem_zip h
  refine ⟨hstart, ?_⟩
  cases List.mem_append.mp hstop with
  | inl h => exact List.mem_of_mem_tail h
  | inr h => exact List.mem_of_mem_take h

section Corners

variable {α : Type} [Scalar α]

theorem openSeam_sublist (ring : Ring α) : List.Sublist (openSeam ring) ring := by
  cases ring with
  | nil => exact List.Sublist.slnil
  | cons first rest =>
    have h := (List.dropWhile_sublist (Point.near first) (l := rest.reverse)).reverse
    rw [List.reverse_reverse] at h
    exact h.cons_cons first

/-- The corners of a ring are some of the given points, in their order or in the opposite one. -/
theorem sublist_of_ofPoints? {ps : List (Point α)} {ring : Ring α} (h : ofPoints? ps = some ring) :
    List.Sublist ring ps ∨ List.Sublist ring ps.reverse := by
  have hkept := (openSeam_sublist (Point.spaced ps)).trans (Point.spaced_sublist ps)
  simp only [ofPoints?] at h
  split at h
  · split at h
    · cases h
    · split at h
      · cases h
        exact .inr hkept.reverse
      · cases h
        exact .inl hkept
  · cases h

end Corners

theorem dropNear_of_isChain {last : Point ℝ} {ps : List (Point ℝ)}
    (h : List.IsChain (fun p q => Point.near p q = false) (last :: ps)) :
    Point.dropNear last ps = ps := by
  induction ps generalizing last with
  | nil => rfl
  | cons p ps ih =>
    obtain ⟨hp, hps⟩ := List.isChain_cons_cons.mp h
    rw [Point.dropNear, hp, ih hps]
    rfl

theorem openSeam_of_apart {first : Point ℝ} {rest : List (Point ℝ)}
    (h : ∀ last ∈ rest.getLast?, Point.near first last = false) :
    openSeam (first :: rest) = first :: rest := by
  have hkept : rest.reverse.dropWhile (Point.near first) = rest.reverse := by
    cases hlast : rest.reverse with
    | nil => rfl
    | cons last others =>
      have hfalse : Point.near first last = false := by
        apply h
        rw [← List.head?_reverse, hlast]
        rfl
      rw [List.dropWhile_cons, hfalse]
      rfl
  rw [openSeam, hkept, List.reverse_reverse]

/-- Corners of which each is apart from the next one, and the last from the first, are all kept. -/
theorem ofPoints?_of_apart {first : Point ℝ} {rest : List (Point ℝ)}
    (hlen : 3 ≤ (first :: rest).length)
    (hchain : List.IsChain (fun p q => Point.near p q = false) (first :: rest))
    (hseam : ∀ last ∈ rest.getLast?, Point.near first last = false) :
    ofPoints? (first :: rest) =
      some (if signedArea (first :: rest) < 0 then (first :: rest).reverse else first :: rest) := by
  have hfinite : (first :: rest).all Point.isFinite = true := by simp [Point.isFinite]
  simp only [ofPoints?, if_pos hfinite, Point.spaced, dropNear_of_isChain hchain,
    openSeam_of_apart hseam, if_neg (not_lt.mpr hlen), Scalar.real_lt, Scalar.real_zero]
  split <;> rfl

/-- Three corners that are apart and not clockwise are a ring as they stand. -/
theorem ofPoints?_triangle {p q r : Point ℝ} (hpq : Point.near p q = false)
    (hqr : Point.near q r = false) (hpr : Point.near p r = false)
    (hsign : 0 ≤ signedArea [p, q, r]) : ofPoints? [p, q, r] = some [p, q, r] := by
  rw [ofPoints?_of_apart (le_refl 3) (by simp [hpq, hqr]) (by simpa using hpr),
    if_neg (not_lt.mpr hsign)]

end Ring

namespace Region

theorem area_eq_sum (r : Region ℝ) : r.area = (r.polygons.map Polygon.area).sum := by
  simp only [area, Scalar.real_add, Scalar.real_zero, List.sum_eq_foldl, List.foldl_map]

@[simp] theorem area_empty : (empty : Region ℝ).area = 0 := by
  simp [area_eq_sum, empty]

theorem area_ofRing (ring : Ring ℝ) : (ofRing ring).area = ring.area := by
  have hpos : 0 ≤ ring.area := by
    cases ring with
    | nil => simp [Ring.area]
    | cons => simp [Ring.area]
  simp [area_eq_sum, ofRing, Polygon.area, abs_of_nonneg hpos]

theorem area_nonneg (r : Region ℝ) : 0 ≤ r.area := by
  rw [area_eq_sum]
  apply List.sum_nonneg
  intro a ha
  obtain ⟨p, -, rfl⟩ := List.mem_map.mp ha
  simp [Polygon.area]

theorem isEmpty_iff {r : Region ℝ} : r.isEmpty = true ↔ r.area = 0 := by
  simp only [isEmpty, Bool.or_eq_true, List.isEmpty_iff, decide_eq_true_eq, Scalar.real_le,
    Scalar.real_zero]
  constructor
  · intro h
    cases h with
    | inl hnil => simp [area_eq_sum, hnil]
    | inr hle => exact le_antisymm hle r.area_nonneg
  · intro h
    exact .inr h.le

end Region

end PlanarArea
