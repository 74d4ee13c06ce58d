import PlanarArea.Proofs.Region.HalfPlane
import PlanarArea.Proofs.Region.NormalForm
import PlanarArea.Shape.Basic

/-!
# Polygons along edges

A chain of edges names every corner twice, where an edge ends and where the next one starts, and the
first corner once more at the end if the chain closes. The polygon along the chain leaves out what
it is joined to and the region through its corners leaves out what is near, which is the same but at
one distance. So the region does not depend on whether it is made from the polygon or from all
the ends of the edges.
-/
namespace PlanarArea

namespace Shape

section Edges

variable {α : Type}

/-- The ends of the edges, in their order. -/
def endpoints (edges : List (Point α × Point α)) : List (Point α) :=
  edges.flatMap fun (p, q) => [p, q]

@[simp] theorem endpoints_nil : endpoints ([] : List (Point α × Point α)) = [] := rfl

@[simp] theorem endpoints_cons (e : Point α × Point α) (edges : List (Point α × Point α)) :
    endpoints (e :: edges) = e.1 :: e.2 :: endpoints edges := rfl

/-- An edge leads to the one that starts where it ends. -/
def LeadsTo (e e' : Point α × Point α) : Prop :=
  e.2 = e'.1

/-- Each edge starts where the one before ended, and the first one where the last ended. -/
def Closed (edges : List (Point α × Point α)) : Prop :=
  Cycle.Chain LeadsTo (edges : Cycle (Point α × Point α))

/-- The ends of the edges up to the last one are the starts of those that follow. -/
theorem map_snd_of_isChain {e f : Point α × Point α} {edges : List (Point α × Point α)}
    (h : List.IsChain LeadsTo (e :: (edges ++ [f]))) :
    (e :: edges).map Prod.snd = edges.map Prod.fst ++ [f.1] := by
  induction edges generalizing e with
  | nil =>
    have hend : e.2 = f.1 := (List.isChain_cons_cons.mp h).1
    simp [hend]
  | cons e' edges ih =>
    obtain ⟨hstep, hrest⟩ := List.isChain_cons_cons.mp h
    have hend : e.2 = e'.1 := hstep
    rw [List.map_cons, ih hrest, hend]
    rfl

theorem map_snd_of_closed {e : Point α × Point α} {edges : List (Point α × Point α)}
    (h : Closed (e :: edges)) : (e :: edges).map Prod.snd = edges.map Prod.fst ++ [e.1] :=
  map_snd_of_isChain (Cycle.chain_coe_cons LeadsTo e edges |>.mp h)

theorem ofEdges_cons [Scalar α] (e : Point α × Point α) (edges : List (Point α × Point α)) :
    ofEdges (e :: edges) =
      match (chainFrom e.1 (e.2 :: endpoints edges)).getLast? with
      | some last =>
        if (e.1 - last).norm ≤ Point.coincidence then
          polygon (e.1 :: (chainFrom e.1 (e.2 :: endpoints edges)).dropLast)
        else polygon (e.1 :: chainFrom e.1 (e.2 :: endpoints edges))
      | none => polygon [e.1] := rfl

end Edges

variable {p q first : Point ℝ} {rest : List (Point ℝ)} {edges : List (Point ℝ × Point ℝ)}

theorem joined_eq_true_iff : joined p q = true ↔ (p - q).norm ≤ Point.coincidence := by
  simp [joined]

theorem norm_sub_self_le (p : Point ℝ) : (p - p).norm ≤ Point.coincidence := by
  have hnear := Point.near_self p
  simp only [Point.near, Scalar.real_lt, decide_eq_true_eq] at hnear
  exact hnear.le

theorem chainFrom_cons_self (p : Point ℝ) (ps : List (Point ℝ)) :
    chainFrom p (p :: ps) = chainFrom p ps := by
  rw [chainFrom, if_pos (joined_eq_true_iff.mpr (norm_sub_self_le p))]

theorem chainFrom_cons_of_lt (h : Point.coincidence < (first - p).norm) (ps : List (Point ℝ)) :
    chainFrom first (p :: ps) = p :: chainFrom p ps := by
  rw [chainFrom, if_neg (mt joined_eq_true_iff.mp h.not_ge)]

theorem coincidence_lt_of_sq_lt (h : (1e-12) ^ 2 < (p.x - q.x) ^ 2 + (p.y - q.y) ^ 2) :
    Point.coincidence < (p - q).norm := by
  rw [← Point.norm_sub_sq] at h
  exact lt_of_pow_lt_pow_left₀ 2 (Point.norm_nonneg _) h

/-- Points are joined just if they are near, but at one distance. -/
theorem joined_eq_near (h : (p - q).norm ≠ Point.coincidence) : joined p q = Point.near p q := by
  rw [Bool.eq_iff_iff, joined_eq_true_iff, h.le_iff_lt]
  simp only [Point.near, Scalar.real_lt, decide_eq_true_eq]

/-- No two of the points are just so far from each other that they are joined and not near. -/
def OffLimit (ps : List (Point ℝ)) : Prop :=
  ∀ p ∈ ps, ∀ q ∈ ps, (p - q).norm ≠ Point.coincidence

theorem OffLimit.subset {ps qs : List (Point ℝ)} (h : OffLimit ps) (hsub : qs ⊆ ps) :
    OffLimit qs :=
  fun p hp q hq => h p (hsub hp) q (hsub hq)

theorem offLimit_of_sq_ne {ps : List (Point ℝ)}
    (h : ∀ p ∈ ps, ∀ q ∈ ps, (p.x - q.x) ^ 2 + (p.y - q.y) ^ 2 ≠ (1e-12) ^ 2) : OffLimit ps := by
  intro p hp q hq hnorm
  refine h p hp q hq ?_
  rw [← Point.norm_sub_sq, hnorm, Point.coincidence, Scalar.real_decimal]

theorem chainFrom_eq_dropNear (h : OffLimit (first :: rest)) :
    chainFrom first rest = Point.dropNear first rest := by
  induction rest generalizing first with
  | nil => rfl
  | cons p ps ih =>
    have hskip : OffLimit (first :: ps) :=
      h.subset (List.cons_subset_cons first (List.subset_cons_self p ps))
    have hkeep : OffLimit (p :: ps) := h.subset (List.subset_cons_self first (p :: ps))
    have hnorm := h first List.mem_cons_self p (List.mem_cons_of_mem first List.mem_cons_self)
    rw [chainFrom, Point.dropNear, joined_eq_near hnorm, ih hskip, ih hkeep]

/-- Along edges that lead on, none of them short, the chain keeps the end of every edge. -/
theorem chainFrom_endpoints {e : Point ℝ × Point ℝ} (hchain : List.IsChain LeadsTo (e :: edges))
    (hlong : ∀ e' ∈ e :: edges, Point.coincidence < (e'.1 - e'.2).norm) :
    chainFrom e.1 (e.2 :: endpoints edges) = (e :: edges).map Prod.snd := by
  induction edges generalizing e with
  | nil => exact chainFrom_cons_of_lt (hlong e List.mem_cons_self) []
  | cons e' edges ih =>
    obtain ⟨hstep, hrest⟩ := List.isChain_cons_cons.mp hchain
    have hend : e.2 = e'.1 := hstep
    have hlong' : ∀ f ∈ e' :: edges, Point.coincidence < (f.1 - f.2).norm :=
      fun f hf => hlong f (List.mem_cons_of_mem e hf)
    have hrestChain : chainFrom e.2 (endpoints (e' :: edges)) = (e' :: edges).map Prod.snd := by
      rw [endpoints_cons, hend, chainFrom_cons_self, ih hrest hlong']
    rw [chainFrom_cons_of_lt (hlong e List.mem_cons_self), hrestChain, ← List.map_cons]

/-- The corners along a closed chain are the starts of its edges. -/
theorem ofEdges_of_closed (hclosed : Closed edges)
    (hlong : ∀ e ∈ edges, Point.coincidence < (e.1 - e.2).norm) :
    ofEdges edges = polygon (edges.map Prod.fst) := by
  cases edges with
  | nil => rfl
  | cons e edges =>
    have hchain : List.IsChain LeadsTo (e :: edges) :=
      (List.isChain_append.mp (Cycle.chain_coe_cons LeadsTo e edges |>.mp hclosed)).1
    have hothers : chainFrom e.1 (e.2 :: endpoints edges) = edges.map Prod.fst ++ [e.1] := by
      rw [chainFrom_endpoints hchain hlong, map_snd_of_closed hclosed]
    rw [ofEdges_cons, hothers, List.getLast?_concat, List.dropLast_concat]
    exact if_pos (norm_sub_self_le e.1)

end Shape

namespace Ring

variable {first last : Point ℝ} {rest : List (Point ℝ)}

/-- A path that is freed of near points already is kept as the whole path is. -/
theorem kept_dropNear (first : Point ℝ) (rest : List (Point ℝ)) :
    kept (first :: Point.dropNear first rest) = kept (first :: rest) := by
  rw [kept_cons, kept_cons, dropNear_of_isChain (Point.isChain_near_dropNear first rest)]

/-- It does not matter whether a last point near the first one is taken off before. -/
theorem kept_dropLast (hlast : last ∈ rest.getLast?) (hnear : Point.near first last = true)
    (hchain : List.IsChain (fun p q => Point.near p q = false) (first :: rest)) :
    kept (first :: rest.dropLast) = kept (first :: rest) := by
  have hsplit : rest.dropLast ++ [last] = rest := List.dropLast_append_getLast? last hlast
  have hprefix : List.IsChain (fun p q => Point.near p q = false) (first :: rest.dropLast) := by
    rw [← hsplit, ← List.cons_append] at hchain
    exact (List.isChain_append.mp hchain).1
  rw [kept_cons, kept_cons, dropNear_of_isChain hprefix, dropNear_of_isChain hchain]
  conv_rhs => rw [← hsplit, List.rdropWhile_concat_pos _ _ _ hnear]

end Ring

namespace Shape

/-- The corners of the polygon along the edges leave the same ring as all the ends of the edges. -/
theorem exists_ofEdges_eq (edges : List (Point ℝ × Point ℝ)) :
    ∃ vertices, ofEdges edges = polygon vertices ∧
      (OffLimit (endpoints edges) → Ring.kept vertices = Ring.kept (endpoints edges)) := by
  cases edges with
  | nil => exact ⟨[], rfl, fun _ => rfl⟩
  | cons e edges =>
    rw [ofEdges_cons, endpoints_cons]
    split
    · rename_i last hlast
      split
      · rename_i hseam
        refine ⟨_, rfl, fun hoff => ?_⟩
        rw [chainFrom_eq_dropNear hoff] at hlast ⊢
        have hmem : last ∈ e.1 :: e.2 :: endpoints edges :=
          List.mem_cons_of_mem e.1
            ((Point.dropNear_sublist e.1 _).subset (List.mem_of_getLast? hlast))
        have hnear : Point.near e.1 last = true := by
          rw [← joined_eq_near (hoff e.1 List.mem_cons_self last hmem), joined_eq_true_iff]
          exact hseam
        rw [Ring.kept_dropLast hlast hnear (Point.isChain_near_dropNear _ _), Ring.kept_dropNear]
      · refine ⟨_, rfl, fun hoff => ?_⟩
        rw [chainFrom_eq_dropNear hoff, Ring.kept_dropNear]
    · rename_i hnone
      refine ⟨_, rfl, fun hoff => ?_⟩
      rw [chainFrom_eq_dropNear hoff, List.getLast?_eq_none_iff] at hnone
      rw [← Ring.kept_dropNear e.1 (e.2 :: endpoints edges), hnone]

/-- Unless two ends of edges are just at the distance on which the two ways to leave out repeated
points differ, the polygon along the edges makes the region that all the ends in their order make,
or none if they make none. Along a closed chain of edges that are not short, its corners are the
starts of the edges in their order. -/
theorem ofEdges_keeps_corners (edges : List (Point ℝ × Point ℝ)) :
    ∃ vertices, ofEdges edges = polygon vertices ∧
      (OffLimit (endpoints edges) →
        Region.ofPoints? vertices = Region.ofPoints? (endpoints edges)) ∧
      (Closed edges → (∀ e ∈ edges, Point.coincidence < (e.1 - e.2).norm) →
        vertices = edges.map Prod.fst) := by
  obtain ⟨vertices, hvertices, hkept⟩ := exists_ofEdges_eq edges
  refine ⟨vertices, hvertices, fun hoff => ?_, fun hclosed hlong => ?_⟩
  · rw [Region.ofPoints?, Region.ofPoints?, Ring.ofPoints?_eq, Ring.ofPoints?_eq, hkept hoff]
  · rw [ofEdges_of_closed hclosed hlong] at hvertices
    injection hvertices with h
    exact h.symm

/-- A triangle along its edges, and edges of which the second starts near the end of the first and
the third ends near the start of the first. -/
theorem ofEdges_keeps_corners_triangle :
    (ofEdges [(⟨0, 0⟩, ⟨4, 0⟩), (⟨4, 0⟩, ⟨0, 3⟩), (⟨0, 3⟩, ⟨0, 0⟩)] : Shape ℝ) =
      polygon [⟨0, 0⟩, ⟨4, 0⟩, ⟨0, 3⟩] ∧
    let ends : List (Point ℝ) := [⟨0, 0⟩, ⟨4, 0⟩, ⟨4, 1e-13⟩, ⟨0, 3⟩, ⟨1, 1⟩, ⟨0, 1e-13⟩]
    ∃ vertices,
      (ofEdges [(⟨0, 0⟩, ⟨4, 0⟩), (⟨4, 1e-13⟩, ⟨0, 3⟩), (⟨1, 1⟩, ⟨0, 1e-13⟩)] : Shape ℝ) =
        polygon vertices ∧
      Region.ofPoints? vertices = Region.ofPoints? ends := by
  constructor
  · obtain ⟨vertices, hvertices, -, hcorners⟩ := ofEdges_keeps_corners
      [(⟨0, 0⟩, ⟨4, 0⟩), (⟨4, 0⟩, ⟨0, 3⟩), (⟨0, 3⟩, ⟨0, 0⟩)]
    rw [hvertices, hcorners]
    · rfl
    · simp [Closed, LeadsTo]
    · simp only [List.forall_mem_cons, List.not_mem_nil, false_imp_iff, implies_true, and_true]
      exact ⟨coincidence_lt_of_sq_lt (by norm_num), coincidence_lt_of_sq_lt (by norm_num),
        coincidence_lt_of_sq_lt (by norm_num)⟩
  · intro ends
    obtain ⟨vertices, hvertices, hregion, -⟩ := ofEdges_keeps_corners
      [(⟨0, 0⟩, ⟨4, 0⟩), (⟨4, 1e-13⟩, ⟨0, 3⟩), (⟨1, 1⟩, ⟨0, 1e-13⟩)]
    refine ⟨vertices, hvertices, hregion (offLimit_of_sq_ne ?_)⟩
    norm_num

end Shape

end PlanarArea
