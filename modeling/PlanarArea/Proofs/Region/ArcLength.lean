import PlanarArea.Proofs.Plane.Exact
import PlanarArea.Region.Boundary

/-!
# Points at equal distances along a boundary

The boundary is walked once. For each arc length the walk goes on from where it stands to the edge
on which the arc length falls. It always stands behind the arc length that is next, with the edges
before its own walked, so it comes to a stop on an edge of the boundary where the arc length lies
between the lengths before and after the edge. The guard that keeps it on the last edge and the
clamp on the way along an edge never change a point.
-/
namespace PlanarArea

namespace Region

section Visits

variable {α : Type} [Scalar α]

/-- Where the walk takes a point: the arc length aimed at, the length walked before the stretch, and
the stretches that follow it. -/
structure Visit (α : Type) where
  target : α
  walked : α
  stretch : Stretch α
  rest : List (Stretch α)

namespace Visit

/-- How far along the stretch the point lies, before this is clamped. -/
def fraction (v : Visit α) : α :=
  (v.target - v.walked) / v.stretch.length

def point (v : Visit α) : Point α :=
  v.stretch.at v.target v.walked

end Visit

/-- The stops of a walk. -/
def visitsFrom (walked : α) (s : Stretch α) (rest : List (Stretch α)) : List α → List (Visit α)
  | [] => []
  | target :: targets =>
    let (walked, s, rest) := locate target walked s rest
    ⟨target, walked, s, rest⟩ :: visitsFrom walked s rest targets

theorem walk_eq_map (walked : α) (s : Stretch α) (rest : List (Stretch α)) (targets : List α) :
    walk walked s rest targets = (visitsFrom walked s rest targets).map Visit.point := by
  induction targets generalizing walked s rest with
  | nil => rfl
  | cons target targets ih => simp only [walk, visitsFrom, List.map_cons, ih, Visit.point]

/-- The stops at which `sampleBoundary` takes its points. -/
def visits (r : Region α) (n : Nat) : List (Visit α) :=
  match r.stretches with
  | [] => []
  | s :: rest =>
    let total := Scalar.sum ((s :: rest).map Stretch.length)
    if total ≤ 0 then []
    else visitsFrom 0 s rest ((List.range n).map fun i => total / Scalar.ofNat n * Scalar.ofNat i)

theorem sampleBoundary_eq_map (r : Region α) (n : Nat) :
    r.sampleBoundary n = (r.visits n).map Visit.point := by
  unfold sampleBoundary visits
  cases r.stretches with
  | nil => rfl
  | cons s rest =>
    dsimp only
    split
    · rfl
    · exact walk_eq_map _ _ _ _

end Visits

/-- The length of a path along some edges. -/
noncomputable def pathLength (edges : List (Point ℝ × Point ℝ)) : ℝ :=
  (edges.map fun e => (e.2 - e.1).norm).sum

/-- The edges of all exteriors, in ring order. -/
def exteriorEdges (r : Region ℝ) : List (Point ℝ × Point ℝ) :=
  r.polygons.flatMap fun p => Ring.edges p.exterior

/-- The total length of the exterior rings. -/
noncomputable def perimeter (r : Region ℝ) : ℝ :=
  pathLength r.exteriorEdges

open Classical in
/-- The exterior edges without those from a point to itself. -/
noncomputable def outline (r : Region ℝ) : List (Point ℝ × Point ℝ) :=
  r.exteriorEdges.filter fun e => e.1 ≠ e.2

/-- An edge as a stretch of boundary. -/
noncomputable def Stretch.ofEdge (e : Point ℝ × Point ℝ) : Stretch ℝ :=
  ⟨e.1, e.2, (e.2 - e.1).norm⟩

theorem norm_sub_pos_iff {p q : Point ℝ} : 0 < (q - p).norm ↔ p ≠ q := by
  have hroot : 0 < (q - p).norm ↔
      0 < (q.x - p.x) * (q.x - p.x) + (q.y - p.y) * (q.y - p.y) := Real.sqrt_pos
  have hnonneg := add_nonneg (mul_self_nonneg (q.x - p.x)) (mul_self_nonneg (q.y - p.y))
  rw [hroot, hnonneg.lt_iff_ne', ne_eq, mul_self_add_mul_self_eq_zero, sub_eq_zero, sub_eq_zero,
    not_iff_not]
  exact ⟨fun h => Point.eq_of_coords h.1.symm h.2.symm, by rintro rfl; exact ⟨rfl, rfl⟩⟩

theorem norm_sub_self (p : Point ℝ) : (p - p).norm = 0 := by
  simp [Point.norm]

/-- The stretches are the edges of the outline. -/
theorem stretches_eq (r : Region ℝ) : r.stretches = r.outline.map Stretch.ofEdge := by
  classical
  rw [outline, exteriorEdges, List.filter_flatMap, List.map_flatMap, stretches]
  congr 1
  funext p
  induction Ring.edges p.exterior with
  | nil => rfl
  | cons e es ih =>
    simp only [List.filterMap_cons, Scalar.real_lt, Scalar.real_zero, norm_sub_pos_iff] at ih ⊢
    by_cases h : e.1 = e.2
    · simpa [h] using ih
    · simpa [h, Stretch.ofEdge] using ih

theorem pathLength_nonneg (es : List (Point ℝ × Point ℝ)) : 0 ≤ pathLength es := by
  refine List.sum_nonneg fun x hx => ?_
  obtain ⟨e, -, rfl⟩ := List.mem_map.mp hx
  exact Real.sqrt_nonneg _

/-- Edges from a point to itself add nothing. -/
theorem pathLength_outline (r : Region ℝ) : pathLength r.outline = r.perimeter := by
  classical
  rw [outline, perimeter]
  induction r.exteriorEdges with
  | nil => rfl
  | cons e es ih =>
    by_cases h : e.1 = e.2
    · simpa [h, pathLength, norm_sub_self] using ih
    · simpa [h, pathLength] using ih

/-- The walk stands on the stretch `s` of `edges`, with the stretches before it walked, and has not
passed the arc length `target`. -/
def Behind (edges : List (Stretch ℝ)) (target walked : ℝ) (s : Stretch ℝ)
    (rest : List (Stretch ℝ)) : Prop :=
  ∃ front, edges = front ++ s :: rest ∧ walked = (front.map Stretch.length).sum ∧
    (front = [] ∨ walked < target)

variable {edges rest : List (Stretch ℝ)} {target walked : ℝ} {s : Stretch ℝ}

theorem Behind.mono (h : Behind edges target walked s rest) {later : ℝ} (hle : target ≤ later) :
    Behind edges later walked s rest := by
  obtain ⟨front, hsplit, hwalked, hfront⟩ := h
  exact ⟨front, hsplit, hwalked, hfront.imp_right fun hlt => hlt.trans_le hle⟩

/-- From behind an arc length that is not beyond the end, the walk gets to the stretch on which the
arc length falls. -/
theorem behind_locate (h : Behind edges target walked s rest)
    (hend : target ≤ (edges.map Stretch.length).sum) :
    ∃ walked' s' rest', locate target walked s rest = (walked', s', rest') ∧
      Behind edges target walked' s' rest' ∧ target ≤ walked' + s'.length := by
  induction rest generalizing walked s with
  | nil =>
    refine ⟨walked, s, [], rfl, h, ?_⟩
    obtain ⟨front, hsplit, hwalked, -⟩ := h
    rw [hwalked]
    simpa [hsplit] using hend
  | cons next rest ih =>
    simp only [locate, Scalar.real_lt, Scalar.real_add]
    split
    · rename_i hlt
      obtain ⟨front, hsplit, hwalked, -⟩ := h
      exact ih ⟨front ++ [s], by simp [hsplit], by simp [hwalked], .inr hlt⟩
    · rename_i hle
      exact ⟨walked, s, next :: rest, rfl, h, not_lt.mp hle⟩

/-- The walk makes this stop for an arc length: on a stretch of `edges`, between its ends. -/
structure Stops (edges : List (Stretch ℝ)) (target : ℝ) (v : Visit ℝ) : Prop where
  target_eq : v.target = target
  behind : Behind edges target v.walked v.stretch v.rest
  target_le : target ≤ v.walked + v.stretch.length

/-- For ascending arc lengths that are not beyond the end, the walk makes a stop for each. -/
theorem stops_visitsFrom {targets : List ℝ} (hsort : targets.Pairwise (· ≤ ·))
    (h : ∀ t ∈ targets, Behind edges t walked s rest)
    (hend : ∀ t ∈ targets, t ≤ (edges.map Stretch.length).sum) :
    List.Forall₂ (Stops edges) targets (visitsFrom walked s rest targets) := by
  induction targets generalizing walked s rest with
  | nil => exact .nil
  | cons target targets ih =>
    obtain ⟨hle, hsort⟩ := List.pairwise_cons.mp hsort
    obtain ⟨walked', s', rest', hlocate, hbehind, hreached⟩ :=
      behind_locate (h target List.mem_cons_self) (hend target List.mem_cons_self)
    simp only [visitsFrom, hlocate]
    refine .cons ⟨rfl, hbehind, hreached⟩ (ih hsort (fun t ht => hbehind.mono (hle t ht)) ?_)
    exact fun t ht => hend t (List.mem_cons_of_mem target ht)

theorem sum_length_ofEdge (es : List (Point ℝ × Point ℝ)) :
    ((es.map Stretch.ofEdge).map Stretch.length).sum = pathLength es := by
  simp only [pathLength, List.map_map, Function.comp_def, Stretch.ofEdge]

/-- The arc lengths at which `n` points are taken. -/
noncomputable def targets (r : Region ℝ) (n : ℕ) : List ℝ :=
  (List.range n).map fun i : ℕ => r.perimeter / n * i

theorem targets_sorted {r : Region ℝ} (hr : 0 < r.perimeter) (n : ℕ) :
    (r.targets n).Pairwise (· ≤ ·) := by
  rw [targets, List.pairwise_map]
  refine List.pairwise_lt_range.imp fun {i j} hij => ?_
  have hle : (i : ℝ) ≤ j := Nat.cast_le.mpr hij.le
  exact mul_le_mul_of_nonneg_left hle (by positivity)

theorem mem_targets {r : Region ℝ} (hr : 0 < r.perimeter) {n : ℕ} {t : ℝ} (ht : t ∈ r.targets n) :
    0 ≤ t ∧ t ≤ r.perimeter := by
  obtain ⟨i, hi, rfl⟩ := List.mem_map.mp ht
  have hin : (i : ℝ) ≤ n := Nat.cast_le.mpr (List.mem_range.mp hi).le
  have hn : (0 : ℝ) < n := Nat.cast_pos.mpr ((Nat.zero_le i).trans_lt (List.mem_range.mp hi))
  refine ⟨by positivity, ?_⟩
  rw [div_mul_eq_mul_div, div_le_iff₀ hn]
  exact mul_le_mul_of_nonneg_left hin hr.le

/-- The walk makes one stop for each arc length. -/
theorem stops_visits {r : Region ℝ} (hr : 0 < r.perimeter) (n : ℕ) :
    List.Forall₂ (Stops r.stretches) (r.targets n) (r.visits n) := by
  have htotal : (r.stretches.map Stretch.length).sum = r.perimeter := by
    rw [stretches_eq, sum_length_ofEdge, pathLength_outline]
  cases hstretches : r.stretches with
  | nil =>
    rw [hstretches] at htotal
    exact absurd htotal hr.ne
  | cons s rest =>
    rw [hstretches] at htotal
    have hvisits : r.visits n = visitsFrom 0 s rest (r.targets n) := by
      simp only [visits, hstretches, targets, Scalar.real_sum, htotal, Scalar.real_le,
        Scalar.real_zero, if_neg (not_le.mpr hr), Scalar.real_mul, Scalar.real_div,
        Scalar.real_ofNat]
    rw [hvisits]
    refine stops_visitsFrom (targets_sorted hr n) (fun t _ => ⟨[], rfl, rfl, .inl rfl⟩) ?_
    intro t ht
    rw [htotal]
    exact (mem_targets hr ht).2

theorem exists_stop {r : Region ℝ} (hr : 0 < r.perimeter) {n i : ℕ} (hi : i < n) :
    ∃ v, (r.visits n)[i]? = some v ∧ Stops r.stretches (i * r.perimeter / n) v := by
  have hstops := stops_visits hr n
  have htargets : i < (r.targets n).length := by simpa [targets] using hi
  have hvisits : i < (r.visits n).length := hstops.length_eq ▸ htargets
  refine ⟨_, List.getElem?_eq_getElem hvisits, ?_⟩
  have hstop := hstops.get htargets hvisits
  have htarget : (r.targets n)[i] = i * r.perimeter / n := by
    simp only [targets, List.getElem_map, List.getElem_range]
    ring
  rwa [List.get_eq_getElem, htarget] at hstop

theorem length_visits {r : Region ℝ} (hr : 0 < r.perimeter) (n : ℕ) : (r.visits n).length = n := by
  rw [← (stops_visits hr n).length_eq, targets, List.length_map, List.length_range]

/-- Where the walk stops, in terms of the outline. -/
theorem Stops.exists_edge {r : Region ℝ} {v : Visit ℝ} (h : Stops r.stretches target v) :
    ∃ before e after, r.outline = before ++ e :: after ∧
      v = ⟨target, pathLength before, .ofEdge e, after.map .ofEdge⟩ ∧
      (before = [] ∨ pathLength before < target) := by
  obtain ⟨vtarget, walked, stretch, rest⟩ := v
  obtain ⟨rfl, ⟨front, hsplit, rfl, hfront⟩, -⟩ := h
  rw [stretches_eq] at hsplit
  obtain ⟨before, tail, houtline, rfl, htail⟩ := List.map_eq_append_iff.mp hsplit
  obtain ⟨e, after, rfl, rfl, rfl⟩ := List.map_eq_cons_iff.mp htail
  rw [sum_length_ofEdge] at hfront ⊢
  exact ⟨before, e, after, houtline, rfl, hfront.imp_left List.map_eq_nil_iff.mp⟩

theorem clamp_eq {t : ℝ} (h : 0 ≤ t ∧ t ≤ 1) : Scalar.clamp t 0 1 = t := by
  simp only [Scalar.clamp, Scalar.real_lt, if_neg (not_lt.mpr h.1), if_neg (not_lt.mpr h.2)]

/-- A boundary of positive length gives as many points as are asked for, at equal arc lengths along
the exterior edges in ring order. Each is taken on an edge of the outline, the first one that the
arc length does not lie beyond, at a fraction of it between zero and one, so that the clamp is
idle. -/
theorem sampleBoundary_uniform {r : Region ℝ} (hr : 0 < r.perimeter) (n : ℕ) :
    (r.sampleBoundary n).length = n ∧ r.sampleBoundary n = (r.visits n).map Visit.point ∧
      ∀ i < n, ∃ before e after, r.outline = before ++ e :: after ∧
        let target := i * r.perimeter / n
        let fraction := (target - pathLength before) / (e.2 - e.1).norm
        (r.visits n)[i]? =
          some ⟨target, pathLength before, .ofEdge e, after.map Stretch.ofEdge⟩ ∧
        (before = [] ∨ pathLength before < target) ∧
        0 ≤ fraction ∧ fraction ≤ 1 ∧ Scalar.clamp fraction 0 1 = fraction ∧
        (r.sampleBoundary n)[i]? = some (e.1 + (e.2 - e.1) * fraction) := by
  refine ⟨by rw [sampleBoundary_eq_map, List.length_map, length_visits hr],
    sampleBoundary_eq_map r n, fun i hi => ?_⟩
  obtain ⟨v, hvisit, hstop⟩ := exists_stop hr hi
  obtain ⟨before, e, after, houtline, rfl, hbefore⟩ := hstop.exists_edge
  have hpos : 0 < (e.2 - e.1).norm := by
    have hmem : e ∈ r.outline := by simp [houtline]
    exact norm_sub_pos_iff.mpr (by simpa using List.of_mem_filter hmem)
  have hle : i * r.perimeter / n ≤ pathLength before + (e.2 - e.1).norm := hstop.target_le
  have hstart : pathLength before ≤ i * r.perimeter / n := by
    obtain rfl | hlt := hbefore
    · exact (by positivity : 0 ≤ i * r.perimeter / n)
    · exact hlt.le
  have hfraction : 0 ≤ (i * r.perimeter / n - pathLength before) / (e.2 - e.1).norm ∧
      (i * r.perimeter / n - pathLength before) / (e.2 - e.1).norm ≤ 1 :=
    ⟨div_nonneg (sub_nonneg.mpr hstart) hpos.le, (div_le_one hpos).mpr (by linarith)⟩
  refine ⟨before, e, after, houtline, hvisit, hbefore, hfraction.1, hfraction.2,
    clamp_eq hfraction, ?_⟩
  rw [sampleBoundary_eq_map, List.getElem?_map, hvisit, Option.map_some]
  simp only [Visit.point, Stretch.at, Stretch.ofEdge, Scalar.real_sub, Scalar.real_div,
    Scalar.real_zero, Scalar.real_one, clamp_eq hfraction]

/-- Two flat rings of lengths six and four on the horizontal axis, the first with a corner twice. -/
noncomputable def flatRings : Region ℝ :=
  ⟨[⟨[⟨0, 0⟩, ⟨0, 0⟩, ⟨3, 0⟩], []⟩, ⟨[⟨10, 0⟩, ⟨12, 0⟩], []⟩]⟩

theorem norm_horizontal (x y : ℝ) : ((⟨y, 0⟩ : Point ℝ) - ⟨x, 0⟩).norm = |y - x| := by
  simp [Point.norm, Real.sqrt_mul_self_eq_abs]

theorem outline_flatRings : flatRings.outline =
    [(⟨0, 0⟩, ⟨3, 0⟩), (⟨3, 0⟩, ⟨0, 0⟩), (⟨10, 0⟩, ⟨12, 0⟩), (⟨12, 0⟩, ⟨10, 0⟩)] := by
  simp [outline, exteriorEdges, flatRings, Ring.edges]

/-- Of five points at steps of two, the one at six is the end of the first ring, not the start of
the second. -/
theorem sampleBoundary_uniform_flat : flatRings.perimeter = 10 ∧ 0 < flatRings.perimeter ∧
    (flatRings.sampleBoundary 5).length = 5 ∧
    (flatRings.sampleBoundary 5)[3]? = some ⟨0, 0⟩ := by
  have hten : flatRings.perimeter = 10 := by
    rw [← pathLength_outline, outline_flatRings]
    simp only [pathLength, List.map_cons, List.map_nil, List.sum_cons, List.sum_nil,
      norm_horizontal]
    norm_num
  have hpos : 0 < flatRings.perimeter := by
    rw [hten]
    norm_num
  obtain ⟨hlen, -, hpoint⟩ := sampleBoundary_uniform hpos 5
  obtain ⟨before, e, after, houtline, -, hbefore, -, hhigh, -, hsample⟩ :=
    hpoint 3 (by norm_num)
  refine ⟨hten, hpos, hlen, hsample.trans ?_⟩
  rw [outline_flatRings] at houtline
  -- Six is walked at the end of the second edge and not before, and it is not less than that.
  rcases before with _ | ⟨a, _ | ⟨b, before⟩⟩
  · obtain ⟨rfl, -⟩ : _ = e ∧ _ := by simpa using houtline
    norm_num [hten, pathLength, norm_horizontal] at hhigh
  · obtain ⟨rfl, rfl, -⟩ : _ = a ∧ _ = e ∧ _ := by simpa using houtline
    norm_num [hten, pathLength, norm_horizontal]
    apply Point.eq_of_coords
    · norm_num
    · norm_num
  · obtain ⟨rfl, rfl, -⟩ : _ = a ∧ _ = b ∧ _ := by simpa using houtline
    have hlt := hbefore.resolve_left (List.cons_ne_nil _ _)
    have hnonneg := pathLength_nonneg before
    norm_num [hten, pathLength, norm_horizontal] at hlt hnonneg
    linarith

end Region

end PlanarArea
