import PlanarArea.Proofs.Region.NormalForm

/-!
# Ways to write a boundary

A closed boundary can be written from any of its points on, in either direction, with points
repeated next to themselves and with the first point repeated at the end. A sum over the edges, to
which an edge from a point to itself adds nothing, does not see the difference. The number of edges
that lead on is such a sum, and it decides whether the boundary makes a region; twice the signed
area is another one, up to the direction.
-/
namespace PlanarArea

namespace Point

/-- Any two of the points are equal or apart. -/
def Separated (ps : List (Point ℝ)) : Prop :=
  ∀ p ∈ ps, ∀ q ∈ ps, p = q ∨ Apart p q

variable {ps qs : List (Point ℝ)}

theorem Separated.subset (h : Separated ps) (hsub : qs ⊆ ps) : Separated qs :=
  fun p hp q hq => h p (hsub hp) q (hsub hq)

theorem separated_of_pairwise (h : ps.Pairwise Apart) : Separated ps :=
  fun _ hp _ hq => or_iff_not_imp_left.mpr (h.forall hp hq)

/-- Of separated points only equal ones are near each other. -/
theorem Separated.near_iff (h : Separated ps) {p q : Point ℝ} (hp : p ∈ ps) (hq : q ∈ ps) :
    near p q = true ↔ p = q := by
  constructor
  · intro hnear
    refine (h p hp q hq).resolve_right fun hapart => ?_
    rw [near_eq_false_iff.mpr hapart] at hnear
    cases hnear
  · rintro rfl
    exact near_self p

end Point

namespace Ring

section Sums

variable {α G : Type} [AddCommMonoid G] {g : Point α × Point α → G}

theorem sum_legs_append (g : Point α × Point α → G) (path : List (Point α)) (p : Point α)
    (rest : List (Point α)) :
    ((legs (path ++ p :: rest)).map g).sum =
      ((legs (path ++ [p])).map g).sum + ((legs (p :: rest)).map g).sum := by
  rw [legs_append, List.map_append, List.sum_append]

theorem sum_edges_le_length {g : Point α × Point α → ℕ} (hg : ∀ e, g e ≤ 1) (ring : Ring α) :
    (ring.edges.map g).sum ≤ ring.length := by
  have hle : ∀ n ∈ ring.edges.map g, n ≤ 1 := by
    intro n hn
    obtain ⟨e, -, rfl⟩ := List.mem_map.mp hn
    exact hg e
  have hsum := List.sum_le_card_nsmul _ 1 hle
  rwa [List.length_map, length_edges, smul_eq_mul, mul_one] at hsum

theorem sum_legs_double (hg : ∀ p, g (p, p) = 0) (path : List (Point α)) (p : Point α)
    (rest : List (Point α)) :
    ((legs (path ++ p :: p :: rest)).map g).sum = ((legs (path ++ p :: rest)).map g).sum := by
  rw [sum_legs_append, sum_legs_append g path p rest, legs, List.map_cons, List.sum_cons, hg,
    zero_add]

variable [Scalar α]

/-- An edge between points that are near each other counts nothing, and any other one as much as one
between points near its ends. -/
structure Blind (g : Point α × Point α → G) (ps : List (Point α)) : Prop where
  self : ∀ p ∈ ps, g (p, p) = 0
  left : ∀ p ∈ ps, ∀ q ∈ ps, Point.near p q = true → ∀ r ∈ ps, g (p, r) = g (q, r)
  right : ∀ p ∈ ps, ∀ q ∈ ps, Point.near p q = true → ∀ r ∈ ps, g (r, p) = g (r, q)

variable {ps qs : List (Point α)} {p q : Point α}

theorem Blind.subset (h : Blind g ps) (hsub : qs ⊆ ps) : Blind g qs where
  self p hp := h.self p (hsub hp)
  left p hp q hq hnear r hr := h.left p (hsub hp) q (hsub hq) hnear r (hsub hr)
  right p hp q hq hnear r hr := h.right p (hsub hp) q (hsub hq) hnear r (hsub hr)

/-- At the start of a path a point can stand for one that it is near to. -/
theorem Blind.sum_legs_cons (h : Blind g (p :: q :: ps)) (hnear : Point.near p q = true) :
    ((legs (q :: ps)).map g).sum = ((legs (p :: ps)).map g).sum := by
  cases ps with
  | nil => rfl
  | cons r ps =>
    simp only [legs, List.map_cons, List.sum_cons]
    rw [h.left p (by simp) q (by simp) hnear r (by simp)]

/-- At the end of a path it can, too. -/
theorem Blind.sum_legs_concat (h : Blind g (p :: q :: ps)) (hnear : Point.near p q = true) :
    ((legs (ps ++ [q])).map g).sum = ((legs (ps ++ [p])).map g).sum := by
  cases ps using List.reverseRecOn with
  | nil => rfl
  | append_singleton ps r =>
    rw [List.append_assoc, List.append_assoc, List.singleton_append, List.singleton_append,
      sum_legs_append, sum_legs_append g ps r [p]]
    simp only [legs, List.map_cons, List.map_nil, List.sum_cons, List.sum_nil]
    rw [h.right p (by simp) q (by simp) hnear r (by simp)]

theorem sum_legs_dropNear {last : Point α} {ps rest : List (Point α)}
    (h : Blind g (last :: (ps ++ rest))) :
    ((legs (last :: (Point.dropNear last ps ++ rest))).map g).sum =
      ((legs (last :: (ps ++ rest))).map g).sum := by
  induction ps generalizing last with
  | nil => rfl
  | cons p ps ih =>
    unfold Point.dropNear
    split
    · rename_i hnear
      have hzero : g (last, p) = 0 := by
        rw [← h.right last (by simp) p (by simp) hnear last (by simp), h.self last (by simp)]
      rw [ih (h.subset (by simp)), List.cons_append, legs, List.map_cons, List.sum_cons, hzero,
        zero_add]
      exact (Blind.sum_legs_cons h hnear).symm
    · simp only [List.cons_append, legs, List.map_cons, List.sum_cons]
      rw [ih (h.subset (List.subset_cons_self _ _))]

theorem sum_legs_rdropWhile {first : Point α} {ps : List (Point α)} (h : Blind g (first :: ps)) :
    ((legs (first :: (ps.rdropWhile (Point.near first) ++ [first]))).map g).sum =
      ((legs (first :: (ps ++ [first]))).map g).sum := by
  induction ps using List.reverseRecOn with
  | nil => rfl
  | append_singleton ps p ih =>
    rw [List.rdropWhile_concat]
    split
    · rename_i hnear
      have hzero : g (p, first) = 0 := by
        rw [← h.left first (by simp) p (by simp) hnear first (by simp), h.self first (by simp)]
      have hboth : Blind g (first :: p :: first :: ps) := h.subset (by simp)
      have hend := hboth.sum_legs_concat hnear
      rw [ih (h.subset (by simp)), List.append_assoc, List.singleton_append, ← List.cons_append,
        ← List.cons_append, sum_legs_append g (first :: ps) p, hend]
      simp [legs, hzero]
    · rfl

/-- What is dropped from a boundary adds nothing to such a sum. -/
theorem sum_edges_openSeam (h : Blind g ps) :
    ((edges (openSeam (Point.spaced ps))).map g).sum = ((edges ps).map g).sum := by
  cases ps with
  | nil => rfl
  | cons p ps =>
    have hopen : openSeam (Point.spaced (p :: ps)) =
        p :: (Point.dropNear p ps).rdropWhile (Point.near p) := rfl
    have hkept := h.subset (List.cons_subset_cons p (Point.dropNear_sublist p ps).subset)
    have hclosed : Blind g (p :: (ps ++ [p])) := h.subset (by simp)
    rw [hopen, edges_cons, edges_cons, sum_legs_rdropWhile hkept, sum_legs_dropNear hclosed]

end Sums

section Hops

variable {α : Type} [Scalar α] {ps : List (Point α)}

/-- One for an edge that leads to a point which is not near. -/
def hop (e : Point α × Point α) : ℕ :=
  if Point.near e.1 e.2 then 0 else 1

/-- The number of such edges. -/
def hops (ps : List (Point α)) : ℕ :=
  ((edges ps).map hop).sum

theorem hop_of_near {e : Point α × Point α} (h : Point.near e.1 e.2 = true) : hop e = 0 :=
  if_pos h

theorem hop_le_one (e : Point α × Point α) : hop e ≤ 1 := by
  rw [hop]
  split <;> omega

theorem hops_le_length (ring : Ring α) : hops ring ≤ ring.length :=
  sum_edges_le_length hop_le_one ring

theorem hops_of_chain {ring : Ring α}
    (h : Cycle.Chain (fun p q => Point.near p q = false) (ring : Cycle (Point α))) :
    hops ring = ring.length := by
  have hone : ∀ e ∈ ring.edges, hop e = 1 := by
    intro e he
    rw [hop, forall_mem_edges_iff.mpr h e he]
    rfl
  rw [hops, List.map_congr_left hone, List.map_const', List.sum_replicate, length_edges,
    smul_eq_mul, mul_one]

/-- Being near parts the points into classes. -/
structure Clustered (ps : List (Point α)) : Prop where
  self : ∀ p ∈ ps, Point.near p p = true
  comm : ∀ p ∈ ps, ∀ q ∈ ps, Point.near p q = Point.near q p
  congr : ∀ p ∈ ps, ∀ q ∈ ps, Point.near p q = true → ∀ r ∈ ps, Point.near p r = Point.near q r

theorem Clustered.blind_hop (h : Clustered ps) : Blind hop ps where
  self p hp := hop_of_near (h.self p hp)
  left p hp q hq hnear r hr := by rw [hop, hop, h.congr p hp q hq hnear r hr]
  right p hp q hq hnear r hr := by
    rw [hop, hop, h.comm r hr p hp, h.comm r hr q hq, h.congr p hp q hq hnear r hr]

/-- Fewer than three corners are left exactly if fewer than three edges lead away. -/
theorem length_openSeam_lt_iff (h : Clustered ps) :
    List.length (openSeam (Point.spaced ps)) < 3 ↔ hops ps < 3 := by
  have hhops : hops (openSeam (Point.spaced ps)) = hops ps := sum_edges_openSeam h.blind_hop
  rw [← hhops]
  by_cases hlen : 2 ≤ List.length (openSeam (Point.spaced ps))
  · rw [hops_of_chain (chain_openSeam h.comm hlen)]
  · have hle := hops_le_length (openSeam (Point.spaced ps))
    constructor <;> intro <;> omega

/-- Finite points make no ring exactly if fewer than three edges lead away. -/
theorem ofPoints?_eq_none_iff (hfinite : ps.all Point.isFinite = true) (h : Clustered ps) :
    Ring.ofPoints? ps = none ↔ hops ps < 3 := by
  rw [← length_openSeam_lt_iff h, Ring.ofPoints?, if_pos hfinite]
  dsimp only
  split
  · rename_i hlen
    exact iff_of_true rfl hlen
  · rename_i hlen
    refine iff_of_false ?_ hlen
    split <;> exact Option.some_ne_none _

end Hops

section Separated

variable {ps : List (Point ℝ)} (h : Point.Separated ps)
include h

theorem clustered_of_separated : Clustered ps where
  self p _ := Point.near_self p
  comm p _ q _ := Point.near_comm p q
  congr p hp q hq hnear r _ := by rw [(h.near_iff hp hq).mp hnear]

theorem blind_of_separated {G : Type} [AddCommMonoid G] {g : Point ℝ × Point ℝ → G}
    (hg : ∀ p, g (p, p) = 0) : Blind g ps where
  self p _ := hg p
  left p hp q hq hnear r _ := by rw [(h.near_iff hp hq).mp hnear]
  right p hp q hq hnear r _ := by rw [(h.near_iff hp hq).mp hnear]

end Separated

/-- One for an edge that leads on to another point. -/
noncomputable def onward (e : Point ℝ × Point ℝ) : ℕ :=
  open Classical in if e.1 = e.2 then 0 else 1

/-- The number of edges that lead on. -/
noncomputable def steps (ps : List (Point ℝ)) : ℕ :=
  ((edges ps).map onward).sum

theorem onward_self (p : Point ℝ) : onward (p, p) = 0 := if_pos rfl

theorem onward_swap (e : Point ℝ × Point ℝ) : onward e.swap = onward e := by
  simp only [onward, Prod.fst_swap, Prod.snd_swap, eq_comm]

theorem onward_le_one (e : Point ℝ × Point ℝ) : onward e ≤ 1 := by
  rw [onward]
  split <;> omega

theorem steps_le_length (ring : Ring ℝ) : steps ring ≤ ring.length :=
  sum_edges_le_length onward_le_one ring

/-- Edges between separated points lead on if they lead away. -/
theorem hops_eq_steps {ps : List (Point ℝ)} (hps : Point.Separated ps) : hops ps = steps ps := by
  rw [hops, steps]
  congr 1
  apply List.map_congr_left
  intro e he
  obtain ⟨hstart, hstop⟩ := mem_of_mem_edges he
  simp only [hop, onward, hps.near_iff hstart hstop]

/-- Fewer than three corners are left exactly if fewer than three edges lead on. -/
theorem length_kept_lt_iff {ps : List (Point ℝ)} (hps : Point.Separated ps) :
    List.length (kept ps) < 3 ↔ steps ps < 3 := by
  rw [← hops_eq_steps hps]
  exact length_openSeam_lt_iff (clustered_of_separated hps)

/-- A point sweeps nothing on its own. -/
theorem swept_self (o p : Point ℝ) : (p - o).x * (p - o).y - (p - o).y * (p - o).x = 0 := by
  ring

theorem sweptAbout_kept {ps : List (Point ℝ)} (hps : Point.Separated ps) (o : Point ℝ) :
    sweptAbout o (kept ps) = sweptAbout o ps :=
  sum_edges_openSeam (blind_of_separated hps (swept_self o))

end Ring

namespace Region

/-- The area of the region through separated points, as sums over all edges. -/
theorem map_area_ofPoints? {ps : List (Point ℝ)} (hps : Point.Separated ps) :
    (ofPoints? ps).map area =
      if Ring.steps ps < 3 then none else some |Ring.sweptAbout ⟨0, 0⟩ ps / 2| := by
  rw [ofPoints?, Ring.ofPoints?_eq, ← Ring.sweptAbout_kept hps]
  simp only [Ring.length_kept_lt_iff hps]
  split
  · rfl
  · rw [Option.map_some, Option.map_some, area_ofRing, Ring.area_eq_sweptAbout ⟨0, 0⟩]
    split
    · rw [Ring.sweptAbout_reverse, neg_div, abs_neg]
    · rfl

end Region

/-- The list on the right writes the closed boundary that the list on the left writes. -/
inductive Respelled : List (Point ℝ) → List (Point ℝ) → Prop
  | rotate (ps : List (Point ℝ)) (n : ℕ) : Respelled ps (ps.rotate n)
  | reverse (ps : List (Point ℝ)) : Respelled ps ps.reverse
  | double (ps : List (Point ℝ)) (p : Point ℝ) (qs : List (Point ℝ)) :
    Respelled (ps ++ p :: qs) (ps ++ p :: p :: qs)
  | close (p : Point ℝ) (ps : List (Point ℝ)) : Respelled (p :: ps) (p :: ps ++ [p])
  | trans {ps qs rs : List (Point ℝ)} : Respelled ps qs → Respelled qs rs → Respelled ps rs

namespace Respelled

variable {ps qs : List (Point ℝ)}

theorem mem_iff (h : Respelled ps qs) (p : Point ℝ) : p ∈ qs ↔ p ∈ ps := by
  induction h with
  | rotate ps n => exact List.mem_rotate
  | reverse ps => exact List.mem_reverse
  | double ps q qs => simp
  | close q ps =>
    simp only [List.mem_append, List.mem_cons, List.not_mem_nil, or_false]
    tauto
  | trans _ _ ih ih' => exact ih'.trans ih

/-- A sum over the edges is kept, or it becomes the sum over the edges turned round. -/
theorem sum_edges {G : Type} [AddCommMonoid G] (h : Respelled ps qs) :
    (∀ g : Point ℝ × Point ℝ → G, (∀ p, g (p, p) = 0) →
      ((Ring.edges qs).map g).sum = ((Ring.edges ps).map g).sum) ∨
    (∀ g : Point ℝ × Point ℝ → G, (∀ p, g (p, p) = 0) →
      ((Ring.edges qs).map g).sum = ((Ring.edges ps).map fun e => g e.swap).sum) := by
  induction h with
  | rotate ps n =>
    refine .inl fun g _ => ?_
    rw [Ring.edges_rotate]
    exact ((List.rotate_perm _ n).map g).sum_eq
  | reverse ps => exact .inr fun g _ => Ring.sum_edges_reverse g ps
  | double ps p qs =>
    refine .inl fun g hg => ?_
    cases ps with
    | nil =>
      rw [List.nil_append, List.nil_append, Ring.edges_cons, Ring.edges_cons]
      exact Ring.sum_legs_double hg [] p (qs ++ [p])
    | cons q ps =>
      rw [List.cons_append, List.cons_append, Ring.edges_cons, Ring.edges_cons, List.append_assoc,
        List.append_assoc]
      exact Ring.sum_legs_double hg (q :: ps) p (qs ++ [q])
  | close p ps =>
    refine .inl fun g hg => ?_
    rw [List.cons_append, Ring.edges_cons, Ring.edges_cons, List.append_assoc,
      List.singleton_append]
    exact Ring.sum_legs_double hg (p :: ps) p []
  | trans _ _ ih ih' =>
    obtain ih | ih := ih <;> obtain ih' | ih' := ih'
    · exact .inl fun g hg => (ih' g hg).trans (ih g hg)
    · exact .inr fun g hg => (ih' g hg).trans (ih (fun e => g e.swap) hg)
    · exact .inr fun g hg => (ih' g hg).trans (ih g hg)
    · exact .inl fun g hg => (ih' g hg).trans (ih (fun e => g e.swap) hg)

theorem steps_eq (h : Respelled ps qs) : Ring.steps qs = Ring.steps ps := by
  obtain h | h := h.sum_edges (G := ℕ)
  · exact h Ring.onward Ring.onward_self
  · rw [Ring.steps, h Ring.onward Ring.onward_self]
    simp only [Ring.onward_swap]
    rfl

theorem abs_sweptAbout_eq (h : Respelled ps qs) (o : Point ℝ) :
    |Ring.sweptAbout o qs / 2| = |Ring.sweptAbout o ps / 2| := by
  obtain h | h := h.sum_edges (G := ℝ)
  · rw [Ring.sweptAbout, h _ (Ring.swept_self o), ← Ring.sweptAbout]
  · have hturned := Ring.sum_edges_reverse
      (fun e => (e.1 - o).x * (e.2 - o).y - (e.1 - o).y * (e.2 - o).x) ps
    rw [Ring.sweptAbout, h _ (Ring.swept_self o), ← hturned, ← Ring.sweptAbout,
      Ring.sweptAbout_reverse, neg_div, abs_neg]

end Respelled

namespace Region

/-- The area of a region through separated points is the size of the signed area of all of them,
repeated ones included. However the boundary is written, it makes a region or none alike, and the
area is the same. -/
theorem area_of_respelled {ps : List (Point ℝ)} (hps : Point.Separated ps) :
    (∀ region, ofPoints? ps = some region → region.area = |Ring.signedArea ps|) ∧
      ∀ qs, Respelled ps qs → (ofPoints? qs).map area = (ofPoints? ps).map area := by
  constructor
  · intro region hregion
    have harea := map_area_ofPoints? hps
    rw [hregion, Option.map_some] at harea
    split at harea
    · cases harea
    · rename_i hsteps
      have hlen : 3 ≤ ps.length := (not_lt.mp hsteps).trans (Ring.steps_le_length ps)
      rw [Ring.signedArea_eq_sweptAbout hlen]
      exact Option.some.inj harea
  · intro qs hrespelled
    have hqs : Point.Separated qs := hps.subset fun p hp => (hrespelled.mem_iff p).mp hp
    rw [map_area_ofPoints? hps, map_area_ofPoints? hqs, hrespelled.steps_eq,
      hrespelled.abs_sweptAbout_eq]

/-- A triangle with repetitions of its first corner that meet at the seam, written from its second
corner on, the other way round and closed. -/
theorem area_of_respelled_triangle :
    let ps : List (Point ℝ) := [⟨0, 0⟩, ⟨0, 0⟩, ⟨2, 0⟩, ⟨0, 1⟩, ⟨0, 0⟩]
    let qs : List (Point ℝ) := [⟨0, 0⟩, ⟨0, 0⟩, ⟨0, 0⟩, ⟨0, 1⟩, ⟨2, 0⟩, ⟨0, 0⟩]
    let region : Region ℝ := ofRing [⟨0, 0⟩, ⟨2, 0⟩, ⟨0, 1⟩]
    Point.Separated ps ∧ ofPoints? ps = some region ∧ region.area = |Ring.signedArea ps| ∧
      Respelled ps qs ∧ (ofPoints? qs).map area = (ofPoints? ps).map area := by
  intro ps qs region
  have hab : Point.near ⟨0, 0⟩ (⟨2, 0⟩ : Point ℝ) = false := Point.near_eq_false (by norm_num)
  have hbc : Point.near ⟨2, 0⟩ (⟨0, 1⟩ : Point ℝ) = false := Point.near_eq_false (by norm_num)
  have hca : Point.near ⟨0, 1⟩ (⟨0, 0⟩ : Point ℝ) = false := Point.near_eq_false (by norm_num)
  have hac : Point.near ⟨0, 0⟩ (⟨0, 1⟩ : Point ℝ) = false := Point.near_eq_false (by norm_num)
  have hcorners : Point.Separated [⟨0, 0⟩, ⟨2, 0⟩, (⟨0, 1⟩ : Point ℝ)] := by
    apply Point.separated_of_pairwise
    simp [Point.near_eq_false_iff.mp, hab, hbc, hac]
  have hps : Point.Separated ps := hcorners.subset (by simp [ps])
  have hkept : Ring.kept ps = [⟨0, 0⟩, ⟨2, 0⟩, ⟨0, 1⟩] := by
    simp [ps, Ring.kept_cons, Point.dropNear, List.rdropWhile, Point.near_self, hab, hbc, hca, hac]
  have harea : ¬ Ring.signedArea [⟨0, 0⟩, ⟨2, 0⟩, (⟨0, 1⟩ : Point ℝ)] < 0 := by
    norm_num [Ring.signedArea, Ring.edges]
  have hregion : ofPoints? ps = some region := by
    rw [ofPoints?, Ring.ofPoints?_eq, hkept, if_neg (by simp), if_neg harea, Option.map_some]
  have hrespelled : Respelled ps qs :=
    ((Respelled.rotate ps 2).trans (.reverse _)).trans (.close _ _)
  obtain ⟨hsize, hsame⟩ := area_of_respelled hps
  exact ⟨hps, hregion, hsize region hregion, hrespelled, hsame qs hrespelled⟩

end Region

end PlanarArea
