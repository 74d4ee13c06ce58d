import Mathlib.Data.List.Cycle
import Mathlib.Data.List.DropRight
import PlanarArea.Proofs.Region.Inscribed

/-!
# Normal form of rings

A ring that is made from points has at least three corners, each apart from the next one all the way
round, and is not clockwise. A ring of this form is made from its own corners, whether or not the
first corner is repeated at the end.
-/
namespace PlanarArea

namespace Point

/-- At least so far from each other that the points do not count as one. -/
def Apart (p q : Point ℝ) : Prop :=
  coincidence ≤ (p - q).norm

variable {p q : Point ℝ}

theorem near_eq_false_iff : near p q = false ↔ Apart p q := by
  simp only [near, Apart, Scalar.real_lt, decide_eq_false_iff_not, not_lt, Scalar.real_le]

theorem norm_sub_comm (p q : Point ℝ) : (p - q).norm = (q - p).norm := by
  simp only [norm, sub_x, sub_y, Scalar.real_sub, Scalar.real_mul, Scalar.real_add]
  congr 1
  ring

theorem Apart.symm (h : Apart p q) : Apart q p := by
  rwa [Apart, norm_sub_comm]

instance : Std.Symm Apart := ⟨fun _ _ => Apart.symm⟩

theorem not_apart_self (p : Point ℝ) : ¬ Apart p p := by
  simp only [Apart, coincidence, norm, sub_x, sub_y, sub_self, mul_zero, add_zero,
    Scalar.real_sqrt, Real.sqrt_zero, Scalar.real_decimal]
  norm_num

theorem near_self (p : Point ℝ) : near p p = true := by
  rw [← Bool.not_eq_false, near_eq_false_iff]
  exact not_apart_self p

theorem near_comm (p q : Point ℝ) : near p q = near q p := by
  rw [near, near, norm_sub_comm]

theorem near_of_sq_lt (h : (p.x - q.x) ^ 2 + (p.y - q.y) ^ 2 < (1e-12) ^ 2) :
    near p q = true := by
  have hroot : Real.sqrt ((p.x - q.x) * (p.x - q.x) + (p.y - q.y) * (p.y - q.y)) < 1e-12 := by
    rw [Real.sqrt_lt' (by norm_num), ← sq, ← sq]
    exact h
  simpa only [near, norm, coincidence, sub_x, sub_y, Scalar.real_sub, Scalar.real_mul,
    Scalar.real_add, Scalar.real_sqrt, Scalar.real_lt, Scalar.real_decimal,
    decide_eq_true_eq] using hroot

/-- What is kept of a path is not near from one point to the next. -/
theorem isChain_near_dropNear {α : Type} [Scalar α] (last : Point α) (ps : List (Point α)) :
    List.IsChain (fun p q => near p q = false) (last :: dropNear last ps) := by
  induction ps generalizing last with
  | nil => exact List.isChain_singleton last
  | cons p ps ih =>
    unfold dropNear
    split
    · exact ih last
    · rename_i hnear
      exact List.isChain_cons_cons.mpr ⟨Bool.not_eq_true _ ▸ hnear, ih p⟩

theorem isChain_dropNear (last : Point ℝ) (ps : List (Point ℝ)) :
    List.IsChain Apart (last :: dropNear last ps) :=
  (isChain_near_dropNear last ps).imp fun _ _ => near_eq_false_iff.mp

end Point

namespace Ring

section Edges

variable {α : Type}

theorem edges_eq_zip_rotate (ring : Ring α) : ring.edges = ring.zip (ring.rotate 1) := by
  cases ring with
  | nil => rfl
  | cons p ps => simp [edges]

theorem length_edges (ring : Ring α) : ring.edges.length = ring.length := by
  rw [edges_eq_zip_rotate, List.length_zip, List.length_rotate, min_self]

/-- The edges go round with the corners. -/
theorem edges_rotate (ring : Ring α) (n : ℕ) : edges (ring.rotate n) = ring.edges.rotate n := by
  rw [edges_eq_zip_rotate, edges_eq_zip_rotate, List.rotate_rotate, Nat.add_comm,
    ← List.rotate_rotate]
  exact (List.zipWith_rotate_distrib Prod.mk ring (ring.rotate 1) n (by simp)).symm

/-- The other way round the edges are passed from their other ends. -/
theorem edges_reverse_perm (ring : Ring α) :
    List.Perm (edges ring.reverse) (ring.edges.map Prod.swap) := by
  have hshift : (ring.rotate 1).reverse.rotate 1 = ring.reverse := by
    cases ring with
    | nil => rfl
    | cons p ps => simp
  have hedges : (ring.edges.map Prod.swap).reverse.rotate 1 = edges ring.reverse := by
    rw [edges_eq_zip_rotate, edges_eq_zip_rotate, List.zip_swap, List.zip_eq_zipWith,
      List.zip_eq_zipWith, List.reverse_zipWith (by simp),
      List.zipWith_rotate_distrib _ _ _ _ (by simp), hshift]
  rw [← hedges]
  exact (List.rotate_perm _ 1).trans (List.reverse_perm _)

theorem sum_edges_reverse {G : Type} [AddCommMonoid G] (g : Point α × Point α → G)
    (ring : Ring α) :
    ((edges ring.reverse).map g).sum = (ring.edges.map fun e => g e.swap).sum := by
  rw [((edges_reverse_perm ring).map g).sum_eq, List.map_map]
  rfl

/-- The steps along a path. -/
def legs : List (Point α) → List (Point α × Point α)
  | p :: q :: path => (p, q) :: legs (q :: path)
  | _ => []

theorem edges_cons (p : Point α) (ps : List (Point α)) :
    edges (p :: ps) = legs (p :: (ps ++ [p])) := by
  have hlegs (q r : Point α) (path : List (Point α)) :
      (q :: path).zip (path ++ [r]) = legs (q :: (path ++ [r])) := by
    induction path generalizing q with
    | nil => rfl
    | cons s path ih => rw [List.cons_append, List.zip_cons_cons, ih, legs]
  exact hlegs p p ps

/-- A path is parted at any of its points. -/
theorem legs_append (path : List (Point α)) (p : Point α) (rest : List (Point α)) :
    legs (path ++ p :: rest) = legs (path ++ [p]) ++ legs (p :: rest) := by
  induction path with
  | nil => rfl
  | cons q path ih =>
    cases path with
    | nil => rfl
    | cons r path => simpa only [List.cons_append, legs, List.cons.injEq, true_and] using ih

theorem forall_mem_legs_iff {r : Point α → Point α → Prop} {path : List (Point α)} :
    (∀ e ∈ legs path, r e.1 e.2) ↔ List.IsChain r path := by
  induction path with
  | nil => simp [legs]
  | cons p path ih =>
    cases path with
    | nil => simp [legs]
    | cons q path => rw [legs, List.forall_mem_cons, ih, List.isChain_cons_cons]

/-- What holds of every edge holds of the corners all the way round. -/
theorem forall_mem_edges_iff {r : Point α → Point α → Prop} {ring : Ring α} :
    (∀ e ∈ ring.edges, r e.1 e.2) ↔ Cycle.Chain r (ring : Cycle (Point α)) := by
  cases ring with
  | nil => simp [edges]
  | cons p ps => rw [Cycle.chain_coe_cons, ← forall_mem_legs_iff, edges_cons]

end Edges

theorem sweptAbout_reverse (o : Point ℝ) (ring : Ring ℝ) :
    sweptAbout o ring.reverse = -ring.sweptAbout o := by
  rw [sweptAbout, sweptAbout, sum_edges_reverse, List.sum_neg, List.map_map]
  congr 1
  apply List.map_congr_left
  intro e _
  simp only [Function.comp, Prod.fst_swap, Prod.snd_swap]
  ring

theorem signedArea_eq_sweptAbout {ring : Ring ℝ} (h : 3 ≤ ring.length) :
    ring.signedArea = ring.sweptAbout ⟨0, 0⟩ / 2 := by
  rw [signedArea, if_neg (not_lt.mpr h), sweptAbout]
  simp only [Scalar.real_sum, Scalar.real_mul, Scalar.real_sub, Scalar.real_decimal, Point.sub_x,
    Point.sub_y, sub_zero]
  rw [div_eq_inv_mul]
  congr 1
  · norm_num
  · congr 1
    apply List.map_congr_left
    intro e _
    ring

/-- The enclosed area is the size of the signed one. -/
theorem abs_signedArea {ring : Ring ℝ} (h : 3 ≤ ring.length) : |ring.signedArea| = ring.area := by
  rw [signedArea_eq_sweptAbout h, area_eq_sweptAbout]

theorem signedArea_reverse (ring : Ring ℝ) : signedArea ring.reverse = -ring.signedArea := by
  by_cases h : 3 ≤ ring.length
  · rw [signedArea_eq_sweptAbout h, signedArea_eq_sweptAbout (by rwa [List.length_reverse]),
      sweptAbout_reverse, neg_div]
  · rw [signedArea, signedArea, if_pos (by rw [List.length_reverse]; omega), if_pos (by omega),
      Scalar.real_zero, neg_zero]

/-- No corner that is left is near the next one, all the way round. -/
theorem chain_openSeam {α : Type} [Scalar α] {ps : List (Point α)}
    (hcomm : ∀ p ∈ ps, ∀ q ∈ ps, Point.near p q = Point.near q p)
    (h : 2 ≤ List.length (openSeam (Point.spaced ps))) :
    Cycle.Chain (fun p q => Point.near p q = false)
      (openSeam (Point.spaced ps) : Cycle (Point α)) := by
  cases ps with
  | nil => exact absurd h (by simp [openSeam])
  | cons p ps =>
    have hopen : openSeam (Point.spaced (p :: ps)) =
        p :: (Point.dropNear p ps).rdropWhile (Point.near p) := rfl
    rw [hopen] at h ⊢
    have hne : (Point.dropNear p ps).rdropWhile (Point.near p) ≠ [] := by
      intro hnil
      simp [hnil] at h
    have hsplit : (p :: (Point.dropNear p ps).rdropWhile (Point.near p)) ++
        (Point.dropNear p ps).rtakeWhile (Point.near p) = p :: Point.dropNear p ps := by
      rw [List.cons_append, List.rdropWhile_append_rtakeWhile]
    have hpath := Point.isChain_near_dropNear p ps
    rw [← hsplit] at hpath
    rw [Cycle.chain_coe_cons, ← List.cons_append, List.isChain_append]
    refine ⟨hpath.left_of_append, List.isChain_singleton p, ?_⟩
    intro last hlast first hfirst
    obtain rfl : p = first := by simpa using hfirst
    rw [List.getLast?_cons_of_ne_nil hne, List.getLast?_eq_some_getLast hne,
      Option.mem_some_iff] at hlast
    have hseam := List.rdropWhile_last_not (Point.near p) (Point.dropNear p ps) hne
    have hmem : last ∈ p :: ps := by
      rw [← hlast]
      exact List.mem_cons_of_mem p ((Point.dropNear_sublist p ps).subset
        ((List.rdropWhile_prefix _ _).subset (List.getLast_mem hne)))
    rw [hlast, Bool.not_eq_true] at hseam
    rw [hcomm last hmem p List.mem_cons_self, hseam]

/-- The points that are left of a list when repeated ones are dropped, the seam included. -/
noncomputable def kept (ps : List (Point ℝ)) : Ring ℝ :=
  openSeam (Point.spaced ps)

theorem kept_cons (p : Point ℝ) (ps : List (Point ℝ)) :
    kept (p :: ps) = p :: (Point.dropNear p ps).rdropWhile (Point.near p) := rfl

theorem ofPoints?_eq (ps : List (Point ℝ)) :
    ofPoints? ps = if List.length (kept ps) < 3 then none
      else some (if signedArea (kept ps) < 0 then (kept ps).reverse else kept ps) := by
  have hfinite : ps.all Point.isFinite = true := by simp [Point.isFinite]
  have hkept : openSeam (Point.spaced ps) = kept ps := rfl
  simp only [ofPoints?, if_pos hfinite, hkept, Scalar.real_lt, Scalar.real_zero]
  split_ifs <;> rfl

/-- What is left is apart from one corner to the next, the last and the first included. -/
theorem chain_kept {ps : List (Point ℝ)} (h : 2 ≤ List.length (kept ps)) :
    Cycle.Chain Point.Apart (kept ps : Cycle (Point ℝ)) :=
  (chain_openSeam (fun p _ q _ => Point.near_comm p q) h).imp
    fun _ _ => Point.near_eq_false_iff.mp

/-- Corners that are apart all the way round are all kept, and a repetition of the first one is
dropped. -/
theorem kept_of_chain {ring : Ring ℝ} (h : Cycle.Chain Point.Apart (ring : Cycle (Point ℝ))) :
    kept ring = ring ∧ kept (ring ++ ring.take 1) = ring := by
  cases ring with
  | nil => exact ⟨rfl, rfl⟩
  | cons first rest =>
    rw [Cycle.chain_coe_cons, ← List.cons_append] at h
    obtain ⟨hopen, -, hends⟩ := List.isChain_append.mp h
    have hnear : ∀ p q : Point ℝ, Point.Apart p q → Point.near p q = false :=
      fun _ _ => Point.near_eq_false_iff.mpr
    have hclosed : (first :: (rest ++ [first])).IsChain Point.Apart := h
    have hseam : rest.rdropWhile (Point.near first) = rest := by
      rw [List.rdropWhile_eq_self_iff]
      intro hne
      have hlast := hends (rest.getLast hne)
        (by rw [List.getLast?_cons_of_ne_nil hne, List.getLast?_eq_some_getLast hne]; rfl)
        first rfl
      rw [Bool.not_eq_true]
      exact hnear first _ hlast.symm
    constructor
    · rw [kept_cons, dropNear_of_isChain (hopen.imp hnear), hseam]
    · rw [List.take_succ_cons, List.take_zero, List.cons_append, kept_cons,
        dropNear_of_isChain (hclosed.imp hnear),
        List.rdropWhile_concat_pos _ _ _ (Point.near_self first), hseam]

/-- At least three corners, each apart from the next one all the way round, in an order that is not
clockwise. -/
structure Normal (ring : Ring ℝ) : Prop where
  three_le : 3 ≤ ring.length
  chain : Cycle.Chain Point.Apart (ring : Cycle (Point ℝ))
  signedArea_nonneg : 0 ≤ ring.signedArea

theorem chain_reverse {ring : Ring ℝ} (h : Cycle.Chain Point.Apart (ring : Cycle (Point ℝ))) :
    Cycle.Chain Point.Apart (ring.reverse : Cycle (Point ℝ)) := by
  rw [← forall_mem_edges_iff] at h ⊢
  intro e he
  obtain ⟨e', he', rfl⟩ := List.mem_map.mp ((edges_reverse_perm ring).mem_iff.mp he)
  exact (h e' he').symm

/-- Corners that are apart all the way round and enclose an area make the same ring from either
end. -/
theorem ofPoints?_reverse {ring : Ring ℝ}
    (hchain : Cycle.Chain Point.Apart (ring : Cycle (Point ℝ)))
    (harea : 3 ≤ ring.length → ring.signedArea ≠ 0) : ofPoints? ring.reverse = ofPoints? ring := by
  rw [ofPoints?_eq, ofPoints?_eq, (kept_of_chain hchain).1,
    (kept_of_chain (chain_reverse hchain)).1, List.length_reverse, signedArea_reverse,
    List.reverse_reverse]
  by_cases hlen : List.length ring < 3
  · rw [if_pos hlen, if_pos hlen]
  · rw [if_neg hlen, if_neg hlen]
    cases lt_or_gt_of_ne (harea (not_lt.mp hlen)) with
    | inl hneg => rw [if_pos hneg, if_neg (by linarith)]
    | inr hpos => rw [if_neg hpos.not_gt, if_pos (neg_lt_zero.mpr hpos)]

theorem normal_of_ofPoints? {ps : List (Point ℝ)} {ring : Ring ℝ} (h : ofPoints? ps = some ring) :
    ring.Normal := by
  rw [ofPoints?_eq] at h
  split at h
  · cases h
  · rename_i hlen
    rw [not_lt] at hlen
    have hchain := chain_kept (le_trans (by omega) hlen)
    split at h
    · rename_i hneg
      cases h
      refine ⟨by rwa [List.length_reverse], chain_reverse hchain, ?_⟩
      rw [signedArea_reverse]
      exact neg_nonneg.mpr hneg.le
    · rename_i hnonneg
      cases h
      exact ⟨hlen, hchain, not_lt.mp hnonneg⟩

/-- A ring in normal form stays as it is. -/
theorem Normal.ofPoints?_eq_some {ring : Ring ℝ} (h : ring.Normal) {ps : List (Point ℝ)}
    (hkept : kept ps = ring) : ofPoints? ps = some ring := by
  rw [ofPoints?_eq, hkept, if_neg (not_lt.mpr h.three_le), if_neg (not_lt.mpr h.signedArea_nonneg)]

end Ring

namespace Region

/-- A region that is made from points is the inside of one ring in normal form. Its corners are some
of the points, in their order or in the opposite one, and the region is made again from its corners,
whether or not the ring is closed by its first corner. -/
theorem ofPoints?_normal_form {ps : List (Point ℝ)} {region : Region ℝ}
    (h : ofPoints? ps = some region) :
    ∃ ring : Ring ℝ, region = ofRing ring ∧ ring.Normal ∧
      (∃ chosen, List.Sublist chosen ps ∧ (ring = chosen ∨ ring = chosen.reverse)) ∧
      ofPoints? ring = some region ∧ ofPoints? (ring ++ ring.take 1) = some region := by
  obtain ⟨ring, hring, rfl⟩ := Option.map_eq_some_iff.mp h
  have hnormal := Ring.normal_of_ofPoints? hring
  obtain ⟨hopen, hclosed⟩ := Ring.kept_of_chain hnormal.chain
  refine ⟨ring, rfl, hnormal, ?_, ?_, ?_⟩
  · cases Ring.sublist_of_ofPoints? hring with
    | inl hsub => exact ⟨ring, hsub, .inl rfl⟩
    | inr hsub =>
      refine ⟨ring.reverse, ?_, .inr (List.reverse_reverse ring).symm⟩
      rw [← List.reverse_reverse ps]
      exact hsub.reverse
  · rw [ofPoints?, hnormal.ofPoints?_eq_some hopen, Option.map_some]
  · rw [ofPoints?, hnormal.ofPoints?_eq_some hclosed, Option.map_some]

/-- A clockwise triangle, written with points next to its first corner after it and at the end. -/
theorem ofPoints?_normal_form_triangle :
    let ps : List (Point ℝ) := [⟨0, 0⟩, ⟨1e-13, 0⟩, ⟨0, 1⟩, ⟨1, 0⟩, ⟨0, 1e-13⟩]
    let ring : Ring ℝ := [⟨1, 0⟩, ⟨0, 1⟩, ⟨0, 0⟩]
    ofPoints? ps = some (ofRing ring) ∧ ring.Normal ∧
      (∃ chosen, List.Sublist chosen ps ∧ (ring = chosen ∨ ring = chosen.reverse)) ∧
      ofPoints? ring = some (ofRing ring) ∧
      ofPoints? (ring ++ ring.take 1) = some (ofRing ring) := by
  intro ps ring
  have hfirst : Point.near ⟨0, 0⟩ (⟨1e-13, 0⟩ : Point ℝ) = true :=
    Point.near_of_sq_lt (by norm_num)
  have hlast : Point.near ⟨0, 0⟩ (⟨0, 1e-13⟩ : Point ℝ) = true :=
    Point.near_of_sq_lt (by norm_num)
  have hup : Point.near ⟨0, 0⟩ (⟨0, 1⟩ : Point ℝ) = false := Point.near_eq_false (by norm_num)
  have hdown : Point.near ⟨0, 1⟩ (⟨1, 0⟩ : Point ℝ) = false := Point.near_eq_false (by norm_num)
  have hback : Point.near ⟨1, 0⟩ (⟨0, 1e-13⟩ : Point ℝ) = false :=
    Point.near_eq_false (by norm_num)
  have hseam : Point.near ⟨0, 0⟩ (⟨1, 0⟩ : Point ℝ) = false := Point.near_eq_false (by norm_num)
  have hkept : Ring.kept ps = ring.reverse := by
    simp [ps, ring, Ring.kept_cons, Point.dropNear, List.rdropWhile, hfirst, hlast, hup, hdown,
      hback, hseam]
  have harea : Ring.signedArea ring.reverse < 0 := by
    norm_num [ring, Ring.signedArea, Ring.edges]
  have hregion : ofPoints? ps = some (ofRing ring) := by
    rw [ofPoints?, Ring.ofPoints?_eq, hkept, if_neg (by simp [ring]), if_pos harea,
      List.reverse_reverse, Option.map_some]
  obtain ⟨ring', hring, hnormal, hchosen, hopen, hclosed⟩ := ofPoints?_normal_form hregion
  obtain rfl : ring = ring' := by simpa [ofRing] using hring
  exact ⟨hregion, hnormal, hchosen, hopen, hclosed⟩

end Region

end PlanarArea
