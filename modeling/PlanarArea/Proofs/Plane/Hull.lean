import PlanarArea.Proofs.Plane.Chain
import PlanarArea.Proofs.Region.Spelling

/-!
# Convex hulls

The candidates for corners of a hull are the given points from left to right, each once. One chain
leads from the first candidate to the last one and another leads back, each turning left and keeping
all points on its left. The two go round together: they turn left where they meet, too, unless all
points lie on one line.
-/
namespace PlanarArea

namespace Point

/-- On one line. -/
def Aligned (ps : List (Point ℝ)) : Prop :=
  ∃ a b, a ≠ b ∧ ∀ p ∈ ps, cross a b p = 0

variable {ps qs : List (Point ℝ)} {a b c : Point ℝ}

theorem Aligned.subset (h : Aligned ps) (hsub : qs ⊆ ps) : Aligned qs := by
  obtain ⟨a, b, hne, hline⟩ := h
  exact ⟨a, b, hne, fun p hp => hline p (hsub hp)⟩

theorem aligned_of_subset_pair (h : ps ⊆ [a, b]) : Aligned ps := by
  refine Aligned.subset ?_ h
  by_cases hab : a = b
  · refine ⟨a, ⟨a.x + 1, a.y⟩, fun heq => ?_, ?_⟩
    · have hx : a.x = a.x + 1 := congrArg x heq
      linarith
    · simp [← hab, cross_start]
  · exact ⟨a, b, hab, by simp [cross_start, cross_stop]⟩

theorem aligned_of_length_lt (h : ps.length < 3) : Aligned ps := by
  match ps, h with
  | [], _ => exact aligned_of_subset_pair (a := ⟨0, 0⟩) (b := ⟨0, 0⟩) (List.nil_subset _)
  | [a], _ => exact aligned_of_subset_pair (a := a) (b := a) (by simp)
  | [a, b], _ => exact aligned_of_subset_pair (List.Subset.refl [a, b])

/-- Points on one line never turn. -/
theorem Aligned.cross_eq_zero (h : Aligned ps) (ha : a ∈ ps) (hb : b ∈ ps) (hc : c ∈ ps) :
    cross a b c = 0 := by
  obtain ⟨o, o', hne, hline⟩ := h
  have ha := hline a ha
  have hb := hline b hb
  have hc := hline c hc
  by_contra hturn
  rw [cross_eq] at ha hb hc hturn
  refine hne (eq_of_coords ?_ ?_)
  · refine (sub_eq_zero.mp ((mul_eq_zero.mp ?_).resolve_right hturn)).symm
    linear_combination (b.x - a.x) * (hc - ha) - (c.x - a.x) * (hb - ha)
  · refine (sub_eq_zero.mp ((mul_eq_zero.mp ?_).resolve_right hturn)).symm
    linear_combination (b.y - a.y) * (hc - ha) - (c.y - a.y) * (hb - ha)

/-- If a path reaches the last point and goes back without turning left there, what lies left of
both steps lies on their line. -/
theorem Sweeping.cross_eq_zero_of_seam {before : Point ℝ → Point ℝ → Prop} (h : Sweeping before)
    {last p : Point ℝ} (ha : before a last) (hb : before b last) (hp : before p last)
    (hseam : cross a last b ≤ 0) (hin : 0 ≤ cross a last p) (hout : 0 ≤ cross last b p) :
    cross a last p = 0 := by
  rw [cross_rotate b, cross_eq_wedge_ends, wedge_swap, neg_nonpos] at hseam
  rw [cross_rotate p, cross_eq_wedge_ends] at hin ⊢
  rw [← cross_rotate, cross_eq_wedge_ends] at hout
  have hback := h.turn_trans ha hb hp hseam hout
  rw [wedge_swap, neg_nonneg] at hback
  exact le_antisymm hback hin

end Point

namespace Ring

variable {α : Type} {p : Point α} {path : List (Point α)} {e : Point α × Point α}

theorem legs_concat_ne_nil (path : List (Point α)) (p q : Point α) :
    legs (q :: path ++ [p]) ≠ [] := by
  cases path <;> simp [legs]

theorem fst_of_head?_legs (h : e ∈ (legs (p :: path)).head?) : e.1 = p := by
  cases path with
  | nil => simp [legs] at h
  | cons q path =>
    obtain rfl : (p, q) = e := by simpa [legs] using h
    rfl

theorem snd_of_getLast?_legs (h : e ∈ (legs (path ++ [p])).getLast?) : e.2 = p := by
  have hback : e.swap ∈ (legs (p :: path.reverse)).head? := by
    rw [← List.reverse_concat, legs_reverse, List.head?_reverse, List.getLast?_map]
    exact Option.mem_map_of_mem Prod.swap h
  exact fst_of_head?_legs hback

theorem isChain_legs {r : Point α → Point α → Point α → Prop}
    (h : ∀ {a b c}, List.Sublist [a, b, c] path → r a b c) :
    (legs path).IsChain fun e f => r e.1 e.2 f.2 := by
  induction path with
  | nil => exact List.isChain_nil
  | cons p path ih =>
    match path, ih with
    | [], _ => exact List.isChain_nil
    | [q], _ => exact List.isChain_singleton _
    | q :: q' :: path, ih =>
      refine List.isChain_cons_cons.mpr ⟨h ?_, ih fun hsub => h (hsub.cons p)⟩
      exact (((List.nil_sublist path).cons_cons q').cons_cons q).cons_cons p

/-- Each edge turns left into the next one, the last one into the first one. -/
def TurnsLeft (ring : Ring ℝ) : Prop :=
  Cycle.Chain (fun e f => 0 < Point.cross e.1 e.2 f.2) (ring.edges : Cycle (Point ℝ × Point ℝ))

/-- Two chains make a cycle if the end of each goes with the start of the other. -/
theorem chain_append {r : α → α → Prop} {xs ys : List α} (hxs : xs ≠ []) (hys : ys ≠ [])
    (hx : xs.IsChain r) (hy : ys.IsChain r) (hxy : ∀ a ∈ xs.getLast?, ∀ b ∈ ys.head?, r a b)
    (hyx : ∀ a ∈ ys.getLast?, ∀ b ∈ xs.head?, r a b) :
    Cycle.Chain r ((xs ++ ys : List α) : Cycle α) := by
  obtain ⟨a, xs, rfl⟩ := List.exists_cons_of_ne_nil hxs
  rw [List.cons_append, Cycle.chain_coe_cons, ← List.cons_append, ← List.cons_append,
    List.isChain_append, List.isChain_append]
  refine ⟨⟨hx, hy, hxy⟩, List.isChain_singleton a, ?_⟩
  rw [List.getLast?_append_of_ne_nil _ hys]
  exact hyx

end Ring

namespace Hull

open Point

variable {ps qs : List (Point ℝ)} {p q : Point ℝ}

section Candidates

theorem leftToRight_iff : leftToRight p q = true ↔ p = q ∨ Before p q := by
  simp only [leftToRight, Scalar.real_lt]
  constructor
  · intro h
    split_ifs at h with hx hx'
    · exact .inr (.inl hx)
    · have hxeq : p.x = q.x := le_antisymm (not_lt.mp hx') (not_lt.mp hx)
      have hy : p.y ≤ q.y := by simpa using h
      exact hy.eq_or_lt.imp (eq_of_coords hxeq) fun hlt => .inr ⟨hxeq, hlt⟩
  · rintro (rfl | hx | ⟨hx, hy⟩)
    · simp
    · simp [hx]
    · simp [hx, hy.le]

/-- The points from left to right, equal ones next to each other. -/
theorem pairwise_mergeSort (ps : List (Point ℝ)) :
    (ps.mergeSort leftToRight).Pairwise fun p q => p = q ∨ Before p q := by
  have htrans : ∀ a b c : Point ℝ, leftToRight a b → leftToRight b c → leftToRight a c := by
    intro a b c
    rw [leftToRight_iff, leftToRight_iff, leftToRight_iff]
    rintro (rfl | hab) (rfl | hbc)
    · exact .inl rfl
    · exact .inr hbc
    · exact .inr hab
    · exact .inr (sweeping_before.trans hab hbc)
  have htotal : ∀ a b : Point ℝ, leftToRight a b || leftToRight b a := by
    intro a b
    rw [Bool.or_eq_true, leftToRight_iff, leftToRight_iff]
    by_cases hab : a = b
    · exact .inl (.inl hab)
    · exact (sweeping_before.total hab).imp .inr .inr
  exact (List.pairwise_mergeSort htrans htotal ps).imp leftToRight_iff.mp

theorem mergeSort_eq_of_perm (h : qs.Perm ps) :
    qs.mergeSort leftToRight = ps.mergeSort leftToRight := by
  refine List.Perm.eq_of_pairwise (fun a b _ _ hab hba => ?_) (pairwise_mergeSort qs)
    (pairwise_mergeSort ps) ?_
  · obtain rfl | hab := hab
    · rfl
    · exact hba.elim Eq.symm fun hba => absurd hba (sweeping_before.asymm hab)
  · exact (List.mergeSort_perm qs _).trans (h.trans (List.mergeSort_perm ps _).symm)

theorem candidates_eq (ps : List (Point ℝ)) :
    candidates ps = spaced (ps.mergeSort leftToRight) := by
  have hfinite : ps.filter isFinite = ps := by simp [isFinite]
  rw [candidates, hfinite]

theorem candidates_eq_of_perm (h : qs.Perm ps) : candidates qs = candidates ps := by
  rw [candidates_eq, candidates_eq, mergeSort_eq_of_perm h]

/-- The candidates are in order, and none comes twice. -/
theorem pairwise_candidates (ps : List (Point ℝ)) : (candidates ps).Pairwise Before := by
  rw [candidates_eq]
  have hsort := (pairwise_mergeSort ps).sublist (spaced_sublist _)
  have hapart : (spaced (ps.mergeSort leftToRight)).IsChain Apart := by
    cases ps.mergeSort leftToRight with
    | nil => exact List.isChain_nil
    | cons p ps => exact isChain_dropNear p ps
  have hstrict : (spaced (ps.mergeSort leftToRight)).IsChain Before := by
    rw [← Ring.forall_mem_legs_iff] at hapart ⊢
    intro e he
    have horder := List.pairwise_iff_forall_sublist.mp hsort (Ring.sublist_of_mem_legs he)
    refine horder.resolve_left fun heq => ?_
    exact not_apart_self e.1 (heq ▸ hapart e he)
  have : Trans Before Before Before := ⟨sweeping_before.trans⟩
  exact hstrict.pairwise

theorem subset_dropNear {last : Point ℝ} (hps : Separated (last :: ps)) :
    ps ⊆ last :: dropNear last ps := by
  induction ps generalizing last with
  | nil => exact List.nil_subset _
  | cons p ps ih =>
    have hps' := hps.subset (List.subset_cons_self last (p :: ps))
    unfold dropNear
    split
    · rename_i hnear
      obtain rfl := (hps.near_iff (by simp) (by simp)).mp hnear
      exact List.cons_subset.mpr ⟨List.mem_cons_self, ih hps'⟩
    · exact fun q hq => List.mem_cons_of_mem last
        (List.cons_subset.mpr ⟨List.mem_cons_self, ih hps'⟩ hq)

/-- Of separated points every one is a candidate. -/
theorem mem_candidates (hps : Separated ps) : p ∈ candidates ps ↔ p ∈ ps := by
  rw [candidates_eq, ← (List.mergeSort_perm ps leftToRight).mem_iff]
  have hsort := hps.subset (List.mergeSort_perm ps leftToRight).subset
  refine ⟨fun hp => (spaced_sublist _).subset hp, fun hp => ?_⟩
  cases hps : ps.mergeSort leftToRight with
  | nil => rwa [hps] at hp
  | cons q qs =>
    rw [hps] at hp hsort
    exact List.cons_subset.mpr ⟨List.mem_cons_self, subset_dropNear hsort⟩ hp

end Candidates

/-- What a hull is: corners among the points, each once, in an order in which each edge turns left
into the next one, and no point right of any edge. -/
structure Surrounds (hull ps : List (Point ℝ)) : Prop where
  three_le : 3 ≤ hull.length
  nodup : hull.Nodup
  subset : hull ⊆ ps
  turnsLeft : Ring.TurnsLeft hull
  bounds : ∀ e ∈ Ring.edges hull, ∀ p ∈ ps, 0 ≤ cross e.1 e.2 p

theorem LeftPath.eq_nil_of_aligned {before : Point ℝ → Point ℝ → Prop} {first last : Point ℝ}
    {path : List (Point ℝ)} (h : LeftPath before ps (first :: path ++ [last]))
    (hline : Aligned ps) : path = [] := by
  cases path with
  | nil => rfl
  | cons p path =>
    have hturn : 0 < cross first p last := h.turns (by simp)
    have hflat := hline.cross_eq_zero (h.subset (a := first) (by simp))
      (h.subset (a := p) (by simp)) (h.subset (a := last) (by simp))
    exact absurd hflat hturn.ne'

/-- The path along all sorted points on their right from the first one to the last one, and the path
back. -/
structure RoundTrip (before : Point ℝ → Point ℝ → Prop) (ps : List (Point ℝ)) (first last : Point ℝ)
    (there back : List (Point ℝ)) : Prop where
  sorted : ps.Pairwise before
  head? : ps.head? = some first
  getLast? : ps.getLast? = some last
  ne : first ≠ last
  path_there : LeftPath before ps (first :: there ++ [last])
  path_back : LeftPath (fun a b => before b a) ps.reverse (last :: back ++ [first])

namespace RoundTrip

variable {before : Point ℝ → Point ℝ → Prop} {first last : Point ℝ} {there back : List (Point ℝ)}

theorem flip (h : RoundTrip before ps first last there back) :
    RoundTrip (fun a b => before b a) ps.reverse last first back there where
  sorted := List.pairwise_reverse.mpr h.sorted
  head? := by rw [List.head?_reverse, h.getLast?]
  getLast? := by rw [List.getLast?_reverse, h.head?]
  ne := h.ne.symm
  path_there := h.path_back
  path_back := by
    rw [List.reverse_reverse]
    exact h.path_there

theorem before_last (h : RoundTrip before ps first last there back) (hp : p ∈ ps) :
    p = last ∨ before p last := by
  obtain ⟨init, rfl⟩ := List.getLast?_eq_some_iff.mp h.getLast?
  obtain hp | hp := List.mem_append.mp hp
  · exact .inr ((List.pairwise_append.mp h.sorted).2.2 p hp last (by simp))
  · exact .inl (List.mem_singleton.mp hp)

/-- The way there turns left into the way back. -/
theorem cross_seam_pos (h : RoundTrip before ps first last there back) (hs : Sweeping before)
    (hspan : ¬ Aligned ps) {e f : Point ℝ × Point ℝ}
    (he : e ∈ (Ring.legs (first :: there ++ [last])).getLast?)
    (hf : f ∈ (Ring.legs (last :: back ++ [first])).head?) : 0 < cross e.1 e.2 f.2 := by
  have hstop : e.2 = last := Ring.snd_of_getLast?_legs he
  have hstart : f.1 = last := Ring.fst_of_head?_legs hf
  have he := List.mem_of_getLast? he
  have hf := List.mem_of_head? hf
  have hin : before e.1 e.2 :=
    List.pairwise_iff_forall_sublist.mp h.path_there.sorted (Ring.sublist_of_mem_legs he)
  have hout : before f.2 f.1 :=
    List.pairwise_iff_forall_sublist.mp h.path_back.sorted (Ring.sublist_of_mem_legs hf)
  by_contra hseam
  refine hspan ⟨e.1, e.2, fun heq => hs.irrefl e.2 (heq ▸ hin), fun p hp => ?_⟩
  have hleft := h.path_there.bounds e he p hp
  have hleft' := h.path_back.bounds f hf p (List.mem_reverse.mpr hp)
  rw [hstart] at hout hleft'
  rw [hstop] at hin hseam hleft ⊢
  obtain rfl | hp := h.before_last hp
  · exact cross_stop e.1 p
  · exact hs.cross_eq_zero_of_seam hin hout hp (not_lt.mp hseam) hleft hleft'

theorem edges_eq (first last : Point ℝ) (there back : List (Point ℝ)) :
    Ring.edges (first :: there ++ last :: back) =
      Ring.legs (first :: there ++ [last]) ++ Ring.legs (last :: back ++ [first]) := by
  rw [List.cons_append, Ring.edges_cons, List.append_assoc, ← List.cons_append, List.cons_append]
  exact Ring.legs_append (first :: there) last (back ++ [first])

/-- The way back meets none of the points of the way there again. -/
theorem nodup (h : RoundTrip before ps first last there back) (hs : Sweeping before) :
    (first :: there ++ last :: back).Nodup := by
  have hne : ∀ {a b : Point ℝ}, before a b → a ≠ b := fun hab heq => hs.irrefl _ (heq ▸ hab)
  obtain ⟨hthere, -, hlast⟩ := List.pairwise_append.mp h.path_there.sorted
  obtain ⟨hback, -, hfirst⟩ := List.pairwise_append.mp h.path_back.sorted
  refine List.nodup_append.mpr ⟨hthere.imp hne, hback.imp fun hab => (hne hab).symm, ?_⟩
  rintro p hp q hq rfl
  have hbefore := hlast p hp last (by simp)
  have hafter := hfirst p hq first (by simp)
  have hp : p ∈ there := (List.mem_cons.mp hp).resolve_left fun heq => hs.irrefl _ (heq ▸ hafter)
  have hq : p ∈ back := (List.mem_cons.mp hq).resolve_left fun heq => hs.irrefl _ (heq ▸ hbefore)
  -- A point of both ways would lie right of the line from the first point to the last one, and
  -- left of it.
  have hright := h.path_there.turns
    (((List.singleton_sublist.mpr hp).append (List.Sublist.refl [last])).cons_cons first)
  have hleft := h.path_back.turns
    (((List.singleton_sublist.mpr hq).append (List.Sublist.refl [first])).cons_cons last)
  rw [cross_rotate, cross_flip] at hleft
  linarith

theorem turnsLeft (h : RoundTrip before ps first last there back) (hs : Sweeping before)
    (hspan : ¬ Aligned ps) : Ring.TurnsLeft (first :: there ++ last :: back) := by
  have hspan' : ¬ Aligned ps.reverse := fun hline => hspan (hline.subset (by simp))
  rw [Ring.TurnsLeft, edges_eq]
  apply Ring.chain_append
  · exact Ring.legs_concat_ne_nil there last first
  · exact Ring.legs_concat_ne_nil back first last
  · exact Ring.isChain_legs h.path_there.turns
  · exact Ring.isChain_legs h.path_back.turns
  · exact fun e he f hf => h.cross_seam_pos hs hspan he hf
  · exact fun e he f hf => h.flip.cross_seam_pos hs.flip hspan' he hf

/-- Points on one line are passed straight there and straight back. -/
theorem length_lt_iff (h : RoundTrip before ps first last there back) :
    (first :: there ++ last :: back).length < 3 ↔ Aligned ps := by
  constructor
  · intro hlen
    obtain ⟨rfl, rfl⟩ : there = [] ∧ back = [] := by
      simp only [List.length_append, List.length_cons] at hlen
      exact ⟨List.eq_nil_of_length_eq_zero (by omega), List.eq_nil_of_length_eq_zero (by omega)⟩
    refine ⟨first, last, h.ne, fun p hp => ?_⟩
    have hleft := h.path_there.bounds (first, last) (by simp [Ring.legs]) p hp
    have hright := h.path_back.bounds (last, first) (by simp [Ring.legs]) p
      (List.mem_reverse.mpr hp)
    rw [cross_swap, neg_nonneg] at hright
    exact le_antisymm hright hleft
  · intro hline
    obtain rfl := h.path_there.eq_nil_of_aligned hline
    obtain rfl := h.path_back.eq_nil_of_aligned (hline.subset (by simp))
    simp

theorem surrounds (h : RoundTrip before ps first last there back) (hs : Sweeping before)
    (hspan : ¬ Aligned ps) : Surrounds (first :: there ++ last :: back) ps where
  three_le := not_lt.mp (mt h.length_lt_iff.mp hspan)
  nodup := h.nodup hs
  subset p hp := by
    obtain hp | hp := List.mem_append.mp hp
    · exact h.path_there.subset (List.mem_append_left _ hp)
    · exact List.mem_reverse.mp (h.path_back.subset (List.mem_append_left _ hp))
  turnsLeft := h.turnsLeft hs hspan
  bounds e he p hp := by
    rw [edges_eq] at he
    obtain he | he := List.mem_append.mp he
    · exact h.path_there.bounds e he p hp
    · exact h.path_back.bounds e he p (List.mem_reverse.mpr hp)

end RoundTrip

theorem exists_chain_eq {before : Point ℝ → Point ℝ → Prop} (hs : Sweeping before)
    (hsort : ps.Pairwise before) {first last : Point ℝ} (hfirst : ps.head? = some first)
    (hlast : ps.getLast? = some last) (hne : first ≠ last) :
    ∃ path, chain ps = first :: path := by
  have hhead := (leftPath_chain hs hsort hlast).head?
  rw [hfirst] at hhead
  cases hchain : chain ps with
  | nil =>
    rw [hchain] at hhead
    exact absurd (Option.some.inj hhead).symm hne
  | cons p path =>
    rw [hchain] at hhead
    exact ⟨path, by rw [Option.some.inj hhead]⟩

/-- The two chains through sorted points make a round trip. -/
theorem exists_roundTrip {before : Point ℝ → Point ℝ → Prop} (hs : Sweeping before)
    (hsort : ps.Pairwise before) (hlen : 2 ≤ ps.length) :
    ∃ first last there back, RoundTrip before ps first last there back ∧
      chain ps ++ chain ps.reverse = first :: there ++ last :: back := by
  obtain ⟨first, rest, rfl⟩ := List.exists_cons_of_length_pos (Nat.zero_lt_of_lt hlen)
  have hrest : rest ≠ [] := List.ne_nil_of_length_pos (Nat.succ_lt_succ_iff.mp hlen)
  have hlast : (first :: rest).getLast? = some (rest.getLast hrest) := by
    rw [List.getLast?_cons_of_ne_nil hrest, List.getLast?_eq_some_getLast hrest]
  have hne : first ≠ rest.getLast hrest := fun heq =>
    hs.irrefl first (heq ▸ (List.pairwise_cons.mp hsort).1 _ (List.getLast_mem hrest))
  have hback := List.pairwise_reverse.mpr hsort
  have hback_first : (first :: rest).reverse.head? = some (rest.getLast hrest) := by
    rw [List.head?_reverse, hlast]
  have hback_last : (first :: rest).reverse.getLast? = some first := by
    rw [List.getLast?_reverse, List.head?_cons]
  obtain ⟨there, hthere⟩ := exists_chain_eq hs hsort (List.head?_cons) hlast hne
  obtain ⟨back, hback_eq⟩ := exists_chain_eq hs.flip hback hback_first hback_last hne.symm
  refine ⟨first, _, there, back, ⟨hsort, List.head?_cons, hlast, hne, ?_, ?_⟩, ?_⟩
  · rw [← hthere]
    exact leftPath_chain hs hsort hlast
  · rw [← hback_eq]
    exact leftPath_chain hs.flip hback hback_last
  · rw [hthere, hback_eq]

theorem ofPoints?_eq (ps : List (Point ℝ)) :
    ofPoints? ps =
      if ps.length < 3 then none
      else if (candidates ps).length < 3 then none
      else if (chain (candidates ps) ++ chain (candidates ps).reverse).length < 3 then none
      else some (chain (candidates ps) ++ chain (candidates ps).reverse) := rfl

theorem Surrounds.congr {hull : List (Point ℝ)} (h : Surrounds hull ps)
    (hmem : ∀ p, p ∈ ps ↔ p ∈ qs) : Surrounds hull qs where
  three_le := h.three_le
  nodup := h.nodup
  subset _ hp := (hmem _).mp (h.subset hp)
  turnsLeft := h.turnsLeft
  bounds e he p hp := h.bounds e he p ((hmem p).mpr hp)

/-- Separated points either lie on one line and have no hull, or have one. -/
theorem ofPoints?_cases (hps : Separated ps) :
    (ofPoints? ps = none ∧ Aligned ps) ∨
      ∃ hull, ofPoints? ps = some hull ∧ ¬ Aligned ps ∧ Surrounds hull ps := by
  have hmem : ∀ p, p ∈ candidates ps ↔ p ∈ ps := fun _ => mem_candidates hps
  have hline : Aligned (candidates ps) ↔ Aligned ps :=
    ⟨fun h => h.subset fun p => (hmem p).mpr, fun h => h.subset fun p => (hmem p).mp⟩
  rw [ofPoints?_eq, ← hline]
  by_cases hlen : ps.length < 3
  · rw [if_pos hlen, hline]
    exact .inl ⟨rfl, aligned_of_length_lt hlen⟩
  rw [if_neg hlen]
  by_cases hfew : (candidates ps).length < 3
  · rw [if_pos hfew]
    exact .inl ⟨rfl, aligned_of_length_lt hfew⟩
  rw [if_neg hfew]
  obtain ⟨first, last, there, back, htrip, heq⟩ :=
    exists_roundTrip sweeping_before (pairwise_candidates ps) (by omega)
  rw [heq]
  by_cases hflat : (first :: there ++ last :: back).length < 3
  · rw [if_pos hflat]
    exact .inl ⟨rfl, htrip.length_lt_iff.mp hflat⟩
  · rw [if_neg hflat]
    have hspan := mt htrip.length_lt_iff.mpr hflat
    exact .inr ⟨_, rfl, hspan, (htrip.surrounds sweeping_before hspan).congr hmem⟩

/-- Separated points have a hull exactly if they do not lie on one line. Its corners are some of the
points, each once, in an order in which each edge turns left into the next one, no point lies right
of any edge, and the order of the points does not matter. -/
theorem ofPoints?_surrounds (hps : Separated ps) :
    (ofPoints? ps = none ↔ Aligned ps) ∧
      (∀ hull, ofPoints? ps = some hull → Surrounds hull ps) ∧
      ∀ qs, List.Perm qs ps → ofPoints? qs = ofPoints? ps := by
  refine ⟨?_, ?_, fun qs hperm => ?_⟩
  · obtain ⟨hnone, hline⟩ | ⟨hull, hsome, hspan, -⟩ := ofPoints?_cases hps
    · exact iff_of_true hnone hline
    · exact iff_of_false (by simp [hsome]) hspan
  · intro hull hhull
    obtain ⟨hnone, -⟩ | ⟨hull', hsome, -, hsurrounds⟩ := ofPoints?_cases hps
    · exact absurd (hnone.symm.trans hhull) (by simp)
    · rwa [← Option.some.inj (hsome.symm.trans hhull)]
  · rw [ofPoints?_eq, ofPoints?_eq, hperm.length_eq, candidates_eq_of_perm hperm]

/-- A triangle, given with a point on one of its edges and with one corner twice, and its points
from left to right. -/
theorem ofPoints?_surrounds_triangle :
    let ps : List (Point ℝ) := [⟨0, 0⟩, ⟨0, 2⟩, ⟨1, 0⟩, ⟨2, 0⟩, ⟨0, 0⟩]
    let qs : List (Point ℝ) := [⟨0, 0⟩, ⟨0, 0⟩, ⟨0, 2⟩, ⟨1, 0⟩, ⟨2, 0⟩]
    let hull : List (Point ℝ) := [⟨0, 0⟩, ⟨2, 0⟩, ⟨0, 2⟩]
    Separated ps ∧ ¬ Aligned ps ∧ List.Perm qs ps ∧ ofPoints? ps = some hull ∧
      Surrounds hull ps := by
  intro ps qs hull
  have hne : ∀ {p q : Point ℝ}, near p q = false → Apart p q := near_eq_false_iff.mp
  have hab : near ⟨0, 0⟩ (⟨0, 2⟩ : Point ℝ) = false := near_eq_false (by norm_num)
  have hac : near ⟨0, 0⟩ (⟨1, 0⟩ : Point ℝ) = false := near_eq_false (by norm_num)
  have had : near ⟨0, 0⟩ (⟨2, 0⟩ : Point ℝ) = false := near_eq_false (by norm_num)
  have hbc : near ⟨0, 2⟩ (⟨1, 0⟩ : Point ℝ) = false := near_eq_false (by norm_num)
  have hbd : near ⟨0, 2⟩ (⟨2, 0⟩ : Point ℝ) = false := near_eq_false (by norm_num)
  have hcd : near ⟨1, 0⟩ (⟨2, 0⟩ : Point ℝ) = false := near_eq_false (by norm_num)
  have hpoints : Separated [⟨0, 0⟩, ⟨0, 2⟩, ⟨1, 0⟩, (⟨2, 0⟩ : Point ℝ)] := by
    apply separated_of_pairwise
    simp [hne, hab, hac, had, hbc, hbd, hcd]
  have hps : Separated ps := hpoints.subset (by simp [ps])
  have hperm : List.Perm qs ps := (List.rotate_perm qs 1).symm
  have hsort : qs.mergeSort leftToRight = qs := by
    apply List.mergeSort_of_pairwise
    simp [qs, leftToRight]
  have hcandidates : candidates qs = [⟨0, 0⟩, ⟨0, 2⟩, ⟨1, 0⟩, ⟨2, 0⟩] := by
    rw [candidates_eq, hsort]
    simp [qs, spaced, dropNear, near_self, hab, hbc, hcd]
  have hnil : ∀ p : Point ℝ, push p [] = [p] := fun _ => rfl
  have hone : ∀ p q : Point ℝ, push p [q] = [p, q] := fun _ _ => rfl
  have hthere : chain [⟨0, 0⟩, ⟨0, 2⟩, ⟨1, 0⟩, (⟨2, 0⟩ : Point ℝ)] = [⟨0, 0⟩] := by
    norm_num [chain, hnil, hone, push_cons_cons, cross_eq]
  have hback : chain [⟨2, 0⟩, ⟨1, 0⟩, ⟨0, 2⟩, (⟨0, 0⟩ : Point ℝ)] = [⟨2, 0⟩, ⟨0, 2⟩] := by
    norm_num [chain, hnil, hone, push_cons_cons, cross_eq]
  have hhull : ofPoints? qs = some hull := by
    rw [ofPoints?_eq, hcandidates]
    simp [qs, hull, hthere, hback]
  obtain ⟨hnone, hsome, hsame⟩ := ofPoints?_surrounds hps
  have hhull := (hsame qs hperm).symm.trans hhull
  exact ⟨hps, fun hline => by simp [hnone.mpr hline] at hhull, hperm, hhull, hsome hull hhull⟩

end Hull

end PlanarArea
