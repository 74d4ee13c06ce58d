import PlanarArea.Plane.Hull
import PlanarArea.Proofs.Region.Fan
import PlanarArea.Proofs.Region.NormalForm

/-!
# Chains

A chain takes up sorted points one by one, after taking off the points at which it would not turn
left. So any three of its points turn left, and no point that it has met lies right of any of its
edges. What the order of the points is for is that all steps forward point into one half plane,
where turning left is transitive; this holds of the order from left to right and of its reverse.
-/
namespace PlanarArea

namespace Point

/-- Twice the signed area between two vectors, positive when the second points left of the first. -/
def wedge (u v : Point ℝ) : ℝ :=
  u.x * v.y - u.y * v.x

/-- The order of points by `x`, then by `y`. -/
def Before (p q : Point ℝ) : Prop :=
  p.x < q.x ∨ p.x = q.x ∧ p.y < q.y

/-- A strict order of all points in which turning left is transitive among steps forward. -/
structure Sweeping (before : Point ℝ → Point ℝ → Prop) : Prop where
  irrefl : ∀ a, ¬ before a a
  trans : ∀ {a b c}, before a b → before b c → before a c
  total : ∀ {a b}, a ≠ b → before a b ∨ before b a
  turn_trans : ∀ {a a' b b' c c'}, before a a' → before b b' → before c c' →
    0 ≤ wedge (a' - a) (b' - b) → 0 ≤ wedge (b' - b) (c' - c) → 0 ≤ wedge (a' - a) (c' - c)

theorem wedge_swap (u v : Point ℝ) : wedge v u = -wedge u v := by
  rw [wedge, wedge]
  ring

theorem cross_eq_wedge (a b c : Point ℝ) : cross a b c = wedge (b - a) (c - a) := rfl

/-- The side on which a path goes on at its second point. -/
theorem cross_eq_wedge_steps (a b c : Point ℝ) : cross a b c = wedge (b - a) (c - b) := by
  simp only [cross_eq, wedge, sub_x, sub_y, Scalar.real_sub]
  ring

/-- The side told by the steps that end in the last point. -/
theorem cross_eq_wedge_ends (a b c : Point ℝ) : cross a b c = wedge (c - a) (c - b) := by
  simp only [cross_eq, wedge, sub_x, sub_y, Scalar.real_sub]
  ring

/-- The two points that make a line lie on it. -/
theorem cross_start (a b : Point ℝ) : cross a b a = 0 := by
  rw [cross_eq]
  ring

theorem cross_stop (a b : Point ℝ) : cross a b b = 0 := by
  rw [cross_eq]
  ring

theorem wedge_back (a a' b b' : Point ℝ) : wedge (a - a') (b - b') = wedge (a' - a) (b' - b) := by
  simp only [wedge, sub_x, sub_y, Scalar.real_sub]
  ring

theorem wedge_trans {u v w : Point ℝ} (hu : 0 < u.x ∨ u.x = 0 ∧ 0 < u.y)
    (hv : 0 < v.x ∨ v.x = 0 ∧ 0 < v.y) (hw : 0 < w.x ∨ w.x = 0 ∧ 0 < w.y)
    (huv : 0 ≤ wedge u v) (hvw : 0 ≤ wedge v w) : 0 ≤ wedge u w := by
  have hux : 0 ≤ u.x := hu.elim le_of_lt fun h => h.1.ge
  have hwx : 0 ≤ w.x := hw.elim le_of_lt fun h => h.1.ge
  obtain hv | ⟨hv, hvy⟩ := hv
  · have hmix : v.x * wedge u w = u.x * wedge v w + w.x * wedge u v := by
      simp only [wedge]
      ring
    refine nonneg_of_mul_nonneg_right ?_ hv
    rw [hmix]
    exact add_nonneg (mul_nonneg hux hvw) (mul_nonneg hwx huv)
  · -- Nothing but a step straight up lies left of a step straight up.
    rw [wedge, hv, zero_mul, zero_sub] at hvw
    have hwx : w.x = 0 := by nlinarith
    have hwy : 0 < w.y := hw.elim (fun h => absurd hwx h.ne') And.right
    rw [wedge, hwx, mul_zero, sub_zero]
    exact mul_nonneg hux hwy.le

theorem sweeping_before : Sweeping Before where
  irrefl a h := by
    obtain h | h := h
    · exact lt_irrefl _ h
    · exact lt_irrefl _ h.2
  trans {a b c} hab hbc := by
    obtain hab | ⟨hab, hab'⟩ := hab <;> obtain hbc | ⟨hbc, hbc'⟩ := hbc
    · exact .inl (hab.trans hbc)
    · exact .inl (hbc ▸ hab)
    · exact .inl (hab ▸ hbc)
    · exact .inr ⟨hab.trans hbc, hab'.trans hbc'⟩
  total {a b} hne := by
    obtain hx | hx | hx := lt_trichotomy a.x b.x
    · exact .inl (.inl hx)
    · obtain hy | hy | hy := lt_trichotomy a.y b.y
      · exact .inl (.inr ⟨hx, hy⟩)
      · exact absurd (eq_of_coords hx hy) hne
      · exact .inr (.inr ⟨hx.symm, hy⟩)
    · exact .inr (.inl hx)
  turn_trans {a a' b b' c c'} ha hb hc := by
    have hforward : ∀ {p q : Point ℝ}, Before p q → 0 < (q - p).x ∨ (q - p).x = 0 ∧ 0 < (q - p).y :=
      fun h => h.imp sub_pos.mpr fun h => ⟨sub_eq_zero.mpr h.1.symm, sub_pos.mpr h.2⟩
    exact wedge_trans (hforward ha) (hforward hb) (hforward hc)

namespace Sweeping

variable {before : Point ℝ → Point ℝ → Prop} {a b c p q : Point ℝ}

/-- The points in the opposite order. -/
theorem flip (h : Sweeping before) : Sweeping fun a b => before b a where
  irrefl := h.irrefl
  trans hab hbc := h.trans hbc hab
  total hne := (h.total hne).symm
  turn_trans ha hb hc hab hbc := by
    rw [wedge_back] at hab hbc ⊢
    exact h.turn_trans ha hb hc hab hbc

theorem asymm (h : Sweeping before) (hab : before a b) : ¬ before b a :=
  fun hba => h.irrefl a (h.trans hab hba)

theorem turn_trans_lt (h : Sweeping before) {a' b' c' : Point ℝ} (ha : before a a')
    (hb : before b b') (hc : before c c') (hab : 0 < wedge (a' - a) (b' - b))
    (hbc : 0 ≤ wedge (b' - b) (c' - c)) : 0 < wedge (a' - a) (c' - c) := by
  by_contra hle
  have hback := h.turn_trans hb hc ha hbc (by rw [wedge_swap]; linarith)
  rw [wedge_swap] at hback
  linarith

/-- A path that turns left twice turns left without its second point. -/
theorem cross_pos_of_skip (h : Sweeping before) (hab : before a b) (hbc : before b c)
    (hcp : before c p) (habc : 0 < cross a b c) (hbcp : 0 < cross b c p) : 0 < cross a c p := by
  rw [cross_eq_wedge_ends] at habc
  rw [cross_eq_wedge_steps] at hbcp ⊢
  exact h.turn_trans_lt (h.trans hab hbc) hbc hcp habc hbcp.le

/-- It turns left without its third point, too. -/
theorem cross_pos_of_stop (h : Sweeping before) (hab : before a b) (hbc : before b c)
    (hcp : before c p) (habc : 0 < cross a b c) (hbcp : 0 < cross b c p) : 0 < cross a b p := by
  rw [cross_eq_wedge_steps] at habc ⊢
  rw [cross_eq_wedge] at hbcp
  exact h.turn_trans_lt hab hbc (h.trans hbc hcp) habc hbcp.le

/-- If the path does not turn left at `b`, what lies left of its last step lies left of the step
without `b`. -/
theorem cross_nonneg_of_pop (h : Sweeping before) (hab : before a b) (hap : before a p)
    (haq : before a q) (hp : cross a b p ≤ 0) (hq : 0 ≤ cross a b q) : 0 ≤ cross a p q := by
  rw [cross_eq_wedge] at hp hq ⊢
  exact h.turn_trans hap hab haq (by rw [wedge_swap]; linarith) hq

/-- If the path turns left at `b`, what lies before `b` and left of its last step lies left of the
step from `b`. -/
theorem cross_nonneg_of_push (h : Sweeping before) (hqb : before q b) (hab : before a b)
    (hbp : before b p) (hp : 0 < cross a b p) (hq : 0 ≤ cross a b q) : 0 ≤ cross b p q := by
  rw [cross_rotate, cross_eq_wedge_steps]
  rw [cross_rotate, cross_eq_wedge_ends] at hq
  rw [cross_eq_wedge_steps] at hp
  exact h.turn_trans hqb hab hbp hq hp.le

end Sweeping

end Point

namespace Ring

variable {α : Type}

theorem legs_reverse (path : List (Point α)) :
    legs path.reverse = ((legs path).map Prod.swap).reverse := by
  induction path with
  | nil => rfl
  | cons p path ih =>
    cases path with
    | nil => rfl
    | cons q path =>
      rw [List.reverse_cons, List.reverse_cons, List.append_assoc, List.singleton_append,
        legs_append, ← List.reverse_cons, ih]
      simp [legs]

theorem sublist_of_mem_legs {path : List (Point α)} {e : Point α × Point α} (h : e ∈ legs path) :
    List.Sublist [e.1, e.2] path := by
  induction path with
  | nil => simp [legs] at h
  | cons p path ih =>
    cases path with
    | nil => simp [legs] at h
    | cons q path =>
      obtain rfl | h := List.mem_cons.mp h
      · exact ((List.nil_sublist path).cons_cons q).cons_cons p
      · exact (ih h).cons p

end Ring

namespace Hull

open Point

/-- The points that a chain consists of, newest first, when it has taken up sorted points. -/
noncomputable def stack (ps : List (Point ℝ)) : List (Point ℝ) :=
  ps.foldl (fun taken p => push p taken) []

/-- The state of a chain that has met the points `seen`. -/
structure Taken (before : Point ℝ → Point ℝ → Prop) (seen taken : List (Point ℝ)) : Prop where
  subset : taken ⊆ seen
  sorted : taken.Pairwise fun b a => before a b
  turns : ∀ {a b c}, List.Sublist [c, b, a] taken → 0 < cross a b c
  bounds : ∀ e ∈ Ring.legs taken, ∀ q ∈ seen, 0 ≤ cross e.2 e.1 q
  first : ∀ a ∈ taken.getLast?, ∀ q ∈ seen, ¬ before q a

variable {before : Point ℝ → Point ℝ → Prop} {seen rest : List (Point ℝ)} {a b p : Point ℝ}

theorem taken_nil : Taken before [] [] where
  subset := List.nil_subset []
  sorted := List.Pairwise.nil
  turns hsub := by simp at hsub
  bounds e he := by simp [Ring.legs] at he
  first a ha := by simp at ha

theorem taken_singleton (hs : Sweeping before) (p : Point ℝ) : Taken before [p] [p] where
  subset := List.Subset.refl [p]
  sorted := List.pairwise_singleton _ p
  turns hsub := by simp at hsub
  bounds e he := by simp [Ring.legs] at he
  first a ha := by simpa [← Option.mem_some.mp ha] using hs.irrefl p

/-- Nothing is lost when the newest point is taken off. -/
theorem Taken.tail (h : Taken before seen (b :: a :: rest)) : Taken before seen (a :: rest) where
  subset := fun _ hq => h.subset (List.mem_cons_of_mem b hq)
  sorted := (List.pairwise_cons.mp h.sorted).2
  turns hsub := h.turns (hsub.cons b)
  bounds e he := h.bounds e (List.mem_cons_of_mem _ he)
  first c hc := h.first c (by rwa [List.getLast?_cons_cons])

/-- If the chain turns left at its newest point, a new point lies left of any two of its points. -/
theorem Taken.pairwise_cross_pos (h : Taken before seen (b :: rest)) (hs : Sweeping before)
    (hp : ∀ q ∈ seen, before q p) (hturn : ∀ a ∈ rest.head?, 0 < cross a b p) :
    (b :: rest).Pairwise fun d c => 0 < cross c d p := by
  have hbp : before b p := hp b (h.subset List.mem_cons_self)
  obtain ⟨hb, hrest⟩ := List.pairwise_cons.mp h.sorted
  have hnewest : ∀ c ∈ rest, 0 < cross c b p := by
    intro c hc
    match rest, hc with
    | a :: rest, hc =>
      have hab := hb a List.mem_cons_self
      have habp := hturn a rfl
      obtain rfl | hc := List.mem_cons.mp hc
      · exact habp
      · have hca : before c a := (List.pairwise_cons.mp hrest).1 c hc
        have hcab := h.turns (((List.singleton_sublist.mpr hc).cons_cons a).cons_cons b)
        exact hs.cross_pos_of_skip hca hab hbp hcab habp
  refine List.pairwise_cons.mpr ⟨hnewest, ?_⟩
  rw [List.pairwise_iff_forall_sublist]
  intro d c hsub
  have hcd : before c d := List.pairwise_iff_forall_sublist.mp hrest hsub
  have hd : d ∈ rest := hsub.subset List.mem_cons_self
  exact hs.cross_pos_of_stop hcd (hb d hd) hbp (h.turns (hsub.cons_cons b)) (hnewest d hd)

/-- If the chain turns left at its newest point, no point that it has met lies right of the edge
from there to a new point. -/
theorem Taken.cross_next_nonneg (h : Taken before seen (b :: rest)) (hs : Sweeping before)
    (hp : ∀ q ∈ seen, before q p) (hnext : ∀ q ∈ seen, before b q → 0 ≤ cross b p q)
    (hturn : ∀ a ∈ rest.head?, 0 < cross a b p) : ∀ q ∈ seen, 0 ≤ cross b p q := by
  intro q hq
  by_cases hqb : q = b
  · rw [hqb, cross_start]
  · obtain hqb | hbq := hs.total hqb
    · match rest, h, hturn with
      | [], h, _ => exact absurd hqb (h.first b rfl q hq)
      | a :: rest, h, hturn =>
        have hab := (List.pairwise_cons.mp h.sorted).1 a List.mem_cons_self
        have hbp := hp b (h.subset List.mem_cons_self)
        exact hs.cross_nonneg_of_push hqb hab hbp (hturn a rfl)
          (h.bounds (b, a) List.mem_cons_self q hq)
    · exact hnext q hq hbq

/-- A chain that turns left at its newest point takes up a new point. -/
theorem Taken.cons (h : Taken before seen (b :: rest)) (hs : Sweeping before)
    (hp : ∀ q ∈ seen, before q p) (hnext : ∀ q ∈ seen, before b q → 0 ≤ cross b p q)
    (hturn : ∀ a ∈ rest.head?, 0 < cross a b p) :
    Taken before (seen ++ [p]) (p :: b :: rest) := by
  have hpairs := h.pairwise_cross_pos hs hp hturn
  have hedge := h.cross_next_nonneg hs hp hnext hturn
  constructor
  case subset =>
    intro q hq
    obtain rfl | hq := List.mem_cons.mp hq
    · simp
    · exact List.mem_append_left _ (h.subset hq)
  case sorted => exact List.pairwise_cons.mpr ⟨fun q hq => hp q (h.subset hq), h.sorted⟩
  case turns =>
    intro c d e hsub
    cases hsub with
    | cons _ hsub => exact h.turns hsub
    | cons_cons _ hsub => exact List.pairwise_iff_forall_sublist.mp hpairs hsub
  case bounds =>
    intro e he q hq
    obtain rfl | he := List.mem_cons.mp he <;> obtain hq | hq := List.mem_append.mp hq
    · exact hedge q hq
    · rw [List.mem_singleton.mp hq, cross_stop]
    · exact h.bounds e he q hq
    · rw [List.mem_singleton.mp hq]
      exact (List.pairwise_iff_forall_sublist.mp hpairs (Ring.sublist_of_mem_legs he)).le
  case first =>
    intro c hc q hq hqc
    rw [List.getLast?_cons_cons] at hc
    obtain hq | hq := List.mem_append.mp hq
    · exact h.first c hc q hq hqc
    · obtain rfl := List.mem_singleton.mp hq
      exact hs.asymm hqc (hp c (h.subset (List.mem_of_getLast? hc)))

theorem push_cons_cons (p b a : Point ℝ) (rest : List (Point ℝ)) :
    push p (b :: a :: rest) =
      if cross a b p ≤ 0 then push p (a :: rest) else p :: b :: a :: rest := by
  rw [push]
  simp only [Scalar.real_le, Scalar.real_zero]

/-- Taking up a point keeps the state, however many points are taken off for it. -/
theorem Taken.push (h : Taken before seen (b :: rest)) (hs : Sweeping before)
    (hp : ∀ q ∈ seen, before q p) (hnext : ∀ q ∈ seen, before b q → 0 ≤ cross b p q) :
    Taken before (seen ++ [p]) (push p (b :: rest)) := by
  induction rest generalizing b with
  | nil => exact h.cons hs hp hnext (by simp)
  | cons a rest ih =>
    rw [push_cons_cons]
    split
    · rename_i hright
      refine ih h.tail fun q hq haq => ?_
      have hab := (List.pairwise_cons.mp h.sorted).1 a List.mem_cons_self
      have ha : a ∈ seen := h.subset (List.mem_cons_of_mem b List.mem_cons_self)
      exact hs.cross_nonneg_of_pop hab (hp a ha) haq hright
        (h.bounds (b, a) List.mem_cons_self q hq)
    · rename_i hleft
      refine h.cons hs hp hnext fun c hc => ?_
      obtain rfl : a = c := by simpa using hc
      exact not_le.mp hleft

theorem head?_push (p : Point ℝ) (taken : List (Point ℝ)) : (push p taken).head? = some p := by
  fun_induction push p taken with
  | case1 _ _ _ _ ih => exact ih
  | case2 => rfl
  | case3 => rfl

/-- The oldest point is never taken off. -/
theorem getLast?_push (p : Point ℝ) {taken : List (Point ℝ)} (h : taken ≠ []) :
    (push p taken).getLast? = taken.getLast? := by
  fun_induction push p taken with
  | case1 _ _ _ _ ih => rw [ih (List.cons_ne_nil _ _), List.getLast?_cons_cons]
  | case2 => rw [List.getLast?_cons_cons]
  | case3 taken => exact List.getLast?_cons_of_ne_nil h

theorem stack_concat (ps : List (Point ℝ)) (p : Point ℝ) :
    stack (ps ++ [p]) = push p (stack ps) := by
  rw [stack, List.foldl_append, stack]
  rfl

/-- The state after all points, the newest and the oldest of which the chain keeps. -/
theorem taken_stack (hs : Sweeping before) {ps : List (Point ℝ)} (hsort : ps.Pairwise before) :
    Taken before ps (stack ps) ∧ (stack ps).head? = ps.getLast? ∧
      (stack ps).getLast? = ps.head? := by
  induction ps using List.reverseRecOn with
  | nil => exact ⟨taken_nil, rfl, rfl⟩
  | append_singleton ps p ih =>
    -- The chain ends in the last of the points before `p`, so nothing lies beyond its newest point.
    obtain ⟨hps, -, hp⟩ := List.pairwise_append.mp hsort
    obtain ⟨htaken, hhead, hlast⟩ := ih hps
    rw [stack_concat, List.getLast?_concat, head?_push]
    cases hstack : stack ps with
    | nil =>
      rw [hstack, List.head?_nil, eq_comm, List.getLast?_eq_none_iff] at hhead
      rw [hhead]
      exact ⟨taken_singleton hs p, rfl, rfl⟩
    | cons b rest =>
      rw [hstack] at htaken hhead hlast
      obtain ⟨init, rfl⟩ := List.getLast?_eq_some_iff.mp hhead.symm
      refine ⟨?_, rfl, ?_⟩
      · refine htaken.push hs (fun q hq => hp q hq p (by simp)) fun q hq hbq => ?_
        obtain hq | hq := List.mem_append.mp hq
        · exact absurd hbq (hs.asymm ((List.pairwise_append.mp hps).2.2 q hq b (by simp)))
        · rw [List.mem_singleton.mp hq] at hbq
          exact absurd hbq (hs.irrefl b)
      · rw [getLast?_push p (List.cons_ne_nil b rest), hlast]
        exact (List.head?_append_of_ne_nil _ (by simp)).symm

/-- A path through sorted points that keeps all of them on its left. -/
structure LeftPath (before : Point ℝ → Point ℝ → Prop) (ps path : List (Point ℝ)) : Prop where
  subset : path ⊆ ps
  sorted : path.Pairwise before
  turns : ∀ {a b c}, List.Sublist [a, b, c] path → 0 < cross a b c
  bounds : ∀ e ∈ Ring.legs path, ∀ q ∈ ps, 0 ≤ cross e.1 e.2 q
  head? : path.head? = ps.head?

/-- A chain, completed by the last point, is such a path. -/
theorem leftPath_chain (hs : Sweeping before) {ps : List (Point ℝ)} (hsort : ps.Pairwise before)
    {last : Point ℝ} (hlast : ps.getLast? = some last) :
    LeftPath before ps (chain ps ++ [last]) := by
  obtain ⟨htaken, hhead, hfirst⟩ := taken_stack hs hsort
  have hpath : chain ps ++ [last] = (stack ps).reverse := by
    rw [hlast, List.head?_eq_some_iff] at hhead
    obtain ⟨rest, hrest⟩ := hhead
    have hchain : chain ps = (stack ps).tail.reverse := rfl
    rw [hchain, hrest, List.tail_cons, List.reverse_cons]
  rw [hpath]
  constructor
  case subset => exact fun q hq => htaken.subset (List.mem_reverse.mp hq)
  case sorted => exact List.pairwise_reverse.mpr htaken.sorted
  case turns => exact fun hsub => htaken.turns (by simpa using hsub.reverse)
  case bounds =>
    intro e he
    rw [Ring.legs_reverse, List.mem_reverse] at he
    obtain ⟨e', he', rfl⟩ := List.mem_map.mp he
    exact htaken.bounds e' he'
  case head? => rw [List.head?_reverse, hfirst]

end Hull

end PlanarArea
