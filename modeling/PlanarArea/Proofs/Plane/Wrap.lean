import Mathlib.Algebra.Order.ToIntervalMod
import Mathlib.Analysis.SpecialFunctions.Trigonometric.Angle
import PlanarArea.Proofs.Plane.Exact

/-!
# Wrapping of angles

A wrapping loop moves a number by whole turns until its condition fails; the number of rounds that
it is given always suffices. So a counter-clockwise sweep is the representative of the difference
of two angles in one turn.
-/
namespace PlanarArea.Angle

/-- A loop that starts from `x` and may go on for ever ends at `y` after so many rounds: `again`
holds before each of them and no longer after the last one. -/
def EndsAfter {α : Type} (again : α → Bool) (step : α → α) (rounds : Nat) (x y : α) : Prop :=
  y = step^[rounds] x ∧ again y = false ∧ ∀ j < rounds, again (step^[j] x) = true

section Loop

variable {α : Type} {again : α → Bool} {step : α → α}

/-- A loop has one end. -/
theorem EndsAfter.unique {m n : Nat} {x y z : α} (h : EndsAfter again step m x y)
    (h' : EndsAfter again step n x z) : m = n ∧ y = z := by
  obtain ⟨rfl, hy, hbefore⟩ := h
  obtain ⟨rfl, hz, hbefore'⟩ := h'
  rcases Nat.lt_trichotomy m n with hlt | rfl | hlt
  · rw [hbefore' m hlt] at hy
    cases hy
  · exact ⟨rfl, rfl⟩
  · rw [hbefore n hlt] at hz
    cases hz

/-- A loop that can stop within its bound ends where the condition fails for the first time. -/
theorem exists_endsAfter {bound : Nat} {x : α} (h : ∃ k ≤ bound, again (step^[k] x) = false) :
    ∃ k, EndsAfter again step k x (iterateWhile again step bound x) := by
  induction bound generalizing x with
  | zero =>
    obtain ⟨k, hk, hstop⟩ := h
    obtain rfl : k = 0 := by omega
    exact ⟨0, rfl, hstop, fun j hj => absurd hj (Nat.not_lt_zero j)⟩
  | succ bound ih =>
    rw [iterateWhile]
    cases hx : again x with
    | false => exact ⟨0, rfl, hx, fun j hj => absurd hj (Nat.not_lt_zero j)⟩
    | true =>
      obtain ⟨k, hk, hstop⟩ := h
      cases k with
      | zero =>
        rw [Function.iterate_zero, id, hx] at hstop
        cases hstop
      | succ k =>
        obtain ⟨m, heq, hm, hbefore⟩ := ih ⟨k, by omega, hstop⟩
        refine ⟨m + 1, heq, hm, ?_⟩
        intro j hj
        cases j with
        | zero => exact hx
        | succ j => exact hbefore j (by omega)

/-- A loop that ends within its bound leaves what it leaves without one. -/
theorem EndsAfter.iterateWhile_eq {rounds bound : Nat} {x y : α}
    (h : EndsAfter again step rounds x y) (hbound : rounds ≤ bound) :
    iterateWhile again step bound x = y := by
  have hstop : again (step^[rounds] x) = false := h.1 ▸ h.2.1
  obtain ⟨k, hend⟩ := exists_endsAfter ⟨rounds, hbound, hstop⟩
  exact (hend.unique h).2

end Loop

section Wrap

variable {turn : ℝ}

/-- The bound of a wrapping loop takes `x` over zero in either direction. -/
theorem abs_le_turnsIn_mul (ht : 0 < turn) (x : ℝ) : |x| ≤ turnsIn turn x * turn := by
  have hfloor := (Nat.lt_floor_add_one (|x| / turn)).le
  rw [div_le_iff₀ ht] at hfloor
  have hnonneg : (0 : ℝ) ≤ ⌊|x| / turn⌋₊ := Nat.cast_nonneg _
  simp only [turnsIn, Scalar.real_abs, Scalar.real_truncate, Scalar.real_div]
  push_cast
  nlinarith

/-- A wrapping loop with steps of one turn, in either direction, ends at the first place where its
condition fails, if it fails at zero and beyond. -/
theorem exists_wrapWhile (ht : 0 < turn) {d : ℝ} (hd : |d| = turn) {again : ℝ → Bool}
    (hstop : ∀ y, 0 ≤ y * d → again y = false) (x : ℝ) :
    ∃ k : ℕ, wrapWhile turn again (fun y => y + d) x = x + k * d ∧ again (x + k * d) = false ∧
      ∀ j < k, again (x + j * d) = true := by
  have hiterate : ∀ k : ℕ, (fun y => y + d)^[k] x = x + k * d := by
    intro k
    rw [add_right_iterate]
    simp only [nsmul_eq_mul]
  have hsquare : d * d = turn * turn := by rw [← hd, abs_mul_abs_self]
  have hbound : 0 ≤ (x + turnsIn turn x * d) * d := by
    have hx : -(|x| * turn) ≤ x * d := by
      rw [← hd, ← abs_mul]
      exact neg_abs_le (x * d)
    have hturns := mul_le_mul_of_nonneg_right (abs_le_turnsIn_mul ht x) ht.le
    calc (0 : ℝ) ≤ x * d + turnsIn turn x * turn * turn := by linarith
      _ = (x + turnsIn turn x * d) * d := by rw [add_mul, mul_assoc, mul_assoc, hsquare]
  have hends : ∃ k ≤ turnsIn turn x, again ((fun y => y + d)^[k] x) = false := by
    refine ⟨turnsIn turn x, le_refl _, ?_⟩
    rw [hiterate]
    exact hstop _ hbound
  obtain ⟨k, heq, hk, hbefore⟩ := exists_endsAfter hends
  rw [heq, hiterate] at hk
  refine ⟨k, ?_, hk, ?_⟩
  · rw [wrapWhile, heq, hiterate]
  · intro j hj
    rw [← hiterate]
    exact hbefore j hj

theorem exists_wrapWhile_up (ht : 0 < turn) {again : ℝ → Bool}
    (hstop : ∀ y, 0 ≤ y → again y = false) (x : ℝ) :
    ∃ k : ℕ, wrapWhile turn again (fun y => y + turn) x = x + k * turn ∧
      again (x + k * turn) = false ∧ ∀ j < k, again (x + j * turn) = true :=
  exists_wrapWhile ht (abs_of_pos ht) (fun y hy => hstop y (nonneg_of_mul_nonneg_left hy ht)) x

theorem exists_wrapWhile_down (ht : 0 < turn) {again : ℝ → Bool}
    (hstop : ∀ y, y ≤ 0 → again y = false) (x : ℝ) :
    ∃ k : ℕ, wrapWhile turn again (fun y => y - turn) x = x - k * turn ∧
      again (x - k * turn) = false ∧ ∀ j < k, again (x - j * turn) = true := by
  have hneg : |-turn| = turn := by rw [abs_neg, abs_of_pos ht]
  have hstop' : ∀ y, 0 ≤ y * -turn → again y = false := by
    intro y hy
    apply hstop
    by_contra hpos
    have := mul_pos (not_le.mp hpos) ht
    linarith
  obtain ⟨k, heq, hk, hbefore⟩ := exists_wrapWhile ht hneg hstop' x
  simp only [← sub_eq_add_neg, mul_neg] at heq hk hbefore
  exact ⟨k, heq, hk, hbefore⟩

theorem wrapWhile_of_stop (turn : ℝ) (again : ℝ → Bool) (step : ℝ → ℝ) {x : ℝ}
    (h : again x = false) : wrapWhile turn again step x = x := by
  have hbound : turnsIn turn x = 2 * Scalar.truncate (Scalar.abs x / turn) + 1 + 1 := rfl
  simp only [wrapWhile, hbound, iterateWhile, h, Bool.false_eq_true, if_false]

theorem turnsIn_neg (turn x : ℝ) : turnsIn turn (-x) = turnsIn turn x := by
  simp only [turnsIn, Scalar.real_abs, abs_neg]

/-- A loop commutes with a change of sign of everything in it. -/
theorem wrapWhile_neg (turn : ℝ) (again : ℝ → Bool) (step : ℝ → ℝ) (x : ℝ) :
    wrapWhile turn again step (-x) =
      -wrapWhile turn (fun y => again (-y)) (fun y => -step (-y)) x := by
  rw [wrapWhile, wrapWhile, turnsIn_neg]
  generalize turnsIn turn x = bound
  induction bound generalizing x with
  | zero => rfl
  | succ bound ih =>
    have hstep := ih (-step (-x))
    rw [neg_neg] at hstep
    simp only [iterateWhile]
    split
    · exact hstep
    · rfl

/-- The difference of two numbers, brought into one turn. -/
theorem ccwWithin_eq (ht : 0 < turn) (start stop : ℝ) :
    ccwWithin turn start stop = toIcoMod ht 0 (stop - start) := by
  simp only [ccwWithin, Scalar.real_add, Scalar.real_sub, Scalar.real_lt, Scalar.real_le,
    Scalar.real_zero]
  obtain ⟨k, hraised, hk, -⟩ := exists_wrapWhile_up ht
    (fun y hy => decide_eq_false (not_lt.mpr hy)) (stop - start)
  obtain ⟨m, hlowered, hm, hbefore⟩ := exists_wrapWhile_down ht
    (fun y hy => decide_eq_false (not_le.mpr (hy.trans_lt ht))) (stop - start + k * turn)
  rw [hraised, hlowered, eq_comm, toIcoMod_eq_iff]
  have hnonneg := not_lt.mp (of_decide_eq_false hk)
  have hlt := not_le.mp (of_decide_eq_false hm)
  refine ⟨⟨?_, by linarith⟩, m - k, ?_⟩
  · cases m with
    | zero => simpa using hnonneg
    | succ m =>
      have hlast := of_decide_eq_true (hbefore m (Nat.lt_succ_self m))
      push_cast
      linarith
  · rw [zsmul_eq_mul]
    push_cast
    ring

end Wrap

@[simp] theorem turn_eq : (turn : ℝ) = 2 * Real.pi := by simp [turn]

theorem ccwSweep_eq (start stop : ℝ) :
    ccwSweep start stop = toIcoMod Real.two_pi_pos 0 (stop - start) := by
  rw [ccwSweep, turn_eq]
  exact ccwWithin_eq _ start stop

theorem ccwSweep_nonneg (start stop : ℝ) : 0 ≤ ccwSweep start stop := by
  rw [ccwSweep_eq]
  exact (toIcoMod_mem_Ico' Real.two_pi_pos _).1

theorem ccwSweep_lt (start stop : ℝ) : ccwSweep start stop < 2 * Real.pi := by
  rw [ccwSweep_eq]
  exact (toIcoMod_mem_Ico' Real.two_pi_pos _).2

/-- The directions of two angles differ by the sweep between them. -/
theorem coe_ccwSweep (start stop : ℝ) :
    ((ccwSweep start stop : ℝ) : Real.Angle) = (stop : Real.Angle) - start := by
  rw [ccwSweep_eq, Real.Angle.coe_toIcoMod, Real.Angle.coe_sub]

/-- A sweep is known by its direction and its size. -/
theorem ccwSweep_eq_of_coe {start stop x : ℝ} (hx : 0 ≤ x) (hlt : x < 2 * Real.pi)
    (h : (x : Real.Angle) = (stop : Real.Angle) - start) : ccwSweep start stop = x := by
  rw [ccwSweep_eq, toIcoMod_eq_iff]
  refine ⟨⟨hx, by simpa using hlt⟩, ?_⟩
  rw [← Real.Angle.coe_sub, eq_comm, Real.Angle.angle_eq_iff_two_pi_dvd_sub] at h
  obtain ⟨k, hk⟩ := h
  refine ⟨k, ?_⟩
  rw [zsmul_eq_mul]
  linarith

/-- The sweep back completes a turn. -/
theorem ccwSweep_swap {start stop : ℝ} (h : 0 < ccwSweep start stop) :
    ccwSweep stop start = 2 * Real.pi - ccwSweep start stop := by
  apply ccwSweep_eq_of_coe
  · linarith [ccwSweep_lt start stop]
  · linarith
  · rw [Real.Angle.coe_sub, coe_ccwSweep, Real.Angle.coe_two_pi, zero_sub, neg_sub]

end PlanarArea.Angle
