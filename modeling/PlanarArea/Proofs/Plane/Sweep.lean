import PlanarArea.Proofs.Plane.Wrap

/-!
# Sweeps as differences of angles

A sweep is found by two loops, one that adds turns to a negative difference and one that takes turns
off a difference of a turn or more. Here the loops are followed without the bound that is set to
their rounds. Both end, at most one of them has a round at all, and what they leave is the one
number of `[0, turn)` that is the difference up to whole turns. So sweeps add up like differences,
except that one turn may be lost.
-/
namespace PlanarArea.Angle

variable {turn : ℝ}

/-- Adding turns until the number is no longer negative takes as many rounds as turns fit into the
size of a negative number, rounded up. -/
theorem endsAfter_up (ht : 0 < turn) (x : ℝ) :
    EndsAfter (fun y => decide (y < 0)) (· + turn) ⌈-x / turn⌉₊ x (x + ⌈-x / turn⌉₊ * turn) := by
  have hiterate : ∀ k : ℕ, (· + turn)^[k] x = x + k * turn := by
    intro k
    rw [add_right_iterate, nsmul_eq_mul]
  refine ⟨(hiterate _).symm, ?_, fun j hj => ?_⟩
  · have hceil := (div_le_iff₀ ht).mp (Nat.le_ceil (-x / turn))
    exact decide_eq_false (not_lt.mpr (by linarith))
  · have hlt := (lt_div_iff₀ ht).mp (Nat.lt_ceil.mp hj)
    rw [hiterate]
    exact decide_eq_true (by linarith)

/-- Taking turns off until the number is less than a turn takes as many rounds as turns fit into
it, rounded down. -/
theorem endsAfter_down (ht : 0 < turn) (x : ℝ) :
    EndsAfter (fun y => decide (turn ≤ y)) (· - turn) ⌊x / turn⌋₊ x (x - ⌊x / turn⌋₊ * turn) := by
  have hiterate : ∀ k : ℕ, (· - turn)^[k] x = x - k * turn := by
    intro k
    simp only [sub_eq_add_neg]
    rw [add_right_iterate, nsmul_eq_mul, mul_neg]
  refine ⟨(hiterate _).symm, ?_, fun j hj => ?_⟩
  · have hfloor := (div_lt_iff₀ ht).mp (Nat.lt_floor_add_one (x / turn))
    exact decide_eq_false (not_le.mpr (by linarith))
  · have hle := (le_div_iff₀ ht).mp ((Nat.le_floor_iff' (Nat.succ_ne_zero j)).mp hj)
    push_cast at hle
    rw [hiterate]
    exact decide_eq_true (by linarith)

/-- The bound set to the rounds is not reached when turns are added. -/
theorem wrapWhile_up (ht : 0 < turn) (x : ℝ) :
    wrapWhile turn (fun y => decide (y < 0)) (· + turn) x = x + ⌈-x / turn⌉₊ * turn := by
  have hle : ⌈-x / turn⌉₊ ≤ turnsIn turn x :=
    Nat.ceil_le.mpr ((div_le_iff₀ ht).mpr ((neg_le_abs x).trans (abs_le_turnsIn_mul ht x)))
  exact (endsAfter_up ht x).iterateWhile_eq hle

/-- The bound set to the rounds is not reached when turns are taken off. -/
theorem wrapWhile_down (ht : 0 < turn) (x : ℝ) :
    wrapWhile turn (fun y => decide (turn ≤ y)) (· - turn) x = x - ⌊x / turn⌋₊ * turn := by
  have hle : ⌊x / turn⌋₊ ≤ turnsIn turn x :=
    Nat.floor_le_of_le ((div_le_iff₀ ht).mpr ((le_abs_self x).trans (abs_le_turnsIn_mul ht x)))
  exact (endsAfter_down ht x).iterateWhile_eq hle

/-- Raising a negative number leaves less than a turn, so that no turn has to be taken off again. -/
theorem floor_raised (ht : 0 < turn) (x : ℝ) :
    ⌊(x + ⌈-x / turn⌉₊ * turn) / turn⌋₊ = ⌊x / turn⌋₊ := by
  cases lt_or_ge x 0 with
  | inl hlt =>
    have hceil := Nat.ceil_lt_add_one (div_nonneg (neg_nonneg.mpr hlt.le) ht.le)
    rw [← sub_lt_iff_lt_add, lt_div_iff₀ ht] at hceil
    have hraised : (x + ⌈-x / turn⌉₊ * turn) / turn < 1 := (div_lt_one ht).mpr (by linarith)
    have hbefore : x / turn < 1 := (div_neg_of_neg_of_pos hlt ht).trans one_pos
    rw [Nat.floor_eq_zero.mpr hraised, Nat.floor_eq_zero.mpr hbefore]
  | inr hnonneg =>
    have hceil : ⌈-x / turn⌉₊ = 0 :=
      Nat.ceil_eq_zero.mpr (div_nonpos_of_nonpos_of_nonneg (neg_nonpos.mpr hnonneg) ht.le)
    rw [hceil, Nat.cast_zero, zero_mul, add_zero]

/-- Both loops of a sweep end, and the second one ends at the sweep. -/
theorem ccwWithin_endsAfter (ht : 0 < turn) (start stop : ℝ) :
    ∃ raised, EndsAfter (fun y => decide (y < 0)) (· + turn) ⌈(start - stop) / turn⌉₊
        (stop - start) raised ∧
      EndsAfter (fun y => decide (turn ≤ y)) (· - turn) ⌊(stop - start) / turn⌋₊ raised
        (ccwWithin turn start stop) := by
  have hsweep : ccwWithin turn start stop =
      wrapWhile turn (fun y => decide (turn ≤ y)) (· - turn)
        (wrapWhile turn (fun y => decide (y < 0)) (· + turn) (stop - start)) := by
    simp only [ccwWithin, Scalar.real_zero]
  rw [hsweep, wrapWhile_down ht, wrapWhile_up ht, ← neg_sub stop start, ← floor_raised ht]
  exact ⟨_, endsAfter_up ht _, endsAfter_down ht _⟩

/-- A sweep is the one number of a turn that is the difference of the angles up to whole turns. -/
theorem ccwWithin_eq_iff (ht : 0 < turn) {start stop s : ℝ} :
    ccwWithin turn start stop = s ↔
      (0 ≤ s ∧ s < turn) ∧ ∃ k : ℤ, s - (stop - start) = k * turn := by
  rw [ccwWithin_eq ht, toIcoMod_eq_iff, Set.mem_Ico, zero_add]
  refine and_congr_right fun _ => ⟨?_, ?_⟩
  · rintro ⟨k, hk⟩
    rw [zsmul_eq_mul] at hk
    exact ⟨-k, by push_cast; linarith⟩
  · rintro ⟨k, hk⟩
    refine ⟨-k, ?_⟩
    rw [zsmul_eq_mul]
    push_cast
    linarith

/-- Two sweeps, one after the other, are the whole sweep or a turn more. -/
theorem ccwWithin_add (ht : 0 < turn) (a b c : ℝ) :
    ccwWithin turn a b + ccwWithin turn b c = ccwWithin turn a c ∨
      ccwWithin turn a b + ccwWithin turn b c = ccwWithin turn a c + turn := by
  obtain ⟨⟨hab, hab'⟩, k, hk⟩ := (ccwWithin_eq_iff ht).mp (Eq.refl (ccwWithin turn a b))
  obtain ⟨⟨hbc, hbc'⟩, m, hm⟩ := (ccwWithin_eq_iff ht).mp (Eq.refl (ccwWithin turn b c))
  cases lt_or_ge (ccwWithin turn a b + ccwWithin turn b c) turn with
  | inl hlt =>
    refine .inl (((ccwWithin_eq_iff ht).mpr ⟨⟨by linarith, hlt⟩, k + m, ?_⟩).symm)
    push_cast
    linarith
  | inr hge =>
    refine .inr (eq_add_of_sub_eq ((ccwWithin_eq_iff ht).mpr
      ⟨⟨by linarith, by linarith⟩, k + m - 1, ?_⟩).symm)
    push_cast
    linarith

theorem ccwWithin_self (ht : 0 < turn) (a : ℝ) : ccwWithin turn a a = 0 :=
  (ccwWithin_eq_iff ht).mpr ⟨⟨le_rfl, ht⟩, 0, by simp⟩

/-- For any length of a turn and any two angles both loops of the sweep end, the one after as many
rounds as turns are needed to raise the difference to zero, the other after as many as fit into it.
What they leave is the only number of `[0, turn)` that differs from the difference by whole turns.
A sweep and the sweep back are nothing together or one turn, and two sweeps in a row are the sweep
from the first angle to the last or one turn more. -/
theorem ccwWithin_canonical (ht : 0 < turn) :
    (∀ start stop,
      (∃ raised,
        EndsAfter (fun y => decide (y < 0)) (· + turn) ⌈(start - stop) / turn⌉₊ (stop - start)
          raised ∧
        EndsAfter (fun y => decide (turn ≤ y)) (· - turn) ⌊(stop - start) / turn⌋₊ raised
          (ccwWithin turn start stop)) ∧
      ∀ s, ccwWithin turn start stop = s ↔
        (0 ≤ s ∧ s < turn) ∧ ∃ k : ℤ, s - (stop - start) = k * turn) ∧
    (∀ a b, ccwWithin turn a b + ccwWithin turn b a = 0 ∨
      ccwWithin turn a b + ccwWithin turn b a = turn) ∧
    ∀ a b c, ccwWithin turn a b + ccwWithin turn b c = ccwWithin turn a c ∨
      ccwWithin turn a b + ccwWithin turn b c = ccwWithin turn a c + turn := by
  refine ⟨fun start stop => ⟨ccwWithin_endsAfter ht start stop, fun s => ccwWithin_eq_iff ht⟩,
    fun a b => ?_, ccwWithin_add ht⟩
  have hback := ccwWithin_add ht a b a
  rwa [ccwWithin_self ht, zero_add] at hback

/-- From an angle of two turns and a quarter to zero the sweep is three quarters of a turn. -/
theorem ccwWithin_canonical_quarters :
    0 < 2 * Real.pi ∧ ccwSweep (9 * Real.pi / 2) 0 = 3 * Real.pi / 2 ∧
      ccwSweep (9 * Real.pi / 2) 0 + ccwSweep 0 (9 * Real.pi / 2) = 2 * Real.pi := by
  have hpi := Real.pi_pos
  have hturn : ∀ start stop : ℝ, ccwSweep start stop = ccwWithin (2 * Real.pi) start stop := by
    intro start stop
    rw [ccwSweep, turn_eq]
  obtain ⟨hsweep, hback, -⟩ := ccwWithin_canonical Real.two_pi_pos
  have hforth : ccwWithin (2 * Real.pi) (9 * Real.pi / 2) 0 = 3 * Real.pi / 2 := by
    refine ((hsweep _ _).2 _).mpr ⟨⟨by linarith, by linarith⟩, 3, ?_⟩
    push_cast
    ring
  have hzero : ccwSweep (9 * Real.pi / 2) 0 + ccwSweep 0 (9 * Real.pi / 2) ≠ 0 := by
    rw [hturn _ 0, hforth]
    linarith [ccwSweep_nonneg 0 (9 * Real.pi / 2)]
  simp only [hturn] at hzero ⊢
  exact ⟨Real.two_pi_pos, hforth, (hback _ _).resolve_left hzero⟩

end PlanarArea.Angle
