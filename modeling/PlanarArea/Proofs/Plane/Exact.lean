import Mathlib.Analysis.SpecialFunctions.Complex.Arg
import PlanarArea.Region.Basic

/-!
# Exact numbers

The real numbers as the numbers of the plane: every operation is the exact one, the angle of a
vector is its principal argument, and no number is infinite. The lemmas of this file turn the
operations that the definitions are written with into those of the real numbers.
-/
namespace PlanarArea

namespace Scalar

noncomputable instance real : Scalar ℝ where
  add x y := x + y
  sub x y := x - y
  mul x y := x * y
  div x y := x / y
  neg x := -x
  lt x y := x < y
  le x y := x ≤ y
  decLt x y := Real.decidableLT x y
  decLe x y := Real.decidableLE x y
  ofNat n := n
  ofDecimal m negative e := OfScientific.ofScientific m negative e
  isFinite _ := true
  sqrt := Real.sqrt
  sin := Real.sin
  cos := Real.cos
  atan2 y x := Complex.arg ⟨x, y⟩
  pi := Real.pi
  signum x := if x < 0 then -1 else 1
  truncate x := ⌊x⌋₊

variable (x y : ℝ)

@[simp] theorem real_add :
    @HAdd.hAdd ℝ ℝ ℝ (@instHAdd ℝ (@instAdd ℝ real)) x y = x + y := rfl

@[simp] theorem real_sub :
    @HSub.hSub ℝ ℝ ℝ (@instHSub ℝ (@instSub ℝ real)) x y = x - y := rfl

@[simp] theorem real_mul :
    @HMul.hMul ℝ ℝ ℝ (@instHMul ℝ (@instMul ℝ real)) x y = x * y := rfl

@[simp] theorem real_div :
    @HDiv.hDiv ℝ ℝ ℝ (@instHDiv ℝ (@instDiv ℝ real)) x y = x / y := rfl

@[simp] theorem real_neg : @Neg.neg ℝ (@instNeg ℝ real) x = -x := rfl

@[simp] theorem real_lt : @LT.lt ℝ (@instLT ℝ real) x y ↔ x < y := Iff.rfl

@[simp] theorem real_le : @LE.le ℝ (@instLE ℝ real) x y ↔ x ≤ y := Iff.rfl

@[simp] theorem real_zero : @OfNat.ofNat ℝ 0 (@instOfNat ℝ real 0) = 0 := Nat.cast_zero

@[simp] theorem real_one : @OfNat.ofNat ℝ 1 (@instOfNat ℝ real 1) = 1 := Nat.cast_one

@[simp] theorem real_literal (n : ℕ) [n.AtLeastTwo] :
    @OfNat.ofNat ℝ n (@instOfNat ℝ real n) = OfNat.ofNat n := rfl

@[simp] theorem real_decimal (m : ℕ) (negative : Bool) (e : ℕ) :
    @OfScientific.ofScientific ℝ (@instOfScientific ℝ real) m negative e =
      OfScientific.ofScientific m negative e := rfl

@[simp] theorem real_ofNat (n : ℕ) : (ofNat n : ℝ) = n := rfl

@[simp] theorem real_isFinite : isFinite x = true := rfl

@[simp] theorem real_sqrt : sqrt x = Real.sqrt x := rfl

@[simp] theorem real_sin : sin x = Real.sin x := rfl

@[simp] theorem real_cos : cos x = Real.cos x := rfl

@[simp] theorem real_atan2 : atan2 y x = Complex.arg ⟨x, y⟩ := rfl

@[simp] theorem real_pi : (pi : ℝ) = Real.pi := rfl

@[simp] theorem real_truncate : truncate x = ⌊x⌋₊ := rfl

@[simp] theorem real_abs : abs x = |x| := by
  unfold abs
  simp only [real_lt, real_zero, real_neg]
  split
  · rename_i h
    exact (abs_of_neg h).symm
  · rename_i h
    exact (abs_of_nonneg (not_lt.mp h)).symm

@[simp] theorem real_max : Scalar.max x y = Max.max x y := by
  unfold Scalar.max
  simp only [real_lt, le_refl, if_true]
  split
  · rename_i h
    exact (max_eq_right h.le).symm
  · rename_i h
    exact (max_eq_left (not_lt.mp h)).symm

@[simp] theorem real_same : same x y = decide (x = y) := by
  simp only [same, real_le, ← Bool.decide_and, le_antisymm_iff]

@[simp] theorem real_sum (xs : List ℝ) : sum xs = xs.sum := by
  simp only [sum, real_zero, List.sum_eq_foldl]

end Scalar

end PlanarArea
