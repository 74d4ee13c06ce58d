import Mathlib.Tactic.Ring
import PlanarArea.Proofs.Plane.Exact

/-!
# Moving points

The formulas of the plane read a point through its differences from other points. So when all points
move by one vector, a distance, a side or an angle stays what it was, and a point that is made moves
along. This needs exact sums, differences and products and nothing of the other operations.
-/
namespace PlanarArea

namespace Scalar

/-- Sums, differences, products and whole numbers are those of a commutative ring, and every number
is finite. The order, quotients, roots and angles may be any functions. -/
class Exact (K : Type) [CommRing K] [Scalar K] : Prop where
  add_eq (x y : K) : add x y = x + y
  sub_eq (x y : K) : sub x y = x - y
  mul_eq (x y : K) : mul x y = x * y
  ofNat_eq (n : ℕ) : (ofNat n : K) = n
  isFinite_eq (x : K) : isFinite x = true

instance : Exact ℝ where
  add_eq _ _ := rfl
  sub_eq _ _ := rfl
  mul_eq _ _ := rfl
  ofNat_eq _ := rfl
  isFinite_eq _ := rfl

variable {K : Type} [CommRing K] [Scalar K] [Exact K] (x y : K)

theorem exact_add :
    @HAdd.hAdd K K K (@instHAdd K (@instAdd K _)) x y = x + y := Exact.add_eq x y

theorem exact_sub :
    @HSub.hSub K K K (@instHSub K (@instSub K _)) x y = x - y := Exact.sub_eq x y

theorem exact_mul :
    @HMul.hMul K K K (@instHMul K (@instMul K _)) x y = x * y := Exact.mul_eq x y

theorem exact_zero : @OfNat.ofNat K 0 (@instOfNat K _ 0) = 0 :=
  (Exact.ofNat_eq 0).trans Nat.cast_zero

theorem exact_isFinite : isFinite x = true := Exact.isFinite_eq x

theorem exact_sum (xs : List K) : sum xs = xs.sum := by
  simp only [sum, exact_add, exact_zero, List.sum_eq_foldl]

end Scalar

variable {K : Type} [CommRing K] [Scalar K] [Scalar.Exact K] (v : Point K)

namespace Point

variable (p q : Point K)

@[simp] theorem add_sub_add : p + v - (q + v) = p - q :=
  eq_of_coords (by simp [Scalar.exact_add, Scalar.exact_sub])
    (by simp [Scalar.exact_add, Scalar.exact_sub])

theorem move_add : p + v + q = p + q + v :=
  eq_of_coords (by simp [Scalar.exact_add, add_right_comm])
    (by simp [Scalar.exact_add, add_right_comm])

theorem move_sub : p + v - q = p - q + v :=
  eq_of_coords (by simp [Scalar.exact_add, Scalar.exact_sub, add_sub_right_comm])
    (by simp [Scalar.exact_add, Scalar.exact_sub, add_sub_right_comm])

@[simp] theorem isFinite_eq_true : p.isFinite = true := by
  simp only [isFinite, Scalar.exact_isFinite, Bool.and_self]

@[simp] theorem near_move : near (p + v) (q + v) = near p q := by
  simp only [near, add_sub_add]

@[simp] theorem cross_move (a b c : Point K) : cross (a + v) (b + v) (c + v) = cross a b c := by
  simp only [cross, add_sub_add]

/-- Which points are dropped depends on distances only. -/
theorem dropNear_move (last : Point K) (ps : List (Point K)) :
    dropNear (last + v) (ps.map (· + v)) = (dropNear last ps).map (· + v) := by
  induction ps generalizing last with
  | nil => rfl
  | cons p ps ih =>
    simp only [List.map_cons, dropNear, near_move, ih]
    split <;> simp

theorem spaced_move (ps : List (Point K)) :
    spaced (ps.map (· + v)) = (spaced ps).map (· + v) := by
  cases ps with
  | nil => rfl
  | cons p ps => simp only [List.map_cons, spaced, dropNear_move]

end Point

namespace Angle

@[simp] theorem about_move (center p : Point K) : about (center + v) (p + v) = about center p := by
  simp only [about, Point.add_sub_add]

theorem onCircle_move (center : Point K) (radius angle : K) :
    onCircle (center + v) radius angle = onCircle center radius angle + v :=
  Point.eq_of_coords (by simp [onCircle, Scalar.exact_add, add_right_comm])
    (by simp [onCircle, Scalar.exact_add, add_right_comm])

theorem sampleSweep_move (center : Point K) (radius start sweep : K) (intervals : Nat) :
    sampleSweep (center + v) radius start sweep intervals =
      (sampleSweep center radius start sweep intervals).map (· + v) := by
  simp only [sampleSweep, List.map_map, onCircle_move]
  rfl

end Angle

end PlanarArea
