import Mathlib
import PlanarArea.Plane.Point

/-!
# Doubles

Facts about the order of doubles and about their differences. Which of two doubles is taken from the
other shows in the sign of the difference alone, and a square does not show it, so that nearness
does not depend on the order of two points. Neither does it tell points apart that have equal
coordinates, of which one may have the other zero.
-/
namespace PlanarArea

namespace Scalar

open Float.Model

theorem le_iff_unpack {a b : Float} : a ≤ b ↔ a.toModel.unpack.le b.toModel.unpack = true :=
  decide_eq_true_iff

theorem lt_iff_unpack {a b : Float} : a < b ↔ a.toModel.unpack.lt b.toModel.unpack = true :=
  decide_eq_true_iff

theorem isNaN_eq_unpack (a : Float) : a.isNaN = a.toModel.unpack.isNaN := rfl

theorem unpack_zero : (0 : Float).toModel.unpack = .zero .positive := rfl

/-- What is no number is the double that is not at most itself. -/
theorem le_self_iff {a : Float} : a ≤ a ↔ ¬ a.isNaN = true := by
  rw [le_iff_unpack, isNaN_eq_unpack]
  cases a.toModel.unpack with
  | infinity sign => cases sign <;> decide
  | notANumber => decide
  | zero sign => cases sign <;> decide
  | finite sign mantissa exponent hpos =>
    have hself : UnpackedFloat.compare (.finite sign mantissa exponent hpos)
        (.finite sign mantissa exponent hpos) = some .eq := by
      have hparts : (compare exponent exponent).then (compare mantissa mantissa) = .eq := by
        simp
      cases sign with
      | positive => exact congrArg some hparts
      | negative => exact congrArg (fun o => some (Ordering.swap o)) hparts
    rw [UnpackedFloat.le, hself]
    exact iff_of_true rfl Bool.false_ne_true

/-- A number is positive if it is not at most zero. -/
theorem pos_iff {a : Float} : 0 < a ↔ ¬ a.isNaN = true ∧ ¬ a ≤ 0 := by
  rw [lt_iff_unpack, le_iff_unpack, isNaN_eq_unpack, unpack_zero]
  cases a.toModel.unpack with
  | infinity sign => cases sign <;> decide
  | notANumber => decide
  | zero sign => cases sign <;> decide
  | finite sign mantissa exponent hpos =>
    cases sign with
    | positive => exact iff_of_true rfl ⟨Bool.false_ne_true, Bool.false_ne_true⟩
    | negative => exact iff_of_false Bool.false_ne_true fun h => h.2 rfl

theorem le_of_lt {a b : Float} (h : a < b) : a ≤ b := by
  rw [lt_iff_unpack, UnpackedFloat.lt, beq_iff_eq] at h
  rw [le_iff_unpack, UnpackedFloat.le, h]
  rfl

theorem not_le_of_isNaN {a b : Float} (h : a.isNaN = true) : ¬ a ≤ b := by
  rw [isNaN_eq_unpack] at h
  rw [le_iff_unpack]
  revert h
  cases a.toModel.unpack with
  | infinity sign => exact fun h => absurd h Bool.false_ne_true
  | notANumber => exact fun _ => Bool.false_ne_true
  | zero sign => exact fun h => absurd h Bool.false_ne_true
  | finite sign mantissa exponent hpos => exact fun h => absurd h Bool.false_ne_true

/-- The larger of a double and zero. -/
theorem max_zero_of_pos {a : Float} (h : 0 < a) : Scalar.max a 0 = a := by
  obtain ⟨hnumber, hpos⟩ := pos_iff.mp h
  have hlt : ¬ a < 0 := fun hneg => hpos (le_of_lt hneg)
  exact (if_neg hlt).trans (if_pos (le_self_iff.mpr hnumber))

theorem max_zero_of_isNaN {a : Float} (h : a.isNaN = true) : Scalar.max a 0 = 0 := by
  have hlt : ¬ a < 0 := fun hneg => not_le_of_isNaN h (le_of_lt hneg)
  exact (if_neg hlt).trans (if_neg (not_le_of_isNaN h))

section Unpacked

open UnpackedFloat

theorem abs_round (spec : Format) (s s' : Sign) (m : Nat) (e : Int) :
    (UnpackedFloat.round spec s m e).abs = (UnpackedFloat.round spec s' m e).abs := by
  simp only [UnpackedFloat.round, roundWithAccuracy]
  split <;> rfl

theorem abs_normalize_neg (spec : Format) (m : Int) (e : Int) (s : Sign) :
    (UnpackedFloat.normalize spec (-m) e s).abs = (UnpackedFloat.normalize spec m e s).abs := by
  rcases Int.lt_trichotomy m 0 with h | h | h
  · have hpos : compare (-m) 0 = .gt := Int.compare_eq_gt.mpr (by omega)
    have hneg : compare m 0 = .lt := Int.compare_eq_lt.mpr h
    simp only [UnpackedFloat.normalize, hpos, hneg]
    exact abs_round spec _ _ _ e
  · rw [h, Int.neg_zero]
  · have hneg : compare (-m) 0 = .lt := Int.compare_eq_lt.mpr (by omega)
    have hpos : compare m 0 = .gt := Int.compare_eq_gt.mpr h
    simp only [UnpackedFloat.normalize, hpos, hneg, Int.neg_neg]
    exact abs_round spec _ _ _ e

theorem abs_sub_comm (spec : Format) (u v : UnpackedFloat) :
    (UnpackedFloat.sub spec u v).abs = (UnpackedFloat.sub spec v u).abs := by
  cases u with
  | notANumber => cases v <;> rfl
  | infinity s =>
    cases v with
    | infinity t => cases s <;> cases t <;> rfl
    | _ => rfl
  | zero s =>
    cases v with
    | zero t => cases s <;> cases t <;> rfl
    | _ => rfl
  | finite s m e h =>
    cases v with
    | finite t n f h' =>
      simp only [UnpackedFloat.sub]
      rw [Int.min_comm f e, ← Int.neg_sub (s.apply _), abs_normalize_neg]
    | _ => rfl

/-- What is unpacked is the same up to its sign if what is packed is. -/
theorem abs_unpack_packComponents (spec : Format) (s t : Sign) (e : BitVec spec.exponentBits)
    (m : BitVec spec.mantissaBitsWithoutImplicit) :
    (UnpackedFloat.unpack spec (packComponents spec s e m)).abs =
      (UnpackedFloat.unpack spec (packComponents spec t e m)).abs := by
  simp only [UnpackedFloat.unpack, unpackExponent_packComponents, unpackMantissa_packComponents]
  split
  · split <;> rfl
  · split
    · split <;> rfl
    · rfl

theorem abs_unpack_pack {spec : Format} {u v : UnpackedFloat} (h : u.abs = v.abs) :
    (UnpackedFloat.unpack spec (UnpackedFloat.pack spec u)).abs =
      (UnpackedFloat.unpack spec (UnpackedFloat.pack spec v)).abs := by
  cases u with
  | notANumber =>
    cases v with
    | notANumber => rfl
    | _ => cases h
  | infinity s =>
    cases v with
    | infinity t => exact abs_unpack_packComponents spec s t _ _
    | _ => cases h
  | zero s =>
    cases v with
    | zero t => exact abs_unpack_packComponents spec s t _ _
    | _ => cases h
  | finite s m e hm =>
    cases v with
    | finite t n f hn =>
      obtain ⟨rfl, rfl⟩ : m = n ∧ e = f := by simpa [UnpackedFloat.abs] using h
      simp only [UnpackedFloat.pack]
      split
      · exact abs_unpack_packComponents spec s t _ _
      · split
        · exact abs_unpack_packComponents spec s t _ _
        · exact abs_unpack_packComponents spec s t _ _
    | _ => cases h

theorem mul_self_of_abs {spec : Format} {u v : UnpackedFloat} (h : u.abs = v.abs) :
    UnpackedFloat.mul spec u u = UnpackedFloat.mul spec v v := by
  have hsign : ∀ s t : Sign, s * s = t * t := by
    intro s t
    cases s <;> cases t <;> rfl
  cases u with
  | notANumber =>
    cases v with
    | notANumber => rfl
    | _ => cases h
  | infinity s =>
    cases v with
    | infinity t => exact congrArg UnpackedFloat.infinity (hsign s t)
    | _ => cases h
  | zero s =>
    cases v with
    | zero t => exact congrArg UnpackedFloat.zero (hsign s t)
    | _ => cases h
  | finite s m e hm =>
    cases v with
    | finite t n f hn =>
      obtain ⟨rfl, rfl⟩ : m = n ∧ e = f := by simpa [UnpackedFloat.abs] using h
      simp only [UnpackedFloat.mul, hsign s t]
    | _ => cases h

/-- The exponents are compared first, the mantissas if they are equal. -/
theorem eq_of_then_isLE {m n : Nat} {e f : Int}
    (hle : ((compare e f).then (compare m n)).isLE = true)
    (hge : ((compare f e).then (compare n m)).isLE = true) : m = n ∧ e = f := by
  rcases Int.lt_trichotomy e f with h | rfl | h
  · rw [Int.compare_eq_gt.mpr h] at hge
    cases hge
  · rcases Nat.lt_trichotomy m n with h | rfl | h
    · rw [Int.compare_eq_eq.mpr rfl, Nat.compare_eq_gt.mpr h] at hge
      cases hge
    · exact ⟨rfl, rfl⟩
    · rw [Int.compare_eq_eq.mpr rfl, Nat.compare_eq_gt.mpr h] at hle
      cases hle
  · rw [Int.compare_eq_gt.mpr h] at hle
    cases hle

/-- Numbers that are at most each other are the same, but for the sign of zero. -/
theorem eq_of_le_of_le {u v : UnpackedFloat} (hle : u.le v = true) (hge : v.le u = true) :
    u = v ∨ ∃ s t, u = .zero s ∧ v = .zero t := by
  cases u with
  | notANumber => cases hle
  | infinity s =>
    cases v with
    | infinity t =>
      left
      cases s <;> cases t
      · rfl
      · cases hge
      · cases hle
      · rfl
    | _ => cases s <;> simp [UnpackedFloat.le, UnpackedFloat.compare] at hle hge
  | zero s =>
    cases v with
    | zero t => exact .inr ⟨s, t, rfl, rfl⟩
    | notANumber => cases hle
    | infinity t => cases t <;> simp [UnpackedFloat.le, UnpackedFloat.compare] at hle hge
    | finite t => cases t <;> simp [UnpackedFloat.le, UnpackedFloat.compare] at hle hge
  | finite s m e hm =>
    cases v with
    | finite t n f hn =>
      left
      cases s <;> cases t
      · -- Below zero the order of the sizes is turned round.
        rw [UnpackedFloat.le, UnpackedFloat.compare, Option.any_some, Ordering.swap_then,
          Int.compare_swap, Nat.compare_swap] at hle hge
        obtain ⟨rfl, rfl⟩ := eq_of_then_isLE hle hge
        rfl
      · cases hge
      · cases hle
      · obtain ⟨rfl, rfl⟩ := eq_of_then_isLE hle hge
        rfl
    | notANumber => cases s <;> cases hle
    | infinity t =>
      cases s <;> cases t <;> simp [UnpackedFloat.le, UnpackedFloat.compare] at hle hge
    | zero t => cases s <;> simp [UnpackedFloat.le, UnpackedFloat.compare] at hle hge

end Unpacked

/-- A double without its sign. -/
def magnitude (a : Float) : UnpackedFloat :=
  a.toModel.unpack.abs

theorem mul_self_of_magnitude {a b : Float} (h : magnitude a = magnitude b) :
    Float.mul a a = Float.mul b b :=
  congrArg (fun u => Float.ofModel (Float.Model.pack u)) (mul_self_of_abs h)

theorem magnitude_sub_comm (a b : Float) : magnitude (Float.sub a b) = magnitude (Float.sub b a) :=
  abs_unpack_pack (abs_sub_comm .binary64 a.toModel.unpack b.toModel.unpack)

theorem unpack_of_same {a b : Float} (h : same a b = true) :
    a.toModel.unpack = b.toModel.unpack ∨
      ∃ s t, a.toModel.unpack = .zero s ∧ b.toModel.unpack = .zero t := by
  obtain ⟨hle, hge⟩ := (Bool.and_eq_true _ _).mp h
  exact eq_of_le_of_le (le_iff_unpack.mp (of_decide_eq_true hle))
    (le_iff_unpack.mp (of_decide_eq_true hge))

theorem magnitude_sub_congr {a b : Float} (h : same a b = true) (c : Float) :
    magnitude (Float.sub a c) = magnitude (Float.sub b c) := by
  refine abs_unpack_pack ?_
  obtain heq | ⟨s, t, ha, hb⟩ := unpack_of_same h
  · rw [heq]
  · rw [ha, hb]
    cases c.toModel.unpack with
    | zero u => cases s <;> cases t <;> cases u <;> rfl
    | _ => rfl

theorem magnitude_sub_self {a : Float} (h : a.isFinite = true) :
    magnitude (Float.sub a a) = magnitude 0 := by
  have hzero : UnpackedFloat.sub .binary64 a.toModel.unpack a.toModel.unpack =
      .zero .positive := by
    have hfinite : a.toModel.unpack.isFinite = true := h
    revert hfinite
    cases a.toModel.unpack with
    | notANumber => exact fun hfinite => absurd hfinite Bool.false_ne_true
    | infinity s => exact fun hfinite => absurd hfinite Bool.false_ne_true
    | zero s => cases s <;> exact fun _ => rfl
    | finite s m e hm =>
      simp only [UnpackedFloat.sub, Int.sub_self]
      exact fun _ => rfl
  have hpacked : (Float.Model.pack (.zero .positive)).unpack.abs = magnitude 0 := rfl
  exact (congrArg (fun u => (Float.Model.pack u).unpack.abs) hzero).trans hpacked

end Scalar

namespace Point

variable {p q r : Point Float}

theorem near_of_magnitude {p' q' : Point Float}
    (hx : Scalar.magnitude (Float.sub p.x q.x) = Scalar.magnitude (Float.sub p'.x q'.x))
    (hy : Scalar.magnitude (Float.sub p.y q.y) = Scalar.magnitude (Float.sub p'.y q'.y)) :
    near p q = near p' q' := by
  have hxx := Scalar.mul_self_of_magnitude hx
  have hyy := Scalar.mul_self_of_magnitude hy
  have hnorm : (p - q).norm = (p' - q').norm :=
    congrArg Float.sqrt (congr (congrArg Float.add hxx) hyy)
  rw [near, near, hnorm]

theorem near_comm_float (p q : Point Float) : near p q = near q p :=
  near_of_magnitude (Scalar.magnitude_sub_comm _ _) (Scalar.magnitude_sub_comm _ _)

theorem near_congr_of_same (h : same p q = true) (r : Point Float) : near p r = near q r := by
  obtain ⟨hx, hy⟩ := (Bool.and_eq_true _ _).mp h
  exact near_of_magnitude (Scalar.magnitude_sub_congr hx _) (Scalar.magnitude_sub_congr hy _)

theorem near_self_of_isFinite (h : p.isFinite = true) : near p p = true := by
  obtain ⟨hx, hy⟩ := (Bool.and_eq_true _ _).mp h
  have hzero : near (⟨0, 0⟩ : Point Float) ⟨0, 0⟩ = true := by decide +kernel
  rw [← hzero]
  exact near_of_magnitude
    ((Scalar.magnitude_sub_self hx).trans (Scalar.magnitude_sub_self (a := 0) (by decide)).symm)
    ((Scalar.magnitude_sub_self hy).trans (Scalar.magnitude_sub_self (a := 0) (by decide)).symm)

end Point

end PlanarArea
