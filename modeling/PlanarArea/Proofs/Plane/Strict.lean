import PlanarArea.Plane.Angle

/-!
# Numbers that are not finite

A sum, a difference or a product is finite only if both operands are. So a point that is worked out
from a number that is not finite is not finite either, whatever the other numbers are.

Doubles have these laws. Of their sine and cosine nothing can be computed, so the two are left open
here.
-/
namespace PlanarArea

namespace Scalar

/-- Operations lead to finite numbers from finite numbers only. -/
structure Strict (α : Type) [Scalar α] : Prop where
  add {x y : α} : isFinite (x + y) = true → isFinite x = true ∧ isFinite y = true
  sub {x y : α} : isFinite (x - y) = true → isFinite x = true ∧ isFinite y = true
  mul {x y : α} : isFinite (x * y) = true → isFinite x = true ∧ isFinite y = true

section Unpacked

open Float.Model UnpackedFloat

variable {spec : Format} {u v : UnpackedFloat}

theorem isFinite_of_add (h : (UnpackedFloat.add spec u v).isFinite = true) :
    u.isFinite = true ∧ v.isFinite = true := by
  cases u with
  | notANumber => cases v <;> cases h
  | infinity s =>
    cases v with
    | infinity t => cases s <;> cases t <;> cases h
    | _ => cases h
  | _ =>
    cases v with
    | notANumber => cases h
    | infinity t => cases h
    | _ => exact ⟨rfl, rfl⟩

theorem isFinite_of_sub (h : (UnpackedFloat.sub spec u v).isFinite = true) :
    u.isFinite = true ∧ v.isFinite = true := by
  cases u with
  | notANumber => cases v <;> cases h
  | infinity s =>
    cases v with
    | infinity t => cases s <;> cases t <;> cases h
    | _ => cases h
  | _ =>
    cases v with
    | notANumber => cases h
    | infinity t => cases h
    | _ => exact ⟨rfl, rfl⟩

theorem isFinite_of_mul (h : (UnpackedFloat.mul spec u v).isFinite = true) :
    u.isFinite = true ∧ v.isFinite = true := by
  cases u with
  | notANumber => cases v <;> cases h
  | infinity s => cases v <;> cases h
  | _ =>
    cases v with
    | notANumber => cases h
    | infinity t => cases h
    | _ => exact ⟨rfl, rfl⟩

/-- Packing makes nothing finite. -/
theorem isFinite_of_pack (h : (Float.Model.pack u).unpack.isFinite = true) :
    u.isFinite = true := by
  cases u with
  | notANumber => cases h
  | infinity s => cases s <;> cases h
  | _ => rfl

end Unpacked

theorem isFinite_eq_false_of_isNaN {a : Float} (h : a.isNaN = true) : a.isFinite = false := by
  change a.toModel.unpack.isNaN = true at h
  change a.toModel.unpack.isFinite = false
  cases hu : a.toModel.unpack with
  | notANumber => rfl
  | _ =>
    rw [hu] at h
    cases h

theorem isFinite_of_apply {f : Float → Float}
    (hf : ∀ x, x.isFinite = false → (f x).isNaN = true) {x : Float}
    (h : (f x).isFinite = true) : x.isFinite = true := by
  cases hx : x.isFinite with
  | true => rfl
  | false =>
    rw [isFinite_eq_false_of_isNaN (hf x hx)] at h
    cases h

/-- Doubles with these functions as sine and cosine. -/
@[reducible] def doubles (sin cos : Float → Float) : Scalar Float :=
  { (inferInstance : Scalar Float) with sin := sin, cos := cos }

-- With the functions that run these are the doubles that run.
example : doubles Float.sin Float.cos = (inferInstance : Scalar Float) := rfl

theorem strict_doubles (sin cos : Float → Float) : @Strict Float (doubles sin cos) :=
  let := doubles sin cos
  { add := fun h => isFinite_of_add (isFinite_of_pack h)
    sub := fun h => isFinite_of_sub (isFinite_of_pack h)
    mul := fun h => isFinite_of_mul (isFinite_of_pack h) }

end Scalar

end PlanarArea
