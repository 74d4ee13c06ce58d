/-!
The numbers that coordinates, angles and areas are made of.

Plane geometry is written once, over any type with these operations. Doubles are the instance that
runs; exact numbers are others. Nothing is assumed of the operations here.
-/
namespace PlanarArea

class Scalar (α : Type) where
  add : α → α → α
  sub : α → α → α
  mul : α → α → α
  div : α → α → α
  neg : α → α
  lt : α → α → Prop
  le : α → α → Prop
  decLt : ∀ a b, Decidable (lt a b)
  decLe : ∀ a b, Decidable (le a b)
  ofNat : Nat → α
  /-- The constant `m * 10 ^ e`, or `m / 10 ^ e` if the flag is set. -/
  ofDecimal : Nat → Bool → Nat → α
  isFinite : α → Bool
  sqrt : α → α
  sin : α → α
  cos : α → α
  /-- The angle of the vector `(x, y)`, given as `atan2 y x`. -/
  atan2 : α → α → α
  pi : α
  /-- One with the sign of the argument; a zero counts by its sign, if it has one. -/
  signum : α → α
  /-- The whole part, zero for what is negative or no number. -/
  truncate : α → Nat

namespace Scalar

variable {α : Type} [Scalar α]

instance (priority := low) : Add α := ⟨add⟩
instance (priority := low) : Sub α := ⟨sub⟩
instance (priority := low) : Mul α := ⟨mul⟩
instance (priority := low) : Div α := ⟨div⟩
instance (priority := low) : Neg α := ⟨neg⟩
instance (priority := low) : LT α := ⟨lt⟩
instance (priority := low) : LE α := ⟨le⟩
instance (priority := low) (a b : α) : Decidable (a < b) := decLt a b
instance (priority := low) (a b : α) : Decidable (a ≤ b) := decLe a b
-- Above the numerals that a type may have from elsewhere, so that a literal means the same under
-- any imports.
instance (priority := 150) (n : Nat) : OfNat α n := ⟨ofNat n⟩
instance (priority := low) : OfScientific α := ⟨ofDecimal⟩

def abs (x : α) : α :=
  if x < 0 then -x else x

/-- The larger of two numbers; what is no number gives way to the other. -/
def max (x y : α) : α :=
  if x < y then y else if x ≤ x then x else y

/-- The number of the range from `lo` to `hi` that is nearest to `x`. -/
def clamp (x lo hi : α) : α :=
  if x < lo then lo else if hi < x then hi else x

/-- Equality by order: the two zeros are equal, and what is no number differs from itself. -/
def same (x y : α) : Bool :=
  x ≤ y && y ≤ x

def sum (xs : List α) : α :=
  xs.foldl (· + ·) 0

end Scalar

instance : Scalar Float where
  add := Float.add
  sub := Float.sub
  mul := Float.mul
  div := Float.div
  neg := Float.neg
  lt x y := x < y
  le x y := x ≤ y
  decLt _ _ := inferInstance
  decLe _ _ := inferInstance
  ofNat := Float.ofNat
  ofDecimal := Float.ofScientific
  isFinite := Float.isFinite
  sqrt := Float.sqrt
  sin := Float.sin
  cos := Float.cos
  atan2 := Float.atan2
  pi := 3.141592653589793
  signum x :=
    if x.isNaN then x else if x < 0 || (x == 0 && 1 / x < 0) then -1 else 1
  truncate x := x.toUInt64.toNat

end PlanarArea
