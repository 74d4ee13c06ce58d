import PlanarArea.Scalar

/-!
Points of the plane, which are also its vectors.
-/
namespace PlanarArea

structure Point (α : Type) where
  x : α
  y : α
deriving DecidableEq, Repr

namespace Point

variable {α : Type} [Scalar α]

instance : Add (Point α) := ⟨fun p q => ⟨p.x + q.x, p.y + q.y⟩⟩
instance : Sub (Point α) := ⟨fun p q => ⟨p.x - q.x, p.y - q.y⟩⟩
instance : HMul (Point α) α (Point α) := ⟨fun p t => ⟨p.x * t, p.y * t⟩⟩
instance : HDiv (Point α) α (Point α) := ⟨fun p t => ⟨p.x / t, p.y / t⟩⟩

@[simp] theorem add_x (p q : Point α) : (p + q).x = p.x + q.x := rfl
@[simp] theorem add_y (p q : Point α) : (p + q).y = p.y + q.y := rfl
@[simp] theorem sub_x (p q : Point α) : (p - q).x = p.x - q.x := rfl
@[simp] theorem sub_y (p q : Point α) : (p - q).y = p.y - q.y := rfl
@[simp] theorem mul_x (p : Point α) (t : α) : (p * t).x = p.x * t := rfl
@[simp] theorem mul_y (p : Point α) (t : α) : (p * t).y = p.y * t := rfl
@[simp] theorem div_x (p : Point α) (t : α) : (p / t).x = p.x / t := rfl
@[simp] theorem div_y (p : Point α) (t : α) : (p / t).y = p.y / t := rfl

omit [Scalar α] in
theorem eq_of_coords {p q : Point α} (hx : p.x = q.x) (hy : p.y = q.y) : p = q := by
  cases p
  cases q
  cases hx
  cases hy
  rfl

def dot (p q : Point α) : α :=
  p.x * q.x + p.y * q.y

def norm (p : Point α) : α :=
  Scalar.sqrt (p.x * p.x + p.y * p.y)

/-- The vector turned left by a right angle. -/
def turnLeft (p : Point α) : Point α :=
  ⟨-p.y, p.x⟩

def isFinite (p : Point α) : Bool :=
  Scalar.isFinite p.x && Scalar.isFinite p.y

/-- Below this distance two points count as one. -/
def coincidence : α := 1e-12

def near (p q : Point α) : Bool :=
  (p - q).norm < coincidence

/-- Equal coordinates. -/
def same (p q : Point α) : Bool :=
  Scalar.same p.x q.x && Scalar.same p.y q.y

/-- Twice the signed area of the triangle `a b c`, positive when `c` lies left of the directed line
from `a` to `b`. -/
def cross (a b c : Point α) : α :=
  (b - a).x * (c - a).y - (b - a).y * (c - a).x

/-- Leaves out every point near the last one kept, `last` being kept before the first. -/
def dropNear (last : Point α) : List (Point α) → List (Point α)
  | [] => []
  | p :: ps => if near last p then dropNear last ps else p :: dropNear p ps

/-- The points of a path, each at a distance from the one before. -/
def spaced : List (Point α) → List (Point α)
  | [] => []
  | p :: ps => p :: dropNear p ps

@[simp] theorem spaced_nil : spaced ([] : List (Point α)) = [] := rfl

theorem dropNear_sublist (last : Point α) (ps : List (Point α)) :
    List.Sublist (dropNear last ps) ps := by
  induction ps generalizing last with
  | nil => exact List.Sublist.slnil
  | cons p ps ih =>
    unfold dropNear
    split
    · exact (ih last).cons p
    · exact (ih p).cons_cons p

theorem spaced_sublist (ps : List (Point α)) : List.Sublist (spaced ps) ps := by
  cases ps with
  | nil => exact List.Sublist.slnil
  | cons p ps => exact (dropNear_sublist p ps).cons_cons p

end Point

end PlanarArea
