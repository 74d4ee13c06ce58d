/-!
The four operators that combine two regions, their symbols and how tightly they bind.
-/
namespace PlanarArea

inductive Op where
  | inter
  | union
  | diff
  | xor
deriving DecidableEq, Repr

namespace Op

def symbol : Op → Char
  | inter => '&'
  | union => '|'
  | diff => '-'
  | xor => '^'

def ofSymbol? : Char → Option Op
  | '&' => some inter
  | '|' => some union
  | '-' => some diff
  | '^' => some xor
  | _ => none

/-- Intersection and difference bind tighter than union and symmetric difference. -/
def precedence : Op → Nat
  | union | xor => 1
  | inter | diff => 2

/-- Membership in the combined set, from membership in the two operands. -/
def holds : Op → Bool → Bool → Bool
  | inter, a, b => a && b
  | union, a, b => a || b
  | diff, a, b => a && !b
  | xor, a, b => a != b

@[simp] theorem ofSymbol?_symbol (op : Op) : ofSymbol? op.symbol = some op := by
  cases op <;> rfl

theorem ofSymbol?_eq_some_iff {c : Char} {op : Op} : ofSymbol? c = some op ↔ c = op.symbol := by
  constructor
  · intro h
    unfold ofSymbol? at h
    split at h
    · cases h
      rfl
    · cases h
      rfl
    · cases h
      rfl
    · cases h
      rfl
    · cases h
  · rintro rfl
    exact ofSymbol?_symbol op

end Op

end PlanarArea
