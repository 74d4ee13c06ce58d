import PlanarArea.Decimal.Read
import PlanarArea.Json.Basic

/-!
JSON numbers: an optional minus sign, an integer without leading zeros, an optional fraction and
an optional exponent.

Integers of 64 bits keep their value. Any other number becomes a double in two rounded steps: as
many digits as fit 64 bits are taken as a whole number, which is then multiplied or divided by a
power of ten. Digits beyond these only move the point, so the last place of the double may differ
from that of the nearest one.
-/
namespace PlanarArea.Json

open Decimal (splitDigits splitExponent?)

/-- A number as it is written: `± whole.fraction * 10 ^ exponent`. -/
structure Numeral where
  negative : Bool
  whole : List Char
  /-- The digits after the point, if there is one. -/
  fraction : Option (List Char)
  exponent : Option Int
deriving DecidableEq, Repr

namespace Numeral

/-- One more than the largest number of 64 bits. -/
def wordEnd : Nat := 18446744073709551616

/-- Appends digits to a number for as long as it fits 64 bits; also gives how many are left. -/
def appendDigits (n : Nat) : List Char → Nat × Nat
  | [] => (n, 0)
  | c :: cs =>
    let longer := 10 * n + (c.toNat - '0'.toNat)
    if longer < wordEnd then appendDigits longer cs else (n, cs.length + 1)

/-- The digits that count as a whole number of 64 bits, and the power of ten that goes with it. -/
def significand (n : Numeral) : Nat × Int :=
  let places := n.fraction.getD []
  let (size, cut) := appendDigits 0 n.whole
  let (size, unread) := appendDigits size places
  (size, n.exponent.getD 0 + cut - (places.length - unread : Nat))

/-- The largest power of ten that a double holds has this exponent. -/
def maxPower : Nat := 308

/-- The double nearest to `10 ^ k`. -/
def power (k : Nat) : Float :=
  Float.ofScientific 1 false k

def finite? (x : Float) : Option Float :=
  if x.isFinite then some x else none

/-- `x * 10 ^ exponent`, none beyond the largest double. One power of ten is enough, unless the
number is so small that it is divided more than once. -/
def shift? (x : Float) (exponent : Int) : Option Float :=
  if exponent.natAbs ≤ maxPower then
    if exponent < 0 then some (x / power exponent.natAbs)
    else finite? (x * power exponent.natAbs)
  else if x == 0 then some x
  else if 0 < exponent then none
  else shift? (x / power maxPower) (exponent + maxPower)
termination_by exponent.natAbs
decreasing_by
  simp only [maxPower] at *
  omega

def float? (n : Numeral) : Option Float :=
  let (size, exponent) := n.significand
  (shift? (Float.ofNat size) exponent).map fun x => if n.negative then -x else x

/-- The integer that a numeral writes without a fraction and an exponent, if it fits 64 bits with
a sign or without one. Minus zero does not count, as no integer has its sign. -/
def int? (n : Numeral) : Option Int :=
  match n.fraction, n.exponent, appendDigits 0 n.whole with
  | none, none, (size, 0) =>
    if !n.negative then some size
    else if 0 < size ∧ size ≤ 9223372036854775808 then some (-size)
    else none
  | _, _, _ => none

/-- The value of a numeral, none beyond the largest double. -/
def value? (n : Numeral) : Option Json :=
  match n.int? with
  | some i => some (.int i)
  | none => n.float?.map .float

end Numeral

/-- The fraction at the front, if there is a point; a point needs a digit after it. -/
def splitFraction? : List Char → Option (Option (List Char) × List Char)
  | '.' :: cs =>
    match splitDigits cs with
    | ([], _) => none
    | (places, rest) => some (some places, rest)
  | cs => some (none, cs)

/-- The whole part at the front: a zero or digits that start with another one. -/
def splitWhole? (cs : List Char) : Option (List Char × List Char) :=
  match splitDigits cs with
  | ([], _) => none
  | ('0' :: _ :: _, _) => none
  | split => some split

/-- The numeral at the front, and the rest. -/
def splitNumeral? (cs : List Char) : Option (Numeral × List Char) := do
  let (negative, cs) := match cs with
    | '-' :: tail => (true, tail)
    | tail => (false, tail)
  let (whole, cs) ← splitWhole? cs
  let (fraction, cs) ← splitFraction? cs
  let (exponent, cs) ← splitExponent? cs
  return (⟨negative, whole, fraction, exponent⟩, cs)

end PlanarArea.Json
