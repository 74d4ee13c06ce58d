import PlanarArea.Decimal.Dyadic

/-!
The shortest decimal that reads back as a given double.

A decimal reads back as `m * 2 ^ q` if it lies between the midpoints to the two neighbouring
doubles, the midpoints themselves included when `m` is even. For one digit, two digits and so on,
the two points of the decimal grid next to the value are tried; the first grid with a hit wins.
-/
namespace PlanarArea.Decimal

/-- The gap to the double below is half the gap to the one above when the mantissa is the least
normal one and a smaller exponent exists. -/
def Dyadic.narrowBelow (d : Dyadic) : Bool :=
  d.mantissa = leastNormal && -1074 < d.exponent

/-- Whether `n * 10 ^ k` reads back as `d`. All sides are taken times four, in units of
`2 ^ d.exponent`. -/
def Dyadic.readsBack (d : Dyadic) (n : Nat) (k : Int) : Bool :=
  let unit : Dyadic := ⟨1, d.exponent⟩
  let u := unit.ratio
  let p := (Ratio.mk n 1 Nat.one_pos).scale k
  let here := 4 * p.num * u.den
  let size := p.den * u.num
  let gap : Nat := if d.narrowBelow then 1 else 2
  let low := (4 * d.mantissa - gap) * size
  let high := (4 * d.mantissa + 2) * size
  if d.mantissa % 2 = 0 then low ≤ here && here ≤ high else low < here && here < high

/-- A decimal number `digits * 10 ^ exponent`. -/
structure Scaled where
  digits : Nat
  exponent : Int
deriving DecidableEq, Repr

/-- The grid point with `places` digits that reads back as `d`, the nearer one of two. -/
def Dyadic.onGrid? (d : Dyadic) (places : Nat) : Option Scaled :=
  let r := d.ratio
  let k := r.leadingExponent - (places - 1)
  let s := r.scale (-k)
  let below := s.num / s.den
  let rest := s.num % s.den
  match d.readsBack below k, d.readsBack (below + 1) k with
  | true, true =>
    if 2 * rest < s.den || (2 * rest = s.den && below % 2 = 0) then some ⟨below, k⟩
    else some ⟨below + 1, k⟩
  | true, false => some ⟨below, k⟩
  | false, true => some ⟨below + 1, k⟩
  | false, false => none

/-- The shortest decimal that reads back as a positive `d`; seventeen digits are always enough. -/
def Dyadic.shortest (d : Dyadic) : Scaled :=
  ((List.range 17).findSome? fun n => d.onGrid? (n + 1)).getD ⟨d.mantissa, d.exponent⟩

/-- The decimal without trailing zeros. -/
def Scaled.trim (s : Scaled) : Scaled :=
  if h : s.digits ≠ 0 ∧ s.digits % 10 = 0 then
    Scaled.trim ⟨s.digits / 10, s.exponent + 1⟩
  else s
termination_by s.digits
decreasing_by omega

end PlanarArea.Decimal
