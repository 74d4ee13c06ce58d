import PlanarArea.Decimal.Dyadic

/-!
Scientific text of a double with a fixed number of significant digits.
-/
namespace PlanarArea.Decimal

/-- `places` significant digits and the exponent of the first. A carry out of the top digit moves
the exponent up. -/
def significant (places : Nat) (r : Ratio) : Nat × Int :=
  let e := r.leadingExponent
  let n := (r.scale (places - 1 - e)).roundHalfEven
  if n = Nat.pow 10 places then (Nat.pow 10 (places - 1), e + 1) else (n, e)

/-- How quantities are written: the number of significant digits, and the bound below which a
quantity counts as zero. -/
structure Precision where
  places : Nat
  noise : Float

/-- Coordinates, angles and areas of shapes. -/
def fine : Precision := ⟨9, 1e-9⟩

/-- Areas of regions that were cut on a grid. -/
def coarse : Precision := ⟨6, 1e-9⟩

/-- One digit, a point, the other digits, and the exponent after `e`; noise is written `0`. -/
def Precision.text (p : Precision) (x : Float) : String :=
  match magnitude x with
  | .nan => "NaN"
  | .infinite => if isNegative x then "-inf" else "inf"
  | .finite value =>
    if x.abs < p.noise then "0"
    else
      let (n, e) := significant p.places value.ratio
      let sign := if isNegative x then "-" else ""
      match digits n with
      | [] => ""
      | lead :: rest => s!"{sign}{lead}.{String.ofList rest}e{e}"

end PlanarArea.Decimal
