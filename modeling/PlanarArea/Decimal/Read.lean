/-!
Reading decimals: digits, the double nearest to a decimal, and the usual texts of doubles.
-/
namespace PlanarArea.Decimal

def digitsValue (cs : List Char) : Nat :=
  cs.foldl (fun n c => 10 * n + (c.toNat - '0'.toNat)) 0

/-- The digits at the front, and the rest. -/
def splitDigits (cs : List Char) : List Char × List Char :=
  (cs.takeWhile Char.isDigit, cs.dropWhile Char.isDigit)

/-- The sign at the front, and the rest. -/
def splitSign : List Char → Bool × List Char
  | '-' :: cs => (true, cs)
  | '+' :: cs => (false, cs)
  | cs => (false, cs)

/-- The exponent at the front, if there is one; an `e` needs a digit after it. -/
def splitExponent? : List Char → Option (Option Int × List Char)
  | c :: cs =>
    if c = 'e' || c = 'E' then
      let (negative, tail) := splitSign cs
      match splitDigits tail with
      | ([], _) => none
      | (ds, rest) =>
        let size : Int := digitsValue ds
        some (some (if negative then -size else size), rest)
    else some (none, c :: cs)
  | [] => some (none, [])

/-- The double nearest to `mantissa * 10 ^ exponent`, infinite beyond the largest one. The size is
compared first, so that a huge exponent costs nothing. -/
def nearest (negative : Bool) (mantissa : Nat) (exponent : Int) : Float :=
  let size := ((Nat.toDigits 10 mantissa).length : Int) + exponent
  let x : Float :=
    if mantissa = 0 || size < -400 then 0
    else if 400 < size then 1 / 0
    else Float.ofScientific mantissa (exponent < 0) exponent.natAbs
  if negative then -x else x

/-- A decimal with a digit on one side of the point at least. -/
def unsigned? (negative : Bool) (cs : List Char) : Option Float := do
  let (whole, rest) := splitDigits cs
  let (places, rest) := match rest with
    | '.' :: tail => splitDigits tail
    | _ => ([], rest)
  if whole = [] ∧ places = [] then none
  else
    let (exponent, rest) ← splitExponent? rest
    if rest = [] then
      some (nearest negative (digitsValue (whole ++ places))
        (exponent.getD 0 - places.length))
    else none

/-- The double of a text: a signed decimal, or the name of an infinity or of NaN in any case. -/
def ofText? (text : String) : Option Float :=
  let (negative, cs) := splitSign text.toList
  let word := String.ofList (cs.map Char.toLower)
  if word = "inf" ∨ word = "infinity" then some (if negative then -1 / 0 else 1 / 0)
  else if word = "nan" then some (0 / 0)
  else unsigned? negative cs

end PlanarArea.Decimal
