/-!
The exact value of a double: an integer times a power of two, and where its decimal digits start.
-/
namespace PlanarArea.Decimal

/-- The number `mantissa * 2 ^ exponent`. -/
structure Dyadic where
  mantissa : Nat
  exponent : Int
deriving DecidableEq, Repr

inductive Magnitude where
  | nan
  | infinite
  | finite (value : Dyadic)
deriving DecidableEq, Repr

/-- Whether the sign bit of a double is set. -/
def isNegative (x : Float) : Bool :=
  x.toBits.toNat.testBit 63

/-- The mantissa of the powers of two that are not subnormal. The mantissas of other doubles of the
same size are larger by less than this. -/
def leastNormal : Nat := 4503599627370496

/-- The absolute value of a double, exactly. -/
def magnitude (x : Float) : Magnitude :=
  let bits := x.toBits.toNat
  let fraction : Nat := bits % leastNormal
  let biased : Nat := bits / leastNormal % 2048
  if biased = 2047 then
    if fraction = 0 then .infinite else .nan
  else if biased = 0 then .finite ⟨fraction, -1074⟩
  else .finite ⟨leastNormal + fraction, (biased : Int) - 1075⟩

/-- A fraction of natural numbers with a positive denominator. -/
structure Ratio where
  num : Nat
  den : Nat
  den_pos : 0 < den

def Dyadic.ratio (d : Dyadic) : Ratio :=
  match d.exponent with
  | .ofNat k => ⟨d.mantissa * Nat.pow 2 k, 1, by decide⟩
  | .negSucc k => ⟨d.mantissa, Nat.pow 2 (k + 1), Nat.two_pow_pos _⟩

/-- The fraction times `10 ^ k`. -/
def Ratio.scale (r : Ratio) (k : Int) : Ratio :=
  match k with
  | .ofNat k => ⟨r.num * Nat.pow 10 k, r.den, r.den_pos⟩
  | .negSucc k =>
    ⟨r.num, r.den * Nat.pow 10 (k + 1), Nat.mul_pos r.den_pos (Nat.pow_pos (by decide))⟩

/-- The nearest natural number, of two equally near ones the even one. -/
def Ratio.roundHalfEven (r : Ratio) : Nat :=
  let quotient := r.num / r.den
  let rest := 2 * (r.num % r.den)
  if rest < r.den then quotient
  else if r.den < rest then quotient + 1
  else quotient + quotient % 2

/-- The digits of `n` in base ten, at least one. -/
def digits (n : Nat) : List Char :=
  Nat.toDigits 10 n

/-- The exponent of the leading decimal digit of a positive fraction. -/
def Ratio.leadingExponent (r : Ratio) : Int :=
  if r.den ≤ r.num then ((digits (r.num / r.den)).length : Int) - 1
  else
    let places := (digits (r.den / r.num)).length
    if r.den ≤ r.num * Nat.pow 10 (places - 1) then 1 - (places : Int) else -(places : Int)

end PlanarArea.Decimal
