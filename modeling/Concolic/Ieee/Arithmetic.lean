import Concolic.Ieee.Double

/-
# Arithmetic on doubles

Each operation computes the exact result of its operands and rounds it once: to double precision, or
to single precision for the operations on floats.  The rounding is a parameter of the operation.

The sum, the difference, the product and the quotient hand on the first operand that is not a number.
The remainder always gives the same pattern instead.
-/
namespace Concolic.Double

open Ieee

/-- A rounding of `± n / d` to a double. -/
abbrev Rounder := Bool → Nat → Nat → Double

/-- The exact integer `± m * 2 ^ q / 2 ^ unit` for `unit ≤ q`. -/
def scaledInt (neg : Bool) (m : Nat) (q unit : Int) : Int :=
  let n : Nat := m * pow2 (q - unit)
  if neg then -n else n

/-- Rounds `n * 2 ^ q`; the sign of a zero is `zeroNeg`. -/
def roundInt (round : Rounder) (zeroNeg : Bool) (n : Int) (q : Int) : Double :=
  if n = 0 then zero zeroNeg
  else round (n < 0) (n.natAbs * pow2 q) (pow2 (-q))

/-- The sum.  A zero sum is negative only if both operands are. -/
def addWith (round : Rounder) (x y : Double) : Double :=
  match x.view, y.view with
  | .nan, _ => x
  | _, .nan => y
  | .infinite a, .infinite b => if a = b then x else invalid
  | .infinite _, _ => x
  | _, .infinite _ => y
  | .finite a m p, .finite b n q =>
    let unit := min p q
    roundInt round (a && b) (scaledInt a m p unit + scaledInt b n q unit) unit

/-- The pattern with the other sign. -/
def neg (x : Double) : Double := ofFields (!x.isNegative) (x.bits.toNat % pow2 63)

/-- The difference. -/
def subWith (round : Rounder) (x y : Double) : Double :=
  addWith round x (if y.isNaN then y else y.neg)

/-- The product. -/
def mulWith (round : Rounder) (x y : Double) : Double :=
  match x.view, y.view with
  | .nan, _ => x
  | _, .nan => y
  | .infinite a, .infinite b => infinity (a != b)
  | .infinite a, .finite b n _ => if n = 0 then invalid else infinity (a != b)
  | .finite a m _, .infinite b => if m = 0 then invalid else infinity (a != b)
  | .finite a m p, .finite b n q => round (a != b) (m * n * pow2 (p + q)) (pow2 (-(p + q)))

/-- The quotient. -/
def divWith (round : Rounder) (x y : Double) : Double :=
  match x.view, y.view with
  | .nan, _ => x
  | _, .nan => y
  | .infinite _, .infinite _ => invalid
  | .infinite a, .finite b _ _ => infinity (a != b)
  | .finite a _ _, .infinite b => zero (a != b)
  | .finite a m p, .finite b n q =>
    if n = 0 then (if m = 0 then invalid else infinity (a != b))
    else round (a != b) (m * pow2 (p - q)) (n * pow2 (q - p))

/-- The remainder of the quotient cut toward zero.  It is exact and has the sign of the dividend. -/
def remWith (round : Rounder) (x y : Double) : Double :=
  match x.view, y.view with
  | .nan, _ | _, .nan => nan
  | .infinite _, _ => nan
  | .finite .., .infinite _ => x
  | .finite a m p, .finite _ n q =>
    if n = 0 then nan
    else
      let unit := min p q
      let r := (m * pow2 (p - unit)) % (n * pow2 (q - unit))
      round a (r * pow2 unit) (pow2 (-unit))

/-- The nearest single, as a double.  Of a not-a-number it keeps as much of the fraction as a single
has. -/
def single (x : Double) : Double :=
  match x.view with
  | .nan => ⟨(x.bits ||| 0x0008000000000000) &&& 0xFFFFFFFFE0000000⟩
  | .infinite _ => x
  | .finite a m q => singleOfRatio a (m * pow2 q) (pow2 (-q))

/-- The double nearest to an integer. -/
def ofInt (n : Int) : Double :=
  ofRatio (n < 0) n.natAbs 1

/-- The single nearest to an integer. -/
def singleOfInt (n : Int) : Double :=
  singleOfRatio (n < 0) n.natAbs 1

/-- The finite value cut toward zero and moved into `[lo, hi]`; not-a-number counts as zero. -/
def truncate (lo hi : Int) (x : Double) : Int :=
  match x.view with
  | .nan => 0
  | .infinite a => if a then lo else hi
  | .finite a m q =>
    let n : Nat := m * pow2 q / pow2 (-q)
    max lo (min hi (if a then -n else n))

/-- Whether `x < y`; never so for not-a-number, and the zeros are equal. -/
def less (x y : Double) : Bool :=
  match x.view, y.view with
  | .nan, _ | _, .nan => false
  | .infinite a, .infinite b => a && !b
  | .infinite a, _ => a
  | _, .infinite b => !b
  | .finite a m p, .finite b n q =>
    let unit := min p q
    scaledInt a m p unit < scaledInt b n q unit

/-- Whether two numbers are equal as values: the zeros are, not-a-number never is. -/
def sameValue (x y : Double) : Bool :=
  !x.isNaN && !y.isNaN && !x.less y && !y.less x

end Concolic.Double
