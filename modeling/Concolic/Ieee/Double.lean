/-
# Doubles

A binary floating-point format holds the numbers `m * 2 ^ q` with `m < 2 ^ precision` and `q` between
two bounds.  `Format.nearest` finds the member nearest to a quotient of natural numbers, a half going
to the even significand.  Everything is exact arithmetic on `Nat`, so that reading a decimal, adding
two numbers and narrowing a double are all the same rounding of an exact quotient.

A `Double` is a 64-bit pattern.  Two doubles are the same if their patterns are, so `0` and `-0`
differ, and so do the patterns that are all not-a-number.  `view` tells what number a pattern stands
for and `ofRatio` finds the pattern for an exact quotient.

Single precision has no type of its own: a float is the double with the same value, and `single`
rounds a double to the nearest one of that kind.
-/
namespace Concolic

/-! ## 1. Rounding to a binary format -/

namespace Ieee

/-- The members of a format are `m * 2 ^ q` with `m < 2 ^ precision` and
`minExponent ≤ q ≤ maxExponent`. -/
structure Format where
  precision : Nat
  minExponent : Int
  maxExponent : Int

/-- Double precision. -/
def binary64 : Format := ⟨53, -1074, 971⟩

/-- Single precision. -/
def binary32 : Format := ⟨24, -149, 104⟩

/-- `2 ^ q` for the non-negative part of `q`. -/
def pow2 (q : Int) : Nat := Nat.pow 2 q.toNat

/-- `n / d` rounded to the nearest integer, a half to the even neighbour. -/
def roundQuotient (n d : Nat) : Nat :=
  let q := n / d
  let r := n % d
  if 2 * r < d ∨ (2 * r = d ∧ q % 2 = 0) then q else q + 1

/-- `(n / d) / 2 ^ q` rounded to the nearest integer, a half to the even neighbour. -/
def roundScaled (n d : Nat) (q : Int) : Nat :=
  roundQuotient (n * pow2 (-q)) (d * pow2 q)

/-- The greatest `e` with `2 ^ e ≤ n / d`, for positive `n` and `d`. -/
def floorLog2 (n d : Nat) : Int :=
  let e : Int := n.log2 - d.log2
  if d * pow2 e ≤ n * pow2 (-e) then e else e - 1

/-- The member of the format nearest to `n / d`, as significand and exponent; `none` if it is beyond
the largest member. -/
def Format.nearest (f : Format) (n d : Nat) : Option (Nat × Int) :=
  if n = 0 then some (0, f.minExponent)
  else
    let q := max f.minExponent (floorLog2 n d - (f.precision - 1))
    let m := roundScaled n d q
    let (m, q) := if m = pow2 f.precision then (m / 2, q + 1) else (m, q)
    if f.maxExponent < q then none else some (m, q)

end Ieee

/-! ## 2. Patterns -/

/-- A double-precision number, given by its pattern. -/
structure Double where
  bits : UInt64
deriving DecidableEq, Repr, Inhabited

namespace Double

open Ieee

/-- What a pattern stands for: `finite neg m q` is `m * 2 ^ q`, or its negative if `neg`. -/
inductive View
  | nan
  | infinite (neg : Bool)
  | finite (neg : Bool) (m : Nat) (q : Int)
deriving DecidableEq, Repr

/-- The bit that a negative sign sets. -/
def signBit (neg : Bool) : Nat := if neg then pow2 63 else 0

/-- The pattern with the given sign and magnitude bits. -/
def ofFields (neg : Bool) (magnitude : Nat) : Double :=
  ⟨UInt64.ofNat (signBit neg + magnitude)⟩

/-- The not-a-number that texts are read as. -/
def nan : Double := ⟨0x7FF8000000000001⟩

/-- The not-a-number that comes of numbers, where an operation has no result for them. -/
def invalid : Double := ⟨0xFFF8000000000000⟩

def infinity (neg : Bool) : Double := ofFields neg 0x7FF0000000000000

def zero (neg : Bool) : Double := ofFields neg 0

def one : Double := ⟨0x3FF0000000000000⟩

def two : Double := ⟨0x4000000000000000⟩

/-- The largest finite double, or its negative. -/
def largest (neg : Bool) : Double := ofFields neg 0x7FEFFFFFFFFFFFFF

/-- The largest finite single, or its negative. -/
def largestSingle (neg : Bool) : Double := ofFields neg 0x47EFFFFFE0000000

/-- Whether the sign bit is set. -/
def isNegative (x : Double) : Bool := pow2 63 ≤ x.bits.toNat

def view (x : Double) : View :=
  let magnitude : Nat := x.bits.toNat % pow2 63
  let exponent : Nat := magnitude / pow2 52
  let fraction : Nat := magnitude % pow2 52
  if exponent = 2047 then
    if fraction = 0 then .infinite x.isNegative else .nan
  else if exponent = 0 then .finite x.isNegative fraction (-1074)
  else .finite x.isNegative (pow2 52 + fraction) (exponent - 1075)

/-- The pattern of a member of the format, as `Format.nearest` gives it. -/
def pack (neg : Bool) (m : Nat) (q : Int) : Double :=
  if m < pow2 52 then ofFields neg m
  else ofFields neg ((q + 1075).toNat * pow2 52 + (m - pow2 52))

/-- The double nearest to `n / d`, or to its negative; an infinity if it is beyond the largest. -/
def ofRatio (neg : Bool) (n d : Nat) : Double :=
  match binary64.nearest n d with
  | some (m, q) => pack neg m q
  | none => infinity neg

/-- The single nearest to `n / d`, or to its negative; an infinity if it is beyond the largest. -/
def singleOfRatio (neg : Bool) (n d : Nat) : Double :=
  match binary32.nearest n d with
  | some (m, q) => ofRatio neg (m * pow2 q) (pow2 (-q))
  | none => infinity neg

def isNaN (x : Double) : Bool := x.view = .nan

def isFinite (x : Double) : Bool :=
  match x.view with
  | .finite .. => true
  | _ => false

end Double

end Concolic
