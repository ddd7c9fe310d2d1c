import Concolic.Ieee.Arithmetic

/-
# The text of a double

A double is written with the fewest digits that read back.  The reals that round to a double form an
interval around it.  `shortest` finds the decimal with the fewest digits in that interval, of two
with that many digits the nearer one, and of two that are equally near the even one.  For each number
of digits it tries only the two neighbours of the double on the grid of decimals of that length: if
any decimal of the grid lies in the interval, one of the two does.

`render` chooses between positional and scientific notation, `positional` always writes all places.
-/
namespace Concolic

namespace Ieee

/-! ## 1. The shortest decimal -/

/-- A positive number `digits * 10 ^ exponent`. -/
structure Decimal where
  digits : Nat
  exponent : Int
deriving DecidableEq, Repr

/-- `10 ^ e` for the non-negative part of `e`. -/
def pow10 (e : Int) : Nat := Nat.pow 10 e.toNat

/-- Whether the double below `m * 2 ^ q` is only half as far away as the one above. -/
def narrowBelow (m : Nat) (q : Int) : Bool :=
  m = pow2 52 && binary64.minExponent < q

/-- Whether `d * 10 ^ e` rounds to `m * 2 ^ q`.  All four numbers are brought to the common unit
`10 ^ (-e) * 2 ^ (2 - q)`: the interval ends are half a step away and belong to it if `m` is even. -/
def roundsTo (m : Nat) (q : Int) (d : Nat) (e : Int) : Bool :=
  let unit := pow2 (q - 2) * pow10 (-e)
  let low := (4 * m - (if narrowBelow m q then 1 else 2)) * unit
  let high := (4 * m + 2) * unit
  let x := d * pow10 e * pow2 (2 - q)
  if m % 2 = 0 then low ≤ x && x ≤ high else low < x && x < high

/-- The greatest `e` with `10 ^ e ≤ n / d`, searched upward from `e` in at most `fuel` steps. -/
def floorLog10From (n d : Nat) : Nat → Int → Int
  | 0, e => e
  | fuel + 1, e =>
    if d * pow10 (e + 1) ≤ n * pow10 (-(e + 1)) then floorLog10From n d fuel (e + 1) else e

/-- The neighbours of `n / d` among the multiples of `10 ^ e`, the nearer first; halfway between them
the even one comes first. -/
def gridNeighbours (n d : Nat) (e : Int) : List Nat :=
  let n := n * pow10 (-e)
  let d := d * pow10 e
  let low := n / d
  if 2 * (n % d) < d || (2 * (n % d) = d && low % 2 = 0) then [low, low + 1] else [low + 1, low]

/-- Tries the grids from `10 ^ e` down to finer ones, at most `fuel` of them. -/
def shortestFrom (m : Nat) (q : Int) (n d : Nat) : Nat → Int → Decimal
  | 0, e => ⟨n * pow10 (-e) / (d * pow10 e), e⟩
  | fuel + 1, e =>
    match (gridNeighbours n d e).find? fun x => roundsTo m q x e with
    | some x => ⟨x, e⟩
    | none => shortestFrom m q n d fuel (e - 1)

/-- The shortest decimal that rounds to `m * 2 ^ q`, the nearest of that length. -/
def shortest (m : Nat) (q : Int) : Decimal :=
  let n := m * pow2 q
  let d := pow2 (-q)
  let guess : Int := (floorLog2 n d * 1233) / 4096 - 1
  shortestFrom m q n d 17 (floorLog10From n d 3 guess)

/-! ## 2. Layouts -/

/-- How a number is laid out. -/
structure Layout where
  /-- The decimal exponents that are written without an exponent mark. -/
  positionalFrom : Int
  positionalBelow : Int
  /-- The least number of exponent digits. -/
  exponentDigits : Nat

/-- Positional from `0.0001` up to `100000`, with two exponent digits outside. -/
def compactLayout : Layout := ⟨-4, 6, 2⟩

/-- The digits of `n` without the zeros at their end, and the number of these. -/
def trimZeros : List Char → List Char × Nat
  | cs =>
    let kept := (cs.reverse.dropWhile (· = '0')).reverse
    (kept, cs.length - kept.length)

/-- The significant digits of a decimal and the exponent of the first. -/
def Decimal.scientific (x : Decimal) : List Char × Int :=
  let ds := Nat.toDigits 10 x.digits
  ((trimZeros ds).1, x.exponent + ds.length - 1)

/-- Digits with the point after the place of exponent zero, the first digit having exponent `e`. -/
def pointed (ds : List Char) (e : Int) : List Char :=
  if e < 0 then '0' :: '.' :: List.replicate (-e - 1).toNat '0' ++ ds
  else
    let whole := e.toNat + 1
    let front := ds.take whole ++ List.replicate (whole - ds.length) '0'
    match ds.drop whole with
    | [] => front
    | frac => front ++ '.' :: frac

/-- An exponent with its sign and at least `width` digits. -/
def exponentText (width : Nat) (e : Int) : List Char :=
  let ds := Nat.toDigits 10 e.natAbs
  (if e < 0 then '-' else '+') :: List.replicate (width - ds.length) '0' ++ ds

/-- One digit, the others after a point, and the exponent. -/
def withExponent (l : Layout) (ds : List Char) (e : Int) : List Char :=
  let mantissa := match ds with
    | [] => []
    | [d] => [d]
    | d :: frac => d :: '.' :: frac
  mantissa ++ 'e' :: exponentText l.exponentDigits e

/-- The text of `m * 2 ^ q`. -/
def magnitudeText (l : Layout) (m : Nat) (q : Int) : List Char :=
  if m = 0 then ['0']
  else
    let (ds, e) := (shortest m q).scientific
    if l.positionalFrom ≤ e ∧ e < l.positionalBelow then pointed ds e else withExponent l ds e

end Ieee

namespace Double

open Ieee

/-- The text of a double. -/
def render (x : Double) : String :=
  match x.view with
  | .nan => "NaN"
  | .infinite a => if a then "-Inf" else "+Inf"
  | .finite a m q =>
    String.ofList ((if a then ['-'] else []) ++ magnitudeText compactLayout m q)

/-- All places of the magnitude of a finite double, without sign or exponent. -/
def positional (m : Nat) (q : Int) : String :=
  if m = 0 then "0"
  else
    let (ds, e) := (shortest m q).scientific
    String.ofList (pointed ds e)

end Double

end Concolic
