import Concolic.Ieee.Arithmetic
import Concolic.Numeral.Integer

/-
# Reading reals

A real is written in decimal with an optional exponent, in hexadecimal with a binary exponent, or
as one of the words for infinity and not-a-number.  `readReal` finds the exact number that a text
stands for; `parseReal` rounds it once, to double or single precision, and refuses a finite number
that is too large.
-/
namespace Concolic.Numeral

/-- What a text stands for: `exact neg m base e` is `± m * base ^ e`. -/
inductive RealText
  | nan
  | infinite (neg : Bool)
  | exact (neg : Bool) (m base : Nat) (e : Int)
deriving DecidableEq, Repr

/-- Letters of the English alphabet in lower case, all else unchanged. -/
def lowerAscii (cs : List Char) : List Char :=
  cs.map Char.toLower

/-- The words for infinity, with a sign, and for not-a-number, without. -/
def readSpecial (cs : List Char) : Option RealText :=
  let word := String.ofList (lowerAscii (dropSign cs))
  if word = "inf" ∨ word = "infinity" then some (.infinite (cs.head? = some '-'))
  else if String.ofList (lowerAscii cs) = "nan" then some .nan
  else none

/-- The digits before the exponent. -/
structure Mantissa where
  /-- The number that the digits form without the point. -/
  value : Nat
  /-- How many digits stand after the point. -/
  places : Nat
  sawDigit : Bool
  sawPoint : Bool

/-- Reads digits, at most one point and underscores; answers with the characters left over. -/
def readMantissa (base : Nat) : Mantissa → List Char → Mantissa × List Char
  | m, [] => (m, [])
  | m, c :: cs =>
    if c = '_' then readMantissa base m cs
    else if c = '.' then
      if m.sawPoint then (m, c :: cs) else readMantissa base { m with sawPoint := true } cs
    else
      match digitValue c with
      | none => (m, c :: cs)
      | some d =>
        if base ≤ d then (m, c :: cs)
        else
          readMantissa base
            ⟨m.value * base + d, if m.sawPoint then m.places + 1 else 0, true, m.sawPoint⟩ cs

/-- Reads the digits of an exponent to the end of the text. -/
def readExponentDigits : Nat → List Char → Option Nat
  | n, [] => some n
  | n, c :: cs =>
    if c = '_' then readExponentDigits n cs
    else if c.isDigit then readExponentDigits (n * 10 + (c.toNat - 48)) cs
    else none

/-- Reads a signed exponent to the end of the text; it begins with a digit. -/
def readExponent (cs : List Char) : Option Int :=
  let digits := dropSign cs
  match digits with
  | [] => none
  | c :: _ =>
    if c.isDigit then
      (readExponentDigits 0 digits).map fun n => if cs.head? = some '-' then -(n : Int) else n
    else none

/-- Whether the text has the mark of a hexadecimal number and something after it. -/
def hexMark : List Char → Option (List Char)
  | '0' :: c :: d :: cs => if isLetter 'x' c then some (d :: cs) else none
  | _ => none

/-- The exact number of a text that is no special word. -/
def readNumber (cs : List Char) : Option RealText :=
  let neg := cs.head? = some '-'
  let body := dropSign cs
  let underscores := !cs.contains '_' || underscoresFit cs
  match hexMark body with
  | some digits =>
    match readMantissa 16 ⟨0, 0, false, false⟩ digits with
    | (m, c :: rest) => do
      guard (m.sawDigit && isLetter 'p' c && underscores)
      return .exact neg m.value 2 ((← readExponent rest) - 4 * m.places)
    | (_, []) => none
  | none =>
    match readMantissa 10 ⟨0, 0, false, false⟩ body with
    | (m, []) => do
      guard (m.sawDigit && underscores)
      return .exact neg m.value 10 (-m.places)
    | (m, c :: rest) => do
      guard (m.sawDigit && isLetter 'e' c && underscores)
      return .exact neg m.value 10 ((← readExponent rest) - m.places)

/-- The exact number that a text stands for. -/
def readReal (cs : List Char) : Option RealText :=
  match readSpecial cs with
  | some t => some t
  | none => readNumber cs

/-- The precision that a real is rounded to. -/
inductive Precision
  | single
  | double
deriving DecidableEq, Repr

/-- Rounds `± n / d`. -/
def Precision.round : Precision → Bool → Nat → Nat → Double
  | .single => Double.singleOfRatio
  | .double => Double.ofRatio

/-- The not-a-number of the precision. -/
def Precision.nan : Precision → Double
  | .single => Double.nan.single
  | .double => Double.nan

/-- Rounds `± m * base ^ e`.  A number whose first digit is more than two thousand places away from
the point is too large or too small for any format, and its power is not computed. -/
def Precision.roundPower (p : Precision) (neg : Bool) (m base : Nat) (e : Int) : Double :=
  let place := (Nat.toDigits base m).length + e
  if m = 0 ∨ place < -2000 then Double.zero neg
  else if 2000 < place then Double.infinity neg
  else p.round neg (m * Nat.pow base e.toNat) (Nat.pow base (-e).toNat)

/-- Reads a real and rounds it to the precision `p`. -/
def parseReal (p : Precision) (s : String) : Except Error Double :=
  blame .real s <|
    match readReal s.toList with
    | none => .error .malformed
    | some .nan => .ok p.nan
    | some (.infinite neg) => .ok (Double.infinity neg)
    | some (.exact neg m base e) =>
      let x := p.roundPower neg m base e
      if x.isFinite then .ok x else .error .outOfRange

end Concolic.Numeral
