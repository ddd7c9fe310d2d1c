import Concolic.Ieee.Arithmetic
import Concolic.Numeral.Real
import Concolic.Yaml.Scalar
import Concolic.Yaml.Timestamp

/-
# What scalars stand for

A scalar in quotes is a text.  A plain one stands for null, a truth value, a number or a point in time
if it is written as one, and is a text otherwise.
-/
namespace Concolic.Yaml

inductive Meaning
  | null
  | truth (b : Bool)
  | integer (n : Int)
  | real (x : Double)
  | time
  | text
deriving DecidableEq, Repr

/-! ## 1. Numbers -/

/-- Drops digits. -/
def dropDigits (cs : List Char) : List Char := cs.dropWhile Char.isDigit

/-- Whether a text is an exponent, if it is not empty. -/
def isExponent : List Char → Bool
  | [] => true
  | c :: cs =>
    let digits := Numeral.dropSign cs
    Numeral.isLetter 'e' c && !digits.isEmpty && (dropDigits digits).isEmpty

/-- Whether a text is a decimal number with an optional point and exponent. -/
def isDecimal (cs : List Char) : Bool :=
  match Numeral.dropSign cs with
  | '.' :: rest => rest.head?.any Char.isDigit && isExponent (dropDigits rest)
  | digits =>
    digits.head?.any Char.isDigit &&
      match dropDigits digits with
      | '.' :: rest => isExponent (dropDigits rest)
      | rest => isExponent rest

/-- In a binary or octal number the sign may also stand behind the mark of the base. -/
def signFirst : List Char → List Char
  | '0' :: mark :: sign :: digits =>
    if (mark = 'b' || mark = 'o') && (sign = '+' || sign = '-') then sign :: '0' :: mark :: digits
    else '0' :: mark :: sign :: digits
  | digits => digits

/-- The meaning of a text that is read as a real. -/
def realMeaning (s : String) : Meaning :=
  match Numeral.parseReal .double s with
  | .ok x => .real x
  | .error _ => .text

/-- The meaning of a text that begins with a digit or a sign.  Underscores divide digits. -/
def numberMeaning (cs : List Char) : Meaning :=
  let digits := signFirst (cs.filter (· ≠ '_'))
  let plain := String.ofList digits
  match Numeral.parseInteger 64 plain, Numeral.parseNatural 64 plain with
  | .ok n, _ => .integer n
  | _, .ok n => .integer n
  | _, _ => if isDecimal digits then realMeaning plain else .text

/-! ## 2. Scalars -/

/-- The meaning of a plain scalar. -/
def plainMeaning (s : String) : Meaning :=
  if s ∈ ["", "~", "null", "Null", "NULL"] then .null
  else if s ∈ ["true", "True", "TRUE"] then .truth true
  else if s ∈ ["false", "False", "FALSE"] then .truth false
  else if s ∈ [".nan", ".NaN", ".NAN"] then .real .nan
  else if s ∈ [".inf", ".Inf", ".INF", "+.inf", "+.Inf", "+.INF"] then .real (.infinity false)
  else if s ∈ ["-.inf", "-.Inf", "-.INF"] then .real (.infinity true)
  else
    match s.toList with
    | [] => .null
    | c :: cs =>
      if c = '.' then realMeaning s
      else if c = '+' || c = '-' || c.isDigit then
        if isTimestamp (c :: cs) then .time else numberMeaning (c :: cs)
      else .text

def Scalar.meaning (s : Scalar) : Meaning := if s.quoted then .text else plainMeaning s.text

/-- Whether the scalar stands for the absence of a value. -/
def Scalar.isNull (s : Scalar) : Bool := s.meaning = .null

def Node.isNull : Node → Bool
  | scalar s => s.isNull
  | _ => false

end Concolic.Yaml
