import Concolic.Numeral.Integer

/-
# Operators

The operators of expression nodes.  An operator is known to the outside by a number; the numbers of
no operator are kept as `other`, so that a node with one can be shown and refused.
-/
namespace Concolic

inductive Operator
  | add
  | sub
  | mul
  | div
  | rem
  | and
  | or
  | xor
  | shl
  | shr
  | ushr
  | neg
  /-- A long cut to an int, a double rounded to a float. -/
  | narrow
  | other (code : Int)
deriving DecidableEq, Repr

namespace Operator

/-- The operator with a given number. -/
def ofCode : Int → Operator
  | 1 => add
  | 2 => sub
  | 3 => mul
  | 4 => div
  | 5 => rem
  | 8 => and
  | 9 => or
  | 10 => xor
  | 11 => shl
  | 12 => shr
  | 13 => ushr
  | 16 => neg
  | 17 => narrow
  | n => other n

def name : Operator → String
  | add => "add"
  | sub => "sub"
  | mul => "mul"
  | div => "div"
  | rem => "rem"
  | and => "and"
  | or => "or"
  | xor => "xor"
  | shl => "shl"
  | shr => "shr"
  | ushr => "ushr"
  | neg => "neg"
  | narrow => "narrow"
  | other n => "Operator<" ++ Numeral.decimal n ++ ">"

/-- Sum, difference, product, quotient and remainder. -/
def isArithmetic : Operator → Bool
  | add | sub | mul | div | rem => true
  | _ => false

/-- The bitwise operators and the shifts. -/
def isBitwise : Operator → Bool
  | and | or | xor | shl | shr | ushr => true
  | _ => false

/-- The operators with one operand. -/
def isUnary : Operator → Bool
  | neg | narrow => true
  | _ => false

/-- The operators whose operands may change places. -/
def isCommutative : Operator → Bool
  | add | mul | and | or | xor => true
  | _ => false

end Operator

end Concolic
