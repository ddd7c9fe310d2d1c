import Concolic.Machine.State

/-
# Arithmetic instructions

Each instruction pops its operands, computes the concrete result as the concrete program does, and
pushes the expression built with it.  Ints wrap at 32 bits and longs at 64; a shift uses the low
five or six bits of its distance; division cuts toward zero.

A division also tells the collector whether the divisor was zero.  The host passes the divisor that
it saw.  A division by zero is a fault: nothing is pushed.
-/
namespace Concolic

/-! ## 1. Operations on words -/

/-- Operations on two words of the same width. -/
inductive WordOp
  | add
  | sub
  | mul
  | and
  | or
  | xor
deriving DecidableEq, Repr

def WordOp.operator : WordOp → Operator
  | add => .add
  | sub => .sub
  | mul => .mul
  | and => .and
  | or => .or
  | xor => .xor

def WordOp.onInt : WordOp → Int32 → Int32 → Int32
  | add, a, b => a + b
  | sub, a, b => a - b
  | mul, a, b => a * b
  | and, a, b => a &&& b
  | or, a, b => a ||| b
  | xor, a, b => a ^^^ b

def WordOp.onLong : WordOp → Int64 → Int64 → Int64
  | add, a, b => a + b
  | sub, a, b => a - b
  | mul, a, b => a * b
  | and, a, b => a &&& b
  | or, a, b => a ||| b
  | xor, a, b => a ^^^ b

inductive ShiftOp
  | shl
  | shr
  | ushr
deriving DecidableEq, Repr

def ShiftOp.operator : ShiftOp → Operator
  | shl => .shl
  | shr => .shr
  | ushr => .ushr

/-- A shift of an int by the low five bits of the distance. -/
def ShiftOp.onInt : ShiftOp → Int32 → Int32 → Int32
  | shl, a, n => a <<< (n &&& 31)
  | shr, a, n => a >>> (n &&& 31)
  | ushr, a, n => (a.toUInt32 >>> (n &&& 31).toUInt32).toInt32

/-- A shift of a long by the low six bits of the distance. -/
def ShiftOp.onLong : ShiftOp → Int64 → Int64 → Int64
  | shl, a, n => a <<< (n &&& 63)
  | shr, a, n => a >>> (n &&& 63)
  | ushr, a, n => (a.toUInt64 >>> (n &&& 63).toUInt64).toInt64

inductive DivOp
  | div
  | rem
deriving DecidableEq, Repr

def DivOp.operator : DivOp → Operator
  | div => .div
  | rem => .rem

def DivOp.onInt : DivOp → Int32 → Int32 → Int32
  | div, a, b => a / b
  | rem, a, b => a % b

def DivOp.onLong : DivOp → Int64 → Int64 → Int64
  | div, a, b => a / b
  | rem, a, b => a % b

/-- Operations on two reals. -/
inductive RealOp
  | add
  | sub
  | mul
  | div
  | rem
deriving DecidableEq, Repr

def RealOp.operator : RealOp → Operator
  | add => .add
  | sub => .sub
  | mul => .mul
  | div => .div
  | rem => .rem

/-- The exact result, rounded once. -/
def RealOp.rounded (round : Double.Rounder) : RealOp → Double → Double → Double
  | add => Double.addWith round
  | sub => Double.subWith round
  | mul => Double.mulWith round
  | div => Double.divWith round
  | rem => Double.remWith round

def RealOp.onDouble (op : RealOp) (a b : Double) : Double :=
  op.rounded Double.ofRatio a b

def RealOp.onFloat (op : RealOp) (a b : Double) : Double :=
  (op.rounded Double.singleOfRatio a.single b.single).single

/-- -1, 0 or 1 as `a` is less than, equal to or greater than `b`. -/
def threeWayInt (a b : Int64) : Int64 :=
  if a < b then -1 else if b < a then 1 else 0

/-- -1, 0 or 1 as `a` is less than, equal to or greater than `b`; 1 if either is not a number. -/
def threeWayDouble (a b : Double) : Int64 :=
  if a.isNaN || b.isNaN then 1
  else if a.less b then -1
  else if b.less a then 1
  else 0

namespace IntExpr

/-- The concrete value cut to an int. -/
def concreteInt (e : IntExpr) : Int32 := e.concrete.toInt32

end IntExpr

namespace Machine

/-! ## 2. Binary instructions -/

/-- Pops two ints, the right one first, and pushes what `f` makes of their concrete values. -/
def intBinary (op : Operator) (f : Int32 → Int32 → Int32) : Act Machine Unit := do
  let rhs ← onStack Stack.popInt
  let lhs ← onStack Stack.popInt
  push (.bv32 (lhs.combine op rhs (f lhs.concreteInt rhs.concreteInt).toInt64))

/-- Pops two longs, the right one first, and pushes what `f` makes of their concrete values. -/
def longBinary (op : Operator) (f : Int64 → Int64 → Int64) : Act Machine Unit := do
  let rhs ← onStack Stack.popLong
  let lhs ← onStack Stack.popLong
  push (.bv64 (lhs.combine op rhs (f lhs.concrete rhs.concrete)))

/-- Pops an int distance and a long. -/
def longShift (op : ShiftOp) : Act Machine Unit := do
  let rhs ← onStack Stack.popInt
  let lhs ← onStack Stack.popLong
  push (.bv64 (lhs.combine op.operator rhs (op.onLong lhs.concrete rhs.concrete)))

def floatBinary (op : RealOp) : Act Machine Unit := do
  let rhs ← onStack Stack.popFloat
  let lhs ← onStack Stack.popFloat
  push (.fp32 (lhs.combine op.operator rhs (op.onFloat lhs.concrete rhs.concrete)))

def doubleBinary (op : RealOp) : Act Machine Unit := do
  let rhs ← onStack Stack.popDouble
  let lhs ← onStack Stack.popDouble
  push (.fp64 (lhs.combine op.operator rhs (op.onDouble lhs.concrete rhs.concrete)))

/-! ## 3. Division -/

/-- Reports whether the divisor is zero on this run and tells whether it is. -/
def zeroDivisor (divisor : IntExpr) (isZero : Bool) : Act Machine Bool := do
  support (.relate divisor (if isZero then .eq else .ne) (.const 0))
  if isZero then fault .divisionByZero
  return isZero

/-- Divides two ints; the host saw the divisor `d`. -/
def intDivide (op : DivOp) (d : Int32) : Act Machine Bool := do
  let rhs ← onStack Stack.popInt
  let lhs ← onStack Stack.popInt
  if ← zeroDivisor rhs (d = 0) then return true
  push (.bv32 (lhs.combine op.operator rhs (op.onInt lhs.concreteInt d).toInt64))
  return false

/-- Divides two longs; the host saw the divisor `d`. -/
def longDivide (op : DivOp) (d : Int64) : Act Machine Bool := do
  let rhs ← onStack Stack.popLong
  let lhs ← onStack Stack.popLong
  if ← zeroDivisor rhs (d = 0) then return true
  push (.bv64 (lhs.combine op.operator rhs (op.onLong lhs.concrete d)))
  return false

/-! ## 4. Negation and comparison -/

def intNegate : Act Machine Unit := do
  let e ← onStack Stack.popInt
  push (.bv32 (e.apply .neg (-e.concreteInt).toInt64))

def longNegate : Act Machine Unit := do
  let e ← onStack Stack.popLong
  push (.bv64 (e.apply .neg (-e.concrete)))

def floatNegate : Act Machine Unit := do
  let e ← onStack Stack.popFloat
  push (.fp32 (e.apply .neg e.concrete.neg))

def doubleNegate : Act Machine Unit := do
  let e ← onStack Stack.popDouble
  push (.fp64 (e.apply .neg e.concrete.neg))

def longCompare : Act Machine Unit := do
  let rhs ← onStack Stack.popLong
  let lhs ← onStack Stack.popLong
  push (.bv32 (lhs.threeWay rhs (threeWayInt lhs.concrete rhs.concrete)))

def floatCompare : Act Machine Unit := do
  let rhs ← onStack Stack.popFloat
  let lhs ← onStack Stack.popFloat
  push (.bv32 (.threeWayReal lhs rhs (threeWayDouble lhs.concrete rhs.concrete)))

def doubleCompare : Act Machine Unit := do
  let rhs ← onStack Stack.popDouble
  let lhs ← onStack Stack.popDouble
  push (.bv32 (.threeWayReal lhs rhs (threeWayDouble lhs.concrete rhs.concrete)))

/-! ## 5. Conversions -/

/-- The conversions between number types. -/
inductive Conversion
  | intToLong
  | intToFloat
  | intToDouble
  | longToInt
  | longToFloat
  | longToDouble
  | floatToInt
  | floatToLong
  | floatToDouble
  | doubleToInt
  | doubleToLong
  | doubleToFloat
  /-- To a byte, a char or a short; the operand stays as it is. -/
  | intToSmall
deriving DecidableEq, Repr

/-- A double cut to an int, beyond the ends to the nearest int. -/
def truncateInt (x : Double) : Int64 :=
  Int64.ofInt (x.truncate Int32.minValue.toInt Int32.maxValue.toInt)

/-- A double cut to a long, beyond the ends to the nearest long. -/
def truncateLong (x : Double) : Int64 :=
  Int64.ofInt (x.truncate Int64.minValue.toInt Int64.maxValue.toInt)

def convert : Conversion → Act Machine Unit
  | .intToLong => do push (.bv64 (← onStack Stack.popInt))
  | .intToFloat => do
    let e ← onStack Stack.popInt
    push (.fp32 (.castInt e (.singleOfInt e.concreteInt.toInt)))
  | .intToDouble => do
    let e ← onStack Stack.popInt
    push (.fp64 (.castInt e (.ofInt e.concreteInt.toInt)))
  | .longToInt => do
    let e ← onStack Stack.popLong
    push (.bv32 (e.apply .narrow e.concreteInt.toInt64))
  | .longToFloat => do
    let e ← onStack Stack.popLong
    push (.fp32 (.castInt e (.singleOfInt e.concrete.toInt)))
  | .longToDouble => do
    let e ← onStack Stack.popLong
    push (.fp64 (.castInt e (.ofInt e.concrete.toInt)))
  | .floatToInt => do
    let e ← onStack Stack.popFloat
    push (.bv32 (.castReal e (truncateInt e.concrete)))
  | .floatToLong => do
    let e ← onStack Stack.popFloat
    push (.bv64 (.castReal e (truncateLong e.concrete)))
  | .floatToDouble => do push (.fp64 (← onStack Stack.popFloat))
  | .doubleToInt => do
    let e ← onStack Stack.popDouble
    push (.bv32 (.castReal e (truncateInt e.concrete)))
  | .doubleToLong => do
    let e ← onStack Stack.popDouble
    push (.bv64 (.castReal e (truncateLong e.concrete)))
  | .doubleToFloat => do
    let e ← onStack Stack.popDouble
    push (.fp32 (e.apply .narrow e.concrete.single))
  | .intToSmall => do
    let o ← onStack (Stack.peek 0)
    Act.ensure (o.width = .bv32) (.operandWidth .bv32 o.width)

/-- Adds a constant to an int local. -/
def increment (i : Int) (d : Int32) : Act Machine Unit :=
  onLocals do
    let e ← Locals.readInt i
    Locals.write i
      (.bv32 (e.combine .add (.const d.toInt64) (e.concreteInt + d).toInt64))

end Machine

end Concolic
