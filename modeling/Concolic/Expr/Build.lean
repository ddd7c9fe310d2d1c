import Concolic.Constraint.Comparator
import Concolic.Expr.Basic

/-
# Building expressions

The builders keep expressions small.  An operand without inputs is replaced by the constant of its
concrete value, operations on constants become constants, and neutral elements disappear.  The
integer builders also fold zero times and zero divided by anything, and gather the constants of a
chain of sums; the real builders fold neutral elements only.

A builder takes the concrete value of the result from outside.  Where it answers with one of its
operands, the concrete value is the operand's.

`IntExpr.combine` and its fellows take operands that are there and an operator that fits.  The
builders with an `Option` operand are the checked entrances: they name what is wrong, a missing
operand, an operator that is not of the kind demanded or an input without a name.
-/
namespace Concolic

/-! ## 1. What cannot be built -/

/-- Why an expression or a constraint is refused. -/
inductive Malformed
  /-- A binary or unary node lacks an operand. -/
  | missingOperand (op : Operator)
  | intBinaryOperator (op : Operator)
  | intUnaryOperator (op : Operator)
  | realBinaryOperator (op : Operator)
  | realUnaryOperator (op : Operator)
  | missingIntComparand
  | missingRealComparand
  /-- A three-way comparison has a result other than -1, 0 and 1. -/
  | comparisonResult (v : Int64)
  | missingRealToCast
  | missingIntToCast
  | unnamedIntVar
  | unnamedRealVar
  | missingIntSide
  | missingRealSide
  | missingStrSide
  /-- A comparator that is no relation has neither a swapped nor a negated form. -/
  | comparator (c : Comparator)
  /-- A comparator that is no relation has no normal form. -/
  | normalForm (c : Comparator)
  /-- A missing expression has no concrete value. -/
  | missingExpr
  /-- A missing expression has no children. -/
  | unreachable
deriving DecidableEq, Repr

def Malformed.message : Malformed → String
  | missingOperand op => "assert: nil operand for " ++ op.name
  | intBinaryOperator op => "assert: invalid integer binary operator: " ++ op.name
  | intUnaryOperator op => "assert: invalid integer unary operator: " ++ op.name
  | realBinaryOperator op => "assert: invalid real binary operator: " ++ op.name
  | realUnaryOperator op => "assert: invalid real unary operator: " ++ op.name
  | missingIntComparand => "assert: nil operand for integer comparison"
  | missingRealComparand => "assert: nil operand for real comparison"
  | comparisonResult v => "assert: invalid comparison result: " ++ wordText v
  | missingRealToCast => "assert: nil operand for real to integer cast"
  | missingIntToCast => "assert: nil operand for integer to real cast"
  | unnamedIntVar => "assert: integer variable requires a name"
  | unnamedRealVar => "assert: real variable requires a name"
  | missingIntSide => "assert: nil operand for integer constraint"
  | missingRealSide => "assert: nil operand for real constraint"
  | missingStrSide => "assert: nil operand for string constraint"
  | comparator c => "symbolic: invalid comparator: " ++ c.symbol
  | normalForm c => "symbolic: cannot normalize comparator: " ++ c.symbol
  | missingExpr => "symbolic: unexpected expression: <nil>"
  | unreachable => "unreachable"

namespace IntExpr

/-! ## 2. Integers -/

/-- An expression without inputs as the constant of its concrete value. -/
def settle (e : IntExpr) : IntExpr :=
  if e.isSymbolic then e else const e.concrete

/-- The sum of a constant and an expression; the constants of nested sums are added up. -/
def addConst (c : Int64) (k : Int64) (e : IntExpr) : IntExpr :=
  if k = 0 then e
  else
    match e with
    | const _ => const c
    | binary (const j) .add x _ => addConst c (k + j) x
    | e => binary (const k) .add e c

/-- The sum, a constant standing on the left. -/
def sum (lhs rhs : IntExpr) (c : Int64) : IntExpr :=
  match lhs, rhs with
  | const k, r => addConst c k r
  | l, const k => addConst c k l
  | l, r => binary l .add r c

/-- The product of a constant and an expression. -/
def mulConst (c : Int64) (k : Int64) (e : IntExpr) : IntExpr :=
  if k = 0 then const 0
  else if k = 1 then e
  else if e.isConst then const c
  else binary (const k) .mul e c

/-- The product, a constant standing on the left. -/
def product (lhs rhs : IntExpr) (c : Int64) : IntExpr :=
  match lhs, rhs with
  | const k, r => mulConst c k r
  | l, const k => mulConst c k l
  | l, r => binary l .mul r c

/-- The quotient or remainder.  A zero divisor is refused before the node is built, so zero divided
by anything is zero. -/
def quotient (op : Operator) (lhs rhs : IntExpr) (c : Int64) : IntExpr :=
  match lhs with
  | const k =>
    if k = 0 then const 0
    else if rhs.isConst then const c
    else binary (const k) op rhs c
  | l => binary l op rhs c

/-- Any other operation, a constant if both operands are. -/
def plain (op : Operator) (lhs rhs : IntExpr) (c : Int64) : IntExpr :=
  if lhs.isConst && rhs.isConst then const c else binary lhs op rhs c

/-- The node for `lhs op rhs` with concrete value `c`, folded. -/
def combine (lhs : IntExpr) (op : Operator) (rhs : IntExpr) (c : Int64) : IntExpr :=
  match op with
  | .add => sum lhs.settle rhs.settle c
  | .mul => product lhs.settle rhs.settle c
  | .div | .rem => quotient op lhs.settle rhs.settle c
  | op => plain op lhs.settle rhs.settle c

/-- The node for `op` applied to one operand. -/
def apply (op : Operator) (x : IntExpr) (c : Int64) : IntExpr :=
  if x.isSymbolic then unary op x c else const c

/-- The three-way comparison of two integers. -/
def threeWay (lhs rhs : IntExpr) (c : Int64) : IntExpr :=
  let l := lhs.settle
  let r := rhs.settle
  if l.isConst && r.isConst then const c else compare l r c

/-- A truth value as an integer. -/
def ofBool (b : Bool) : IntExpr := const (if b then 1 else 0)

end IntExpr

namespace RealExpr

/-! ## 3. Reals -/

/-- An expression without inputs as the constant of its concrete value. -/
def settle (e : RealExpr) : RealExpr :=
  if e.isSymbolic then e else const e.concrete

/-- Whether `k op x` is folded to `x`.  That is right for every double, but for the sum with the
negative zero. -/
def isNeutral (op : Operator) (k : Double) : Bool :=
  match op with
  | .add => k = Double.zero false
  | .mul => k = Double.one
  | _ => false

/-- The node for a constant on the left. -/
def withConst (k : Double) (op : Operator) (e : RealExpr) (c : Double) : RealExpr :=
  if e.isConst then const c
  else if isNeutral op k then e
  else binary (const k) op e c

/-- The node for `lhs op rhs` with concrete value `c`, folded. -/
def combine (lhs : RealExpr) (op : Operator) (rhs : RealExpr) (c : Double) : RealExpr :=
  match lhs.settle, rhs.settle with
  | const k, r => withConst k op r c
  | l, const k => if op.isCommutative then withConst k op l c else binary l op (const k) c
  | l, r => binary l op r c

/-- The node for `op` applied to one operand. -/
def apply (op : Operator) (x : RealExpr) (c : Double) : RealExpr :=
  if x.isSymbolic then unary op x c else const c

/-- An integer as a real. -/
def castInt (x : IntExpr) (c : Double) : RealExpr :=
  if x.isSymbolic then ofInt x c else const c

end RealExpr

namespace IntExpr

/-- The three-way comparison of two reals. -/
def threeWayReal (lhs rhs : RealExpr) (c : Int64) : IntExpr :=
  let l := lhs.settle
  let r := rhs.settle
  if l.isConst && r.isConst then const c else compareReal l r c

/-- A real as an integer. -/
def castReal (x : RealExpr) (c : Int64) : IntExpr :=
  if x.isSymbolic then ofReal x c else const c

/-! ## 4. Checked builders -/

/-- Whether `c` is a possible result of a three-way comparison. -/
def isThreeWay (c : Int64) : Bool := -1 ≤ c && c ≤ 1

def input? (name : String) (concrete min max : Int64) : Except Malformed IntExpr :=
  if name = "" then .error .unnamedIntVar else .ok (var ⟨name, concrete, min, max⟩)

def binary? (lhs : Option IntExpr) (op : Operator) (rhs : Option IntExpr) (c : Int64) :
    Except Malformed IntExpr :=
  match lhs, rhs with
  | some l, some r =>
    if op.isArithmetic || op.isBitwise then .ok (combine l op r c)
    else .error (.intBinaryOperator op)
  | _, _ => .error (.missingOperand op)

def unary? (op : Operator) (x : Option IntExpr) (c : Int64) : Except Malformed IntExpr :=
  match x with
  | none => .error (.missingOperand op)
  | some x => if op.isUnary then .ok (apply op x c) else .error (.intUnaryOperator op)

def compare? (lhs rhs : Option IntExpr) (c : Int64) : Except Malformed IntExpr :=
  match lhs, rhs with
  | some l, some r =>
    if isThreeWay c then .ok (threeWay l r c) else .error (.comparisonResult c)
  | _, _ => .error .missingIntComparand

def compareReal? (lhs rhs : Option RealExpr) (c : Int64) : Except Malformed IntExpr :=
  match lhs, rhs with
  | some l, some r =>
    if isThreeWay c then .ok (threeWayReal l r c) else .error (.comparisonResult c)
  | _, _ => .error .missingRealComparand

def ofReal? (x : Option RealExpr) (c : Int64) : Except Malformed IntExpr :=
  match x with
  | none => .error .missingRealToCast
  | some x => .ok (castReal x c)

end IntExpr

namespace RealExpr

def input? (name : String) (concrete min max : Double) : Except Malformed RealExpr :=
  if name = "" then .error .unnamedRealVar else .ok (var ⟨name, concrete, min, max⟩)

def binary? (lhs : Option RealExpr) (op : Operator) (rhs : Option RealExpr) (c : Double) :
    Except Malformed RealExpr :=
  match lhs, rhs with
  | some l, some r =>
    if op.isArithmetic then .ok (combine l op r c) else .error (.realBinaryOperator op)
  | _, _ => .error (.missingOperand op)

def unary? (op : Operator) (x : Option RealExpr) (c : Double) : Except Malformed RealExpr :=
  match x with
  | none => .error (.missingOperand op)
  | some x => if op.isUnary then .ok (apply op x c) else .error (.realUnaryOperator op)

def ofInt? (x : Option IntExpr) (c : Double) : Except Malformed RealExpr :=
  match x with
  | none => .error .missingIntToCast
  | some x => .ok (castInt x c)

end RealExpr

/-- Whether two expressions carry the same concrete value; the first must be there. -/
def Expr.agrees? : Option Expr → Option Expr → Except Malformed Bool
  | none, _ => .error .missingExpr
  | some a, some b => .ok (a.agrees b)
  | some _, none => .ok false

end Concolic
