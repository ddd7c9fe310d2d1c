import Concolic.Expr.Build

/-
# Constraints

A constraint relates two expressions of the same kind.

A constraint between a three-way comparison and a constant threshold, such as `cmp x y == 0`, says
something about the compared operands themselves, here `x == y`.  `Constraint.normalize` states that
relation; constraints of any other shape stay as they are.
-/
namespace Concolic

/-! ## 1. Constraints -/

inductive Constraint
  | int (lhs : IntExpr) (cmp : Comparator) (rhs : IntExpr)
  | real (lhs : RealExpr) (cmp : Comparator) (rhs : RealExpr)
  | str (lhs : StrExpr) (cmp : Comparator) (rhs : StrExpr)
deriving DecidableEq, Repr

namespace Comparator

/-- The comparator for exchanged sides. -/
def swap : Comparator → Except Malformed Comparator
  | rel r => .ok (rel r.swap)
  | other n => .error (.comparator (other n))

/-- The comparator that holds exactly when the given one does not. -/
def negate : Comparator → Except Malformed Comparator
  | rel r => .ok (rel r.negate)
  | other n => .error (.comparator (other n))

end Comparator

namespace Constraint

def left : Constraint → Expr
  | int l _ _ => .int l
  | real l _ _ => .real l
  | str l _ _ => .str l

def right : Constraint → Expr
  | int _ _ r => .int r
  | real _ _ r => .real r
  | str _ _ r => .str r

def comparator : Constraint → Comparator
  | int _ c _ => c
  | real _ c _ => c
  | str _ c _ => c

/-- The same sides with another comparator. -/
def withComparator : Constraint → Comparator → Constraint
  | int l _ r, c => int l c r
  | real l _ r, c => real l c r
  | str l _ r, c => str l c r

/-- The constraint that holds exactly when the given one does not. -/
def negate (c : Constraint) : Except Malformed Constraint :=
  c.comparator.negate.map c.withComparator

/-- Whether an input occurs on either side. -/
def isSymbolic (c : Constraint) : Bool :=
  c.left.isSymbolic || c.right.isSymbolic

def render (c : Constraint) : String :=
  c.left.render ++ " " ++ c.comparator.symbol ++ " " ++ c.right.render

/-- The name of the constraint's kind. -/
def kindName : Constraint → String
  | int .. => "IntegerConstraint"
  | real .. => "RealConstraint"
  | str .. => "StringConstraint"

/-- The constraint after the name of its kind. -/
def display (c : Constraint) : String :=
  c.kindName ++ ": " ++ c.render

/-- `lhs r rhs` on integers. -/
def relate (lhs : IntExpr) (r : Relation) (rhs : IntExpr) : Constraint :=
  int lhs (.rel r) rhs

/-! ## 2. Checked builders -/

def int? (lhs : Option IntExpr) (cmp : Comparator) (rhs : Option IntExpr) :
    Except Malformed Constraint :=
  match lhs, rhs with
  | some l, some r => .ok (int l cmp r)
  | _, _ => .error .missingIntSide

def real? (lhs : Option RealExpr) (cmp : Comparator) (rhs : Option RealExpr) :
    Except Malformed Constraint :=
  match lhs, rhs with
  | some l, some r => .ok (real l cmp r)
  | _, _ => .error .missingRealSide

def str? (lhs : Option StrExpr) (cmp : Comparator) (rhs : Option StrExpr) :
    Except Malformed Constraint :=
  match lhs, rhs with
  | some l, some r => .ok (str l cmp r)
  | _, _ => .error .missingStrSide

end Constraint

/-! ## 3. Direct relations -/

/-- The relation between the operands of a three-way comparison that `comparison r k` implies. -/
def Relation.ofThreshold (r : Relation) (k : Int64) : Relation :=
  match r with
  | eq => if k < 0 then lt else if k = 0 then eq else gt
  | ne => if k < 0 then ge else if k = 0 then ne else le
  | lt => if k ≤ 0 then lt else le
  | le => if k < 0 then lt else le
  | gt => if k < 0 then ge else gt
  | ge => if k ≤ 0 then ge else gt

/-- `Relation.ofThreshold` on comparators. -/
def Comparator.ofThreshold (c : Comparator) (k : Int64) : Except Malformed Comparator :=
  match c with
  | rel r => .ok (rel (r.ofThreshold k))
  | other n => .error (.normalForm (other n))

/-- The direct relation of the operands, the comparison standing on the left of the threshold `k`;
`none` if `e` is no three-way comparison. -/
def IntExpr.direct (e : IntExpr) (cmp : Except Malformed Comparator) :
    Option (Except Malformed Constraint) :=
  match e with
  | compare l r _ => some (cmp.map fun c => .int l c r)
  | compareReal l r _ => some (cmp.map fun c => .real l c r)
  | _ => none

/-- States a constraint on a three-way comparison and a threshold as a relation of the compared
operands.  With the comparison on the right, the comparator is swapped and the threshold negated. -/
def Constraint.normalize (c : Constraint) : Except Malformed Constraint :=
  match c with
  | int lhs cmp (.const k) => (lhs.direct (cmp.ofThreshold k)).getD (.ok c)
  | int (.const k) cmp rhs =>
    (rhs.direct do (← cmp.swap).ofThreshold (-k)).getD (.ok c)
  | _ => .ok c

end Concolic
