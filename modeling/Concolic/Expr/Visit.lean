import Concolic.Constraint.Basic

/-
# Visiting expressions

`visit` lists the nodes of an expression, each before its children and the left child first.  The
children of a node are visited only if `enter` says so.

`variables` collects the inputs of constraints: one for every name, the one visited last, in
increasing order of names.  Sorting is by insertion, and elements that the order does not tell
apart keep their places.
-/
namespace Concolic

/-! ## 1. Sorting -/

namespace Sorting

/-- Puts `x` in front of the first element that it does not exceed. -/
def insertBy (le : α → α → Bool) (x : α) : List α → List α
  | [] => [x]
  | y :: ys => if le x y then x :: y :: ys else y :: insertBy le x ys

/-- The elements in increasing order. -/
def sortBy (le : α → α → Bool) : List α → List α
  | [] => []
  | x :: xs => insertBy le x (sortBy le xs)

/-- Whether one text comes before another or is the same, by code points. -/
def textLe (a b : String) : Bool := !(b < a : Bool)

end Sorting

/-! ## 2. Nodes -/

mutual
/-- The visited nodes of an integer expression. -/
def IntExpr.visit (enter : Expr → Bool) (e : IntExpr) : List Expr :=
  .int e :: if enter (.int e) then
    match e with
    | .const _ => []
    | .var _ => []
    | .binary l _ r _ => l.visit enter ++ r.visit enter
    | .unary _ x _ => x.visit enter
    | .compare l r _ => l.visit enter ++ r.visit enter
    | .compareReal l r _ => l.visit enter ++ r.visit enter
    | .ofReal x _ => x.visit enter
  else []

/-- The visited nodes of a real expression. -/
def RealExpr.visit (enter : Expr → Bool) (e : RealExpr) : List Expr :=
  .real e :: if enter (.real e) then
    match e with
    | .const _ => []
    | .var _ => []
    | .binary l _ r _ => l.visit enter ++ r.visit enter
    | .unary _ x _ => x.visit enter
    | .ofInt x _ => x.visit enter
  else []
end

/-- The visited nodes of an expression, parents first, left before right. -/
def Expr.visit (enter : Expr → Bool) : Expr → List Expr
  | int e => e.visit enter
  | real e => e.visit enter
  | e => [e]

/-- The visited nodes of an expression that must be there. -/
def Expr.visit? (enter : Expr → Bool) : Option Expr → Except Malformed (List Expr)
  | some e => .ok (e.visit enter)
  | none => .error .unreachable

/-! ## 3. Inputs -/

/-- An input of any kind. -/
inductive Variable
  | int (x : IntVar)
  | real (x : RealVar)
  | str (x : StrVar)
deriving DecidableEq, Repr

def Variable.name : Variable → String
  | int x => x.name
  | real x => x.name
  | str x => x.name

/-- The input as an expression. -/
def Variable.toExpr : Variable → Expr
  | int x => .int (.var x)
  | real x => .real (.var x)
  | str x => .str (.var x)

/-- The input that a leaf stands for. -/
def Expr.asVariable? : Expr → Option Variable
  | int (.var x) => some (.int x)
  | real (.var x) => some (.real x)
  | str (.var x) => some (.str x)
  | _ => none

/-- The inputs of an expression in the order of their visits. -/
def Expr.variables (e : Expr) : List Variable :=
  (e.visit Expr.isSymbolic).filterMap Expr.asVariable?

/-- Of the inputs with one name, only the last. -/
def Variable.lastOfName : List Variable → List Variable
  | [] => []
  | x :: xs =>
    if xs.any fun y => y.name = x.name then lastOfName xs else x :: lastOfName xs

/-- The inputs of a list of constraints, one for each name, in the order of names. -/
def Constraint.variables (cs : List Constraint) : List Variable :=
  Sorting.sortBy (fun x y => Sorting.textLe x.name y.name)
    (Variable.lastOfName (cs.flatMap fun c => c.left.variables ++ c.right.variables))

end Concolic
