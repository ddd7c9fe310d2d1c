import Concolic.Expr.Visit
import Concolic.Smt.Term

/-
# Solver scripts

A script declares the inputs of a list of constraints with the ranges they may take, asserts the
constraints and asks for a model.  It is written only if every constraint can be stated.
-/
namespace Concolic.Smt

inductive Command
  | produceModels
  | declare (x : Variable)
  | assert (t : Term)
  | checkSat
  | getModel

/-- The sort of an input. -/
def sortName : Variable → String
  | .int _ => "Int"
  | .real _ => "Real"
  | .str _ => "String"

def Command.render : Command → String
  | produceModels => "(set-option :produce-models true)"
  | declare x => "(declare-const " ++ symbolText x.name ++ " " ++ sortName x ++ ")"
  | assert t => "(assert " ++ t.render ++ ")"
  | checkSat => "(check-sat)"
  | getModel => "(get-model)"

/-- A bound of a real input; the largest doubles and what is beyond bound nothing. -/
def realBound (f : String) (name : String) (bound extreme : Double) : List Command :=
  if bound = extreme then []
  else
    match Term.ofDouble bound with
    | some t => [.assert (.app2 f (.symbol name) t)]
    | none => []

/-- The declaration of an input and its bounds. -/
def declaration (x : Variable) : List Command :=
  .declare x :: match x with
    | .int v =>
      [.assert (.app2 "and" (.app2 ">=" (.symbol v.name) (.ofInt v.min.toInt))
        (.app2 "<=" (.symbol v.name) (.ofInt v.max.toInt)))]
    | .real v =>
      realBound ">=" v.name v.min (Double.largest true) ++
        realBound "<=" v.name v.max (Double.largest false)
    | .str _ => []

/-- The terms of the constraints up to the first that cannot be stated. -/
def terms : List Constraint → List Term × Option Error
  | [] => ([], none)
  | c :: cs =>
    match Term.ofConstraint c with
    | .error e => ([], some e)
    | .ok t => let (ts, e) := terms cs; (t :: ts, e)

/-- All commands of the script that asserts `ts`. -/
def commands (cs : List Constraint) (ts : List Term) : List Command :=
  .produceModels :: (Constraint.variables cs).flatMap declaration ++ ts.map .assert ++
    [.checkSat, .getModel]

/-- Commands one to a line. -/
def renderCommands (cs : List Command) : String :=
  String.join (cs.map fun c => c.render ++ "\n")

/-- The script for a list of constraints. -/
def script (cs : List Constraint) : Except Error String :=
  match terms cs with
  | (_, some e) => .error e
  | (ts, none) => .ok (renderCommands (commands cs ts))

/-- A writer of scripts: what it has written, how many scripts were asked for, and how many
constraints were stated in all of them. -/
structure Encoder where
  written : String := ""
  scripts : Nat := 0
  assertions : Nat := 0
deriving DecidableEq, Repr

/-- Writes the script for a list of constraints, all of it or nothing.  The constraints stated
before one that cannot be are counted. -/
def Encoder.encode (enc : Encoder) (cs : List Constraint) : Except Error Unit × Encoder :=
  let counted :=
    { enc with
      scripts := enc.scripts + 1
      assertions := enc.assertions + (terms cs).1.length }
  match script cs with
  | .error e => (.error e, counted)
  | .ok text => (.ok (), { counted with written := enc.written ++ text })

end Concolic.Smt
