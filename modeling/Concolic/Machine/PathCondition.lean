import Concolic.Constraint.Basic
import Concolic.Text.Hash

/-
# Path conditions

The machine reports every constraint that the run obeys to a collector.  Supporting constraints, such
as a divisor that is not zero, belong to no branch; conditions are the outcomes of branches and of
array accesses.

The usual collector is a path condition.  It normalises what it is given, drops a supporting
constraint if the hash of its text was seen since the last condition, and hands the pending ones to
the next condition.  The other collector merely lists the calls it receives.
-/
namespace Concolic

/-- What a condition decides. -/
inductive ConditionKind
  | branch
  | array
  | other (code : Int)
deriving DecidableEq, Repr

/-- The kind with a given number. -/
def ConditionKind.ofCode : Int → ConditionKind
  | 0 => branch
  | 1 => array
  | n => other n

def ConditionKind.name : ConditionKind → String
  | branch => "branch"
  | array => "array"
  | other n => "ConditionKind<" ++ Numeral.decimal n ++ ">"

/-- A decision of the run, with the supporting constraints collected since the one before. -/
structure Condition where
  kind : ConditionKind
  className : String
  methodName : String
  /-- The number of the branch, or -1 for an array access. -/
  branch : Int
  /-- Whether an array access was out of bounds. -/
  negated : Bool
  constraint : Constraint
  supporting : List Constraint
deriving DecidableEq, Repr

/-- The decisions of a run in order, and the supporting constraints since the last one. -/
structure PathCondition where
  /-- Texts with the same hash are taken for the same text. -/
  hash : String → UInt64 := Text.xxhash64
  conditions : List Condition := []
  pending : List Constraint := []
  /-- The hashes since the last decision. -/
  seen : List UInt64 := []

/-- A constraint as it is reported. -/
inductive Report
  | supporting (c : Constraint)
  | array (c : Constraint) (className methodName : String) (negated : Bool)
  | branch (c : Constraint) (className methodName : String) (branch : Int)
deriving DecidableEq, Repr

namespace PathCondition

/-- Keeps a normalised supporting constraint unless the hash of its text was seen. -/
def support (pc : PathCondition) (c : Constraint) : PathCondition :=
  let h := pc.hash c.render
  if pc.seen.contains h then pc
  else { pc with pending := pc.pending ++ [c], seen := pc.seen ++ [h] }

/-- Adds a decision, which takes the pending constraints; what was seen is forgotten. -/
def decide (pc : PathCondition) (c : Condition) : PathCondition :=
  { pc with
    conditions := pc.conditions ++ [{ c with supporting := pc.pending }]
    pending := []
    seen := [] }

/-- Takes a report; answers with the decision that it adds, if any. -/
def report (pc : PathCondition) : Report → Except Malformed (PathCondition × Option Condition)
  | .supporting c => do return (pc.support (← c.normalize), none)
  | .array c cls m negated => do
    let d : Condition := ⟨.array, cls, m, -1, negated, ← c.normalize, pc.pending⟩
    return (pc.decide d, some d)
  | .branch c cls m n => do
    let d : Condition := ⟨.branch, cls, m, n, false, ← c.normalize, pc.pending⟩
    return (pc.decide d, some d)

/-- All constraints in the order of the run, those that support a decision before it. -/
def constraints (pc : PathCondition) : List Constraint :=
  (pc.conditions.flatMap fun d => d.supporting ++ [d.constraint]) ++ pc.pending

/-- Numbered lines, counted from `n`. -/
def linesFrom (n : Nat) : List Constraint → List String
  | [] => []
  | c :: cs => (Nat.repr n ++ ". " ++ c.render ++ "\n") :: linesFrom (n + 1) cs

/-- One numbered line for each constraint. -/
def render (pc : PathCondition) : String :=
  String.join (linesFrom 0 pc.constraints)

end PathCondition

/-- The receiver of the constraints. -/
inductive Collector
  | path (pc : PathCondition)
  | calls (reports : List Report)

/-- The path condition that was collected. -/
def Collector.pathCondition : Collector → PathCondition
  | path pc => pc
  | calls _ => {}

/-- Takes a report; answers with the decision that it adds to a path condition, if any. -/
def Collector.report (c : Collector) (r : Report) :
    Except Malformed (Collector × Option Condition) :=
  match c with
  | path pc => (pc.report r).map fun (pc, d) => (path pc, d)
  | calls rs => .ok (calls (rs ++ [r]), none)

end Concolic
