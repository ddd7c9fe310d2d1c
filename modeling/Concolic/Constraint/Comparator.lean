import Concolic.Numeral.Integer

/-
# Comparators

A constraint relates two expressions by one of six relations.  Comparators are known to the outside
by number; a number that names no relation is kept as `other`.
-/
namespace Concolic

/-- The relations between two ordered values. -/
inductive Relation
  | eq
  | ne
  | lt
  | le
  | gt
  | ge
deriving DecidableEq, Repr

namespace Relation

/-- The relation with exchanged sides: `a < b` exactly when `b > a`. -/
def swap : Relation → Relation
  | eq => eq
  | ne => ne
  | lt => gt
  | le => ge
  | gt => lt
  | ge => le

/-- The relation that holds exactly when the given one does not. -/
def negate : Relation → Relation
  | eq => ne
  | ne => eq
  | lt => ge
  | le => gt
  | gt => le
  | ge => lt

/-- Whether two words stand in the relation, read as signed integers. -/
def holds : Relation → Int64 → Int64 → Bool
  | eq, a, b => a = b
  | ne, a, b => a ≠ b
  | lt, a, b => a < b
  | le, a, b => a ≤ b
  | gt, a, b => b < a
  | ge, a, b => b ≤ a

def symbol : Relation → String
  | eq => "=="
  | ne => "!="
  | lt => "<"
  | le => "<="
  | gt => ">"
  | ge => ">="

end Relation

/-- What stands between the two sides of a constraint. -/
inductive Comparator
  | rel (r : Relation)
  | other (code : Int)
deriving DecidableEq, Repr

namespace Comparator

/-- The comparator with a given number. -/
def ofCode : Int → Comparator
  | 1 => rel .eq
  | 2 => rel .ne
  | 3 => rel .lt
  | 4 => rel .le
  | 5 => rel .gt
  | 6 => rel .ge
  | n => other n

def symbol : Comparator → String
  | rel r => r.symbol
  | other n => "Comparator<" ++ Numeral.decimal n ++ ">"

end Comparator

end Concolic
