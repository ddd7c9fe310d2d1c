import Concolic.Constraint.Basic

/-
# Solver terms

The terms of the solver's language that constraints are stated in, and their text.  Integers and
reals are unbounded there and division is Euclidean, so that quotients, remainders and conversions
that cut toward zero are spelled out with a case distinction on the sign.

Bitwise operators, narrowing, the real remainder and numbers without a literal have no counterpart;
`ofExpr` names the first node, from the left and from below, that cannot be stated.
-/
namespace Concolic.Smt

inductive Term
  | numeral (n : Nat)
  /-- A decimal fraction, given by its digits. -/
  | fraction (text : String)
  | text (s : String)
  | symbol (name : String)
  | app1 (f : String) (a : Term)
  | app2 (f : String) (a b : Term)
  | ite (c a b : Term)
deriving DecidableEq, Repr

/-! ## 1. Text -/

/-- Whether a character may stand in a symbol that is not quoted; digits may not come first. -/
def isSymbolChar (first : Bool) (c : Char) : Bool :=
  ('a' ≤ c && c ≤ 'z') || ('A' ≤ c && c ≤ 'Z') || c = '_' || c = '$' || c = '.' ||
    ('0' ≤ c && c ≤ '9' && !first)

/-- Whether a name can be written as it is. -/
def isSimple : List Char → Bool
  | [] => false
  | c :: cs => isSymbolChar true c && cs.all (isSymbolChar false)

/-- A name as a symbol, between bars if need be; a bar inside becomes an underscore. -/
def symbolText (name : String) : String :=
  if isSimple name.toList then name
  else "|" ++ String.ofList (name.toList.map fun c => if c = '|' then '_' else c) ++ "|"

/-- A string literal; a quote inside is written twice. -/
def stringText (s : String) : String :=
  String.ofList ('"' :: s.toList.flatMap (fun c => if c = '"' then ['"', '"'] else [c]) ++ ['"'])

def Term.render : Term → String
  | numeral n => Nat.repr n
  | fraction t => t
  | text s => stringText s
  | symbol name => symbolText name
  | app1 f a => "(" ++ f ++ " " ++ a.render ++ ")"
  | app2 f a b => "(" ++ f ++ " " ++ a.render ++ " " ++ b.render ++ ")"
  | ite c a b => "(ite " ++ c.render ++ " " ++ a.render ++ " " ++ b.render ++ ")"

/-! ## 2. Literals -/

/-- The operator for the number with the other sign. -/
def Term.negated (t : Term) : Term := app1 "-" t

/-- An integer literal. -/
def Term.ofInt (v : Int) : Term :=
  if v < 0 then (numeral v.natAbs).negated else numeral v.natAbs

/-- The digits of a fraction, with a point. -/
def withPoint (s : String) : String :=
  if s.toList.contains '.' then s else s ++ ".0"

/-- A real literal; there is none for infinities and not-a-number, and both zeros are zero. -/
def Term.ofDouble (v : Double) : Option Term :=
  match v.view with
  | .finite neg m q =>
    let t := fraction (withPoint (Double.positional m q))
    some (if neg && m != 0 then t.negated else t)
  | _ => none

/-! ## 3. Operations -/

/-- The quotient cut toward zero. -/
def Term.quotient (a b : Term) : Term :=
  ite (app2 ">=" a (numeral 0)) (app2 "div" a b) (app2 "div" a.negated b).negated

/-- The remainder that belongs to `quotient`. -/
def Term.remainder (a b : Term) : Term :=
  app2 "-" a (app2 "*" b (quotient a b))

/-- -1, 0 or 1 as `a` is less than, equal to or greater than `b`. -/
def Term.threeWay (a b : Term) : Term :=
  ite (app2 "<" a b) (numeral 1).negated (ite (app2 ">" a b) (numeral 1) (numeral 0))

/-- The whole part of a real, cut toward zero. -/
def Term.wholePart (a : Term) : Term :=
  ite (app2 ">=" a (fraction "0.0")) (app1 "to_int" a) (app1 "to_int" a.negated).negated

/-! ## 4. Expressions -/

/-- Where a constraint could not be stated. -/
inductive Place
  | leaf
  | intBinary
  | realBinary
  | unary
deriving DecidableEq, Repr

/-- Why a constraint could not be stated. -/
inductive Error
  | unsupported (place : Place) (e : Expr)
  | comparator (c : Comparator)
  | textComparator (c : Comparator)
deriving DecidableEq, Repr

def Place.name : Place → String
  | leaf => "toTerm"
  | intBinary => "toIntegerBinaryTerm"
  | realBinary => "toRealBinaryTerm"
  | unary => "toUnaryTerm"

def Error.message : Error → String
  | unsupported p e => "smtlib." ++ p.name ++ ": " ++ e.render ++ ": unsupported expression"
  | comparator c => "smtlib.toConstraint: invalid comparator: " ++ c.symbol
  | textComparator c => "smtlib.toStringComparison: invalid comparator: " ++ c.symbol

/-- The term for an integer operation; the bitwise operators have none. -/
def Term.ofIntBinary (op : Operator) (a b : Term) : Option Term :=
  match op with
  | .add => some (app2 "+" a b)
  | .sub => some (app2 "-" a b)
  | .mul => some (app2 "*" a b)
  | .div => some (quotient a b)
  | .rem => some (remainder a b)
  | _ => none

/-- The term for a real operation; the remainder has none. -/
def Term.ofRealBinary (op : Operator) (a b : Term) : Option Term :=
  match op with
  | .add => some (app2 "+" a b)
  | .sub => some (app2 "-" a b)
  | .mul => some (app2 "*" a b)
  | .div => some (app2 "/" a b)
  | _ => none

/-- The term, or the complaint that `e` has none. -/
def supported (place : Place) (e : Expr) (t : Option Term) : Except Error Term :=
  match t with
  | some t => .ok t
  | none => .error (.unsupported place e)

mutual
/-- The term for an integer expression. -/
def Term.ofIntExpr : IntExpr → Except Error Term
  | .const v => .ok (ofInt v.toInt)
  | .var x => .ok (symbol x.name)
  | .binary l op r c => do
    let a ← ofIntExpr l
    let b ← ofIntExpr r
    supported .intBinary (.int (.binary l op r c)) (ofIntBinary op a b)
  | .unary op x c =>
    if op = .neg then (ofIntExpr x).map negated
    else .error (.unsupported .unary (.int (.unary op x c)))
  | .compare l r _ => do
    let a ← ofIntExpr l
    let b ← ofIntExpr r
    return threeWay a b
  | .compareReal l r _ => do
    let a ← ofRealExpr l
    let b ← ofRealExpr r
    return threeWay a b
  | .ofReal x _ => (ofRealExpr x).map wholePart

/-- The term for a real expression. -/
def Term.ofRealExpr : RealExpr → Except Error Term
  | .const v => supported .leaf (.real (.const v)) (ofDouble v)
  | .var x => .ok (symbol x.name)
  | .binary l op r c => do
    let a ← ofRealExpr l
    let b ← ofRealExpr r
    supported .realBinary (.real (.binary l op r c)) (ofRealBinary op a b)
  | .unary op x c =>
    if op = .neg then (ofRealExpr x).map negated
    else .error (.unsupported .unary (.real (.unary op x c)))
  | .ofInt x _ => (ofIntExpr x).map (app1 "to_real")
end

/-- The term for a string expression. -/
def Term.ofStrExpr : StrExpr → Term
  | .const v => text v
  | .var x => symbol x.name

/-- The term for a relation between two numbers. -/
def Term.relation (r : Relation) (a b : Term) : Term :=
  match r with
  | .eq => app2 "=" a b
  | .ne => app1 "not" (app2 "=" a b)
  | .lt => app2 "<" a b
  | .le => app2 "<=" a b
  | .gt => app2 ">" a b
  | .ge => app2 ">=" a b

/-- The term for a relation between two strings. -/
def Term.textRelation (r : Relation) (a b : Term) : Term :=
  match r with
  | .eq => app2 "=" a b
  | .ne => app1 "not" (app2 "=" a b)
  | .lt => app2 "str.<" a b
  | .le => app2 "str.<=" a b
  | .gt => app2 "str.<" b a
  | .ge => app2 "str.<=" b a

/-- The term between two numbers, if the comparator is a relation. -/
def Term.compareNumbers (cmp : Comparator) (a b : Term) : Except Error Term :=
  match cmp with
  | .rel r => .ok (relation r a b)
  | .other n => .error (.comparator (.other n))

/-- The truth-valued term for a constraint. -/
def Term.ofConstraint : Constraint → Except Error Term
  | .int l cmp r => do
    let a ← ofIntExpr l
    let b ← ofIntExpr r
    compareNumbers cmp a b
  | .real l cmp r => do
    let a ← ofRealExpr l
    let b ← ofRealExpr r
    compareNumbers cmp a b
  | .str l cmp r =>
    match cmp with
    | .rel rel => .ok (textRelation rel (ofStrExpr l) (ofStrExpr r))
    | .other n => .error (.textComparator (.other n))

end Concolic.Smt
