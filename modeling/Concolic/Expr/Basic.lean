import Concolic.Expr.Operator
import Concolic.Ieee.Printer
import Concolic.Text.Quoted

/-
# Expressions

An expression tells how a value depends on the inputs of a run.  Every node also carries the value
that was seen when it was made, its concrete value.  Integer expressions have 64-bit words as
concrete values, whatever the width of the slot that holds them; real expressions have doubles.

Integer and real expressions refer to each other through conversions and comparisons.  Strings and
references are leaves.

Expressions are written in prefix form with parentheses; inputs are written by name.
-/
namespace Concolic

/-- An integer input with the range it may take. -/
structure IntVar where
  name : String
  concrete : Int64
  min : Int64
  max : Int64
deriving DecidableEq, Repr

/-- A real input with the range it may take. -/
structure RealVar where
  name : String
  concrete : Double
  min : Double
  max : Double
deriving DecidableEq, Repr

/-- A string input. -/
structure StrVar where
  name : String
  concrete : String
deriving DecidableEq, Repr

mutual
/-- An expression with an integer value. -/
inductive IntExpr
  | const (value : Int64)
  | var (x : IntVar)
  | binary (lhs : IntExpr) (op : Operator) (rhs : IntExpr) (concrete : Int64)
  | unary (op : Operator) (arg : IntExpr) (concrete : Int64)
  /-- The three-way comparison of two integers: -1, 0 or 1. -/
  | compare (lhs rhs : IntExpr) (concrete : Int64)
  /-- The three-way comparison of two reals: -1, 0 or 1. -/
  | compareReal (lhs rhs : RealExpr) (concrete : Int64)
  | ofReal (arg : RealExpr) (concrete : Int64)

/-- An expression with a real value. -/
inductive RealExpr
  | const (value : Double)
  | var (x : RealVar)
  | binary (lhs : RealExpr) (op : Operator) (rhs : RealExpr) (concrete : Double)
  | unary (op : Operator) (arg : RealExpr) (concrete : Double)
  | ofInt (arg : IntExpr) (concrete : Double)
end

deriving instance DecidableEq, Repr for IntExpr, RealExpr

/-- Induction on integer expressions that does not look into reals. -/
@[induction_eliminator]
theorem IntExpr.induction {P : IntExpr → Prop} (const : ∀ v, P (.const v)) (var : ∀ x, P (.var x))
    (binary : ∀ l op r c, P l → P r → P (.binary l op r c))
    (unary : ∀ op x c, P x → P (.unary op x c))
    (compare : ∀ l r c, P l → P r → P (.compare l r c))
    (compareReal : ∀ l r c, P (.compareReal l r c)) (ofReal : ∀ x c, P (.ofReal x c)) :
    ∀ e, P e
  | .const v => const v
  | .var x => var x
  | .binary l op r c =>
    binary l op r c (induction const var binary unary compare compareReal ofReal l)
      (induction const var binary unary compare compareReal ofReal r)
  | .unary op x c =>
    unary op x c (induction const var binary unary compare compareReal ofReal x)
  | .compare l r c =>
    compare l r c (induction const var binary unary compare compareReal ofReal l)
      (induction const var binary unary compare compareReal ofReal r)
  | .compareReal l r c => compareReal l r c
  | .ofReal x c => ofReal x c

/-- An expression with a string value. -/
inductive StrExpr
  | const (value : String)
  | var (x : StrVar)
deriving DecidableEq, Repr

/-- An object or array of the symbolic heap, with its class or array type. -/
structure Ref where
  id : Nat
  type : String
deriving DecidableEq, Repr

/-- An expression that stands for a heap object, or for none. -/
inductive RefExpr
  | null
  | object (r : Ref)
deriving DecidableEq, Repr

/-- An expression of any kind. -/
inductive Expr
  | int (e : IntExpr)
  | real (e : RealExpr)
  | str (e : StrExpr)
  | ref (e : RefExpr)
deriving DecidableEq, Repr

/-! ## 1. Concrete values -/

/-- The value seen when the expression was made. -/
def IntExpr.concrete : IntExpr → Int64
  | const v => v
  | var x => x.concrete
  | binary _ _ _ c => c
  | unary _ _ c => c
  | compare _ _ c => c
  | compareReal _ _ c => c
  | ofReal _ c => c

/-- The value seen when the expression was made. -/
def RealExpr.concrete : RealExpr → Double
  | const v => v
  | var x => x.concrete
  | binary _ _ _ c => c
  | unary _ _ c => c
  | ofInt _ c => c

/-- The value seen when the expression was made. -/
def StrExpr.concrete : StrExpr → String
  | const v => v
  | var x => x.concrete

/-- Whether two expressions carry the same concrete value.  Reals are compared by pattern, objects
by identity, and expressions of different kinds never agree. -/
def Expr.agrees : Expr → Expr → Bool
  | int a, int b => a.concrete = b.concrete
  | real a, real b => a.concrete = b.concrete
  | str a, str b => a.concrete = b.concrete
  | ref .null, ref .null => true
  | ref (.object a), ref (.object b) => a.id = b.id
  | _, _ => false

/-! ## 2. Symbolic expressions -/

mutual
/-- Whether an input occurs in the expression. -/
def IntExpr.isSymbolic : IntExpr → Bool
  | .const _ => false
  | .var _ => true
  | .binary l _ r _ => l.isSymbolic || r.isSymbolic
  | .unary _ x _ => x.isSymbolic
  | .compare l r _ => l.isSymbolic || r.isSymbolic
  | .compareReal l r _ => l.isSymbolic || r.isSymbolic
  | .ofReal x _ => x.isSymbolic

/-- Whether an input occurs in the expression. -/
def RealExpr.isSymbolic : RealExpr → Bool
  | .const _ => false
  | .var _ => true
  | .binary l _ r _ => l.isSymbolic || r.isSymbolic
  | .unary _ x _ => x.isSymbolic
  | .ofInt x _ => x.isSymbolic
end

/-- Whether the expression is an input. -/
def StrExpr.isSymbolic : StrExpr → Bool
  | const _ => false
  | var _ => true

/-- Whether an input occurs in the expression.  References are the same on every run. -/
def Expr.isSymbolic : Expr → Bool
  | int e => e.isSymbolic
  | real e => e.isSymbolic
  | str e => e.isSymbolic
  | ref _ => false

/-! ## 3. Kinds of nodes -/

/-- The kinds of nodes. -/
inductive Kind
  | intConst
  | intVar
  | intBinary
  | intUnary
  | intCompare
  | realCompare
  | realToInt
  | realConst
  | realVar
  | realBinary
  | realUnary
  | intToReal
  | strConst
  | strVar
  | nullRef
  | objectRef
deriving DecidableEq, Repr

def Kind.name : Kind → String
  | intConst => "IntegerConstant"
  | intVar => "IntegerVariable"
  | intBinary => "IntegerBinaryExpr"
  | intUnary => "IntegerUnaryExpr"
  | intCompare => "IntegerComparison"
  | realCompare => "RealComparison"
  | realToInt => "RealToIntegerCast"
  | realConst => "RealConstant"
  | realVar => "RealVariable"
  | realBinary => "RealBinaryExpr"
  | realUnary => "RealUnaryExpr"
  | intToReal => "IntegerToRealCast"
  | strConst => "StringConstant"
  | strVar => "StringVariable"
  | nullRef => "NullReference"
  | objectRef => "ReferenceConstant"

/-- The kind's name with the family it belongs to, as messages give it. -/
def Kind.qualified (k : Kind) : String := "*symbolic." ++ k.name

def Expr.kind : Expr → Kind
  | int (.const _) => .intConst
  | int (.var _) => .intVar
  | int (.binary ..) => .intBinary
  | int (.unary ..) => .intUnary
  | int (.compare ..) => .intCompare
  | int (.compareReal ..) => .realCompare
  | int (.ofReal ..) => .realToInt
  | real (.const _) => .realConst
  | real (.var _) => .realVar
  | real (.binary ..) => .realBinary
  | real (.unary ..) => .realUnary
  | real (.ofInt ..) => .intToReal
  | str (.const _) => .strConst
  | str (.var _) => .strVar
  | ref .null => .nullRef
  | ref (.object _) => .objectRef

/-- The kinds of leaves that are no input. -/
def Kind.isConstant : Kind → Bool
  | intConst | realConst | strConst | nullRef | objectRef => true
  | _ => false

def IntExpr.isConst : IntExpr → Bool
  | const _ => true
  | _ => false

def RealExpr.isConst : RealExpr → Bool
  | const _ => true
  | _ => false

/-- Whether the object is an array. -/
def Ref.isArray (r : Ref) : Bool :=
  r.type.toList.head? = some '['

/-! ## 4. Shared constants -/

/-- The integers from -1 to 5 have one shared node each. -/
def sharedInt (v : Int64) : Bool :=
  -1 ≤ v && v ≤ 5

/-- The reals 0, 1 and 2 have one shared node each; -0 has none. -/
def sharedReal (v : Double) : Bool :=
  v = Double.zero false || v = Double.one || v = Double.two

/-! ## 5. Text -/

/-- The decimal text of a word. -/
def wordText (v : Int64) : String := Numeral.decimal v.toInt

mutual
def IntExpr.render : IntExpr → String
  | .const v => "(int " ++ wordText v ++ ")"
  | .var x => x.name
  | .binary l op r _ => "(" ++ op.name ++ " " ++ l.render ++ " " ++ r.render ++ ")"
  | .unary op x _ => "(" ++ op.name ++ " " ++ x.render ++ ")"
  | .compare l r _ => "(cmp " ++ l.render ++ " " ++ r.render ++ ")"
  | .compareReal l r _ => "(fcmp " ++ l.render ++ " " ++ r.render ++ ")"
  | .ofReal x _ => "(r2i " ++ x.render ++ ")"

def RealExpr.render : RealExpr → String
  | .const v => "(real " ++ v.render ++ ")"
  | .var x => x.name
  | .binary l op r _ => "(f" ++ op.name ++ " " ++ l.render ++ " " ++ r.render ++ ")"
  | .unary op x _ => "(f" ++ op.name ++ " " ++ x.render ++ ")"
  | .ofInt x _ => "(i2r " ++ x.render ++ ")"
end

def StrExpr.render : StrExpr → String
  | const v => "(str " ++ Text.quote v ++ ")"
  | var x => x.name

def Ref.render (r : Ref) : String :=
  "(ref " ++ Nat.repr r.id ++ " " ++ r.type ++ ")"

def RefExpr.render : RefExpr → String
  | null => "null"
  | object r => r.render

def Expr.render : Expr → String
  | int e => e.render
  | real e => e.render
  | str e => e.render
  | ref e => e.render

/-- The text of the concrete value; references have none. -/
def Expr.concreteText : Expr → Option String
  | int e => some (wordText e.concrete)
  | real e => some e.concrete.render
  | str e => some e.concrete
  | ref _ => none

/-- The expression together with its concrete value. -/
def Expr.display (e : Expr) : String :=
  match e.concreteText with
  | some v => e.render ++ " @ " ++ v
  | none => e.render

end Concolic
