import Concolic.Host.Basic

/-
# Arguments of the watched method

An argument of a primitive type becomes an input if it has a name and a constant otherwise.  The
value, which is zero if none is given, must lie between the bounds, and these in the range of the
type.  Reals are not compared with their bounds.

An argument of a reference type becomes the reference for a host object.
-/
namespace Concolic.Host

/-- The part of an argument that is read. -/
inductive ArgPart
  | value
  | min
  | max
deriving DecidableEq, Repr

def ArgPart.name : ArgPart → String
  | value => "value"
  | min => "min"
  | max => "max"

/-- Why an argument is refused. -/
inductive ArgError
  | type (name type : String)
  | numeral (name : String) (part : ArgPart) (e : Numeral.Error)
  | range (name : String) (part : ArgPart) (v lo hi : Int)
  | outside (name : String) (v lo hi : Int)
  | object (name : String) (e : ValueError)
deriving DecidableEq, Repr

/-- The bounds between brackets. -/
def rangeText (lo hi : Int) : String :=
  "[" ++ Numeral.decimal lo ++ ", " ++ Numeral.decimal hi ++ "]"

def ArgError.message : ArgError → String
  | type n t => "argument " ++ Text.quote n ++ ": invalid type " ++ Text.quote t
  | numeral n p e => "argument " ++ Text.quote n ++ ": " ++ p.name ++ ": " ++ e.message
  | range n p v lo hi =>
    "argument " ++ Text.quote n ++ ": " ++ p.name ++ ": " ++ Numeral.decimal v ++
      " out of range " ++ rangeText lo hi
  | outside n v lo hi =>
    "argument " ++ Text.quote n ++ ": value " ++ Numeral.decimal v ++ " outside " ++
      rangeText lo hi
  | object n e => "argument " ++ Text.quote n ++ ": " ++ e.message

/-- The integer types. -/
inductive IntType
  | boolean
  | byte
  | char
  | short
  | int
  | long
deriving DecidableEq, Repr

/-- The integer type with a descriptor. -/
def IntType.ofDesc? : String → Option IntType
  | "Z" => some boolean
  | "B" => some byte
  | "C" => some char
  | "S" => some short
  | "I" => some int
  | "J" => some long
  | _ => none

/-- The least value. -/
def IntType.lo : IntType → Int
  | boolean => 0
  | byte => Int8.minValue.toInt
  | char => 0
  | short => Int16.minValue.toInt
  | int => Int32.minValue.toInt
  | long => Int64.minValue.toInt

/-- The greatest value. -/
def IntType.hi : IntType → Int
  | boolean => 1
  | byte => Int8.maxValue.toInt
  | char => 65535
  | short => Int16.maxValue.toInt
  | int => Int32.maxValue.toInt
  | long => Int64.maxValue.toInt

/-- Reads a part of an integer argument, which must lie in the range of its type. -/
def readInt (name : String) (part : ArgPart) (t : IntType) (s : String) (default : Int) :
    Except ArgError Int :=
  if s = "" then .ok default
  else
    match Numeral.parseInteger 64 s with
    | .error e => .error (.numeral name part e)
    | .ok v => if v < t.lo ∨ t.hi < v then .error (.range name part v t.lo t.hi) else .ok v

/-- Truth values may also be given as words. -/
def truthDigit : String → String
  | "true" => "1"
  | "false" => "0"
  | s => s

def intOperand (t : IntType) (a : Trace.Arg) : Except ArgError Operand := do
  let v ← readInt a.name .value t (if t = .boolean then truthDigit a.value else a.value) 0
  let lo ← readInt a.name .min t a.min t.lo
  let hi ← readInt a.name .max t a.max t.hi
  if v < lo ∨ hi < v then .error (.outside a.name v lo hi)
  let e : IntExpr :=
    if a.name = "" then .const (Int64.ofInt v)
    else .var ⟨a.name, Int64.ofInt v, Int64.ofInt lo, Int64.ofInt hi⟩
  return if t = .long then .bv64 e else .bv32 e

/-- Reads a part of a real argument. -/
def readReal (name : String) (part : ArgPart) (p : Numeral.Precision) (s : String)
    (default : Double) : Except ArgError Double :=
  if s = "" then .ok default
  else
    match Numeral.parseReal p s with
    | .error e => .error (.numeral name part e)
    | .ok v => .ok v

/-- The largest finite number of a precision. -/
def largest (p : Numeral.Precision) (neg : Bool) : Double :=
  match p with
  | .single => .largestSingle neg
  | .double => .largest neg

def realOperand (p : Numeral.Precision) (a : Trace.Arg) : Except ArgError Operand := do
  let v ← readReal a.name .value p a.value (.zero false)
  let lo ← readReal a.name .min p a.min (largest p true)
  let hi ← readReal a.name .max p a.max (largest p false)
  let e : RealExpr := if a.name = "" then .const v else .var ⟨a.name, v, lo, hi⟩
  return match p with
    | .single => .fp32 e
    | .double => .fp64 e

/-- The host object that an argument names. -/
def argObject (h : Host) (a : Trace.Arg) : Except ArgError Value :=
  if isReference a.type then
    match h.read a.type (if a.ref = "" then a.value else a.ref) with
    | .ok v => .ok v
    | .error e => .error (.object a.name e)
  else .error (.type a.name a.type)

/-- What an argument stands for before the heap knows its object. -/
def argument (h : Host) (a : Trace.Arg) : Except ArgError (Operand ⊕ Value) :=
  match IntType.ofDesc? a.type with
  | some t => (intOperand t a).map .inl
  | none =>
    match a.type with
    | "F" => (realOperand .single a).map .inl
    | "D" => (realOperand .double a).map .inl
    | _ => (h.argObject a).map .inr

/-- The operand for an argument.  An object gets its reference in the heap. -/
def operand (h : Host) (a : Trace.Arg) : Act Heap (Except ArgError Operand) :=
  match h.argument a with
  | .error e => pure (.error e)
  | .ok (.inl o) => pure (.ok o)
  | .ok (.inr v) => do return .ok (.ref (← Heap.reference v))

end Concolic.Host
