import Concolic.Ieee.Arithmetic
import Concolic.Numeral.Integer
import Concolic.Text.Utf8

/-
# Widths and values

What a slot of the operand stack or of the locals can hold has one of five widths: an int, a long,
a float, a double or a reference.  Longs and doubles take two words, all others one.

The host program shows the machine the values it computes with: numbers of fixed width, texts,
objects and arrays.  Objects and arrays are identical if they have the same name; all other values
are identical if they have the same type and are equal, so that not-a-number is identical to
nothing.
-/
namespace Concolic

/-! ## 1. Widths -/

inductive Width
  | bv32
  | bv64
  | fp32
  | fp64
  | ref
deriving DecidableEq, Repr

namespace Width

/-- The number that the width is known by. -/
def code : Width → Int
  | bv32 => 1
  | bv64 => 2
  | fp32 => 3
  | fp64 => 4
  | ref => 5

/-- The width with a given number. -/
def ofCode? : Int → Option Width
  | 1 => some bv32
  | 2 => some bv64
  | 3 => some fp32
  | 4 => some fp64
  | 5 => some ref
  | _ => none

def name : Width → String
  | bv32 => "bv32"
  | bv64 => "bv64"
  | fp32 => "fp32"
  | fp64 => "fp64"
  | ref => "ref"

/-- The name of the width with number `n`, or the number itself. -/
def codeName (n : Int) : String :=
  match ofCode? n with
  | some w => w.name
  | none => "Width<" ++ Numeral.decimal n ++ ">"

/-- The name of a result width, nothing having the number zero. -/
def resultName : Option Width → String
  | some w => w.name
  | none => codeName 0

/-- How many words a value takes. -/
def category : Width → Nat
  | bv64 | fp64 => 2
  | _ => 1

/-- How many words a value of the width with number `n` takes. -/
def codeCategory (n : Int) : Nat :=
  match ofCode? n with
  | some w => w.category
  | none => 1

end Width

/-! ## 2. Values of the host -/

/-- A value as the host program holds it. -/
inductive Value
  | null
  | bool (b : Bool)
  | byte (v : Int8)
  | short (v : Int16)
  | char (v : UInt16)
  | int (v : Int32)
  | long (v : Int64)
  /-- A single, given as the double of the same value. -/
  | float (v : Double)
  | double (v : Double)
  | text (bytes : List UInt8)
  | object (name className : String)
  | array (name type : String)
  /-- A number as wide as the host's own words. -/
  | word (v : Int64)
  /-- A byte without sign. -/
  | octet (v : UInt8)
  /-- An object that tells no class. -/
  | token (name : String)
  /-- A sequence that cannot be compared with itself and so has no identity. -/
  | sequence
deriving DecidableEq, Repr

/-- A host array, given by its name, its type and what it holds. -/
structure HostArray where
  name : String
  type : String
  elems : List Value
deriving DecidableEq, Repr

namespace Value

/-- The name of the value's type, as messages give it. -/
def typeName : Value → String
  | null => "<nil>"
  | bool _ => "bool"
  | byte _ => "int8"
  | short _ => "int16"
  | char _ => "uint16"
  | int _ => "int32"
  | long _ => "int64"
  | float _ => "float32"
  | double _ => "float64"
  | text _ => "string"
  | object .. => "*main.object"
  | array .. => "*main.array"
  | word _ => "int"
  | octet _ => "uint8"
  | token _ => "*main.plainObject"
  | sequence => "[]int"

/-- The root of the class hierarchy. -/
def rootClass : String := "java/lang/Object"

/-- The class of texts. -/
def textClass : String := "java/lang/String"

/-- The class or array type of a value that is used as an object. -/
def className : Value → String
  | object _ c => c
  | array _ t => t
  | text _ => textClass
  | _ => rootClass

/-- Whether two values are the same object. -/
def same : Value → Value → Bool
  | float a, float b => a.sameValue b
  | double a, double b => a.sameValue b
  | sequence, _ => false
  | a, b => a = b

/-- Whether the value has an identity. -/
def isComparable : Value → Bool
  | sequence => false
  | _ => true

end Value

/-- The array as a value. -/
def HostArray.toValue (a : HostArray) : Value := .array a.name a.type

end Concolic
