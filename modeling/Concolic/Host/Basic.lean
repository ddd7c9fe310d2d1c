import Concolic.Machine.State
import Concolic.Numeral.Real
import Concolic.Trace.Basic

/-
# The host of a trace

The host holds the objects and arrays of a trace under their names and knows the superclasses of its
classes.  It reads texts as values of a given type.
-/
namespace Concolic

/-- The objects and arrays of a trace. -/
structure Host where
  /-- The names of the objects and their classes. -/
  objects : List (String × String)
  arrays : List HostArray
  /-- The superclasses of the classes that do not extend the root. -/
  classes : List (String × String)
deriving DecidableEq, Repr

namespace Host

/-! ## 1. Objects by name -/

/-- Why a text stands for no value. -/
inductive ValueError
  | numeral (e : Numeral.Error)
  /-- A quoted text that is not well formed. -/
  | literal
  | unknownObject (name : String)
  | notArray (name : String)
  | descriptor (desc : String)
deriving DecidableEq, Repr

def ValueError.message : ValueError → String
  | numeral e => e.message
  | literal => Numeral.Reason.malformed.message
  | unknownObject n => "unknown object: " ++ Text.quote n
  | notArray n => "not an array: " ++ Text.quote n
  | descriptor d => "invalid descriptor: " ++ Text.quote d

def array? (h : Host) (name : String) : Option HostArray :=
  h.arrays.find? fun a => a.name = name

/-- What is found under a name, as a value. -/
def value? (h : Host) (name : String) : Option Value :=
  match h.array? name with
  | some a => some a.toValue
  | none => (h.objects.lookup name).map fun c => .object name c

/-- Whether a name stands for null. -/
def isNull (name : String) : Bool := name = "" || name = "null"

/-- The host object with a name. -/
def lookup (h : Host) (name : String) : Except ValueError Value :=
  if isNull name then .ok .null
  else
    match h.value? name with
    | some v => .ok v
    | none => .error (.unknownObject name)

/-- The host array with a name. -/
def array (h : Host) (name : String) : Except ValueError (Option HostArray) :=
  if isNull name then .ok none
  else
    match h.array? name, h.value? name with
    | some a, _ => .ok (some a)
    | none, some _ => .error (.notArray name)
    | none, none => .error (.unknownObject name)

/-- The host after element `i` of an array is set; nothing changes if there is no such element. -/
def setElem (h : Host) (name : String) (i : Nat) (v : Value) : Host :=
  { h with arrays := h.arrays.map fun a =>
      if a.name = name then { a with elems := a.elems.set i v } else a }

/-! ## 2. Texts as values -/

/-- A reading of a number. -/
def numeral (r : Except Numeral.Error α) (f : α → Value) : Except ValueError Value :=
  match r with
  | .ok a => .ok (f a)
  | .error e => .error (.numeral e)

/-- Whether a type descriptor is that of a reference. -/
def isReference (desc : String) : Bool :=
  match desc.toList with
  | 'L' :: _ | '[' :: _ => true
  | _ => false

/-- A text in quotes, or the name of an object. -/
def readText (h : Host) (s : String) : Except ValueError Value :=
  if s.toList.head? = some '"' then
    match Text.unquote s with
    | some bs => .ok (.text bs)
    | none => .error .literal
  else h.lookup s

/-- Reads a text as a value of the type with the given descriptor. -/
def read (h : Host) (desc s : String) : Except ValueError Value :=
  match desc with
  | "Z" => numeral (Numeral.parseBool s) .bool
  | "B" => numeral (Numeral.parseInteger 8 s) fun v => .byte (Int8.ofInt v)
  | "C" => numeral (Numeral.parseNatural 16 s) fun v => .char (UInt16.ofNat v)
  | "S" => numeral (Numeral.parseInteger 16 s) fun v => .short (Int16.ofInt v)
  | "I" => numeral (Numeral.parseInteger 32 s) fun v => .int (Int32.ofInt v)
  | "J" => numeral (Numeral.parseInteger 64 s) fun v => .long (Int64.ofInt v)
  | "F" => numeral (Numeral.parseReal .single s) .float
  | "D" => numeral (Numeral.parseReal .double s) .double
  | "Ljava/lang/String;" => h.readText s
  | _ => if isReference desc then h.lookup s else .error (.descriptor desc)

/-! ## 3. Classes -/

/-- The name of the superclass, empty for the root.  A class that is not listed extends the root. -/
def superclass (h : Host) (name : String) : String :=
  if name = Value.rootClass then ""
  else (h.classes.lookup name).getD Value.rootClass

/-- A chain of superclasses that is longer does not end: beside the listed classes one that ends has
the root and at most one class that is not listed. -/
def depth (h : Host) : Nat := h.classes.length + 2

/-- Whether `type` is `name` or one of its superclasses, if this can be told from `fuel` of them. -/
def extendsWithin (h : Host) (type : String) : Nat → String → Option Bool
  | 0, _ => none
  | fuel + 1, name =>
    if name = "" then some false
    else if name = type then some true
    else h.extendsWithin type fuel (h.superclass name)

/-- Whether a value is an instance of a type.  Everything is an instance of the root; arrays are
beyond that only instances of their own type. -/
def isInstance (h : Host) (v : Value) (type : String) : Reply Refusal Bool :=
  if type = Value.rootClass then .ok true
  else
    match v with
    | .array _ t => .ok (t = type)
    | .text _ => .ok (type = Value.textClass)
    | .object _ c => .ofOption (h.extendsWithin type (h.depth + 1) c)
    | v => .error (.unknownObject v)

/-- The host as a resolver of classes. -/
def resolver (h : Host) : ClassResolver where
  superclass name := .ok (h.superclass name)
  isInstance := h.isInstance
  depth := h.depth

/-- A resolver that knows no superclass of a class that is not listed. -/
def closedResolver (h : Host) : ClassResolver where
  superclass name :=
    if name = Value.rootClass || (h.classes.lookup name).isSome then .ok (h.superclass name)
    else .error (.unknownClass name)
  isInstance := h.isInstance
  depth := h.depth

/-! ## 4. From a trace -/

/-- Why a trace describes no host. -/
inductive Error
  | noClass (name : String)
  | arrayType (name type : String)
  | nameTaken (name : String)
  | element (name : String) (i : Nat) (cause : ValueError)
deriving DecidableEq, Repr

def Error.message : Error → String
  | noClass n => "object " ++ Text.quote n ++ ": class required"
  | arrayType n t => "array " ++ Text.quote n ++ ": invalid type " ++ Text.quote t
  | nameTaken n => "array " ++ Text.quote n ++ ": name already used by an object"
  | element n i e => "array " ++ Text.quote n ++ "[" ++ Nat.repr i ++ "]: " ++ e.message

/-- Reads the elements of an array, counted from `i`. -/
def readElems (h : Host) (name component : String) (i : Nat) :
    List String → Except Error (List Value)
  | [] => .ok []
  | s :: rest =>
    match h.read component s with
    | .error e => .error (.element name i e)
    | .ok v => do return v :: (← readElems h name component (i + 1) rest)

/-- The type of an array's elements. -/
def componentType (type : String) : String := String.ofList (type.toList.drop 1)

/-- Checks the objects of a trace. -/
def checkObjects : List (String × String) → Except Error Unit
  | [] => .ok ()
  | (name, cls) :: rest => if cls = "" then .error (.noClass name) else checkObjects rest

/-- Checks the types and names of arrays. -/
def checkArrays (objects : List (String × String)) :
    List (String × Trace.ArrayText) → Except Error Unit
  | [] => .ok ()
  | (name, a) :: rest =>
    if a.type.toList.head? ≠ some '[' then .error (.arrayType name a.type)
    else if (objects.lookup name).isSome then .error (.nameTaken name)
    else checkArrays objects rest

/-- Fills the arrays; elements may name any of them. -/
def fillArrays (h : Host) : List (String × Trace.ArrayText) → Except Error (List HostArray)
  | [] => .ok []
  | (name, a) :: rest => do
    let elems ← h.readElems name (componentType a.type) 0 a.elems
    return ⟨name, a.type, elems⟩ :: (← fillArrays h rest)

/-- The host that a trace describes. -/
def ofTrace (t : Trace) : Except Error Host := do
  checkObjects t.objects
  checkArrays t.objects t.arrays
  let empty : Host := ⟨t.objects, t.arrays.map fun (n, a) => ⟨n, a.type, []⟩, t.classes⟩
  return { empty with arrays := ← empty.fillArrays t.arrays }

end Host

end Concolic
