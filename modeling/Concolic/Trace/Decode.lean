import Concolic.Numeral.Real
import Concolic.Trace.Basic
import Concolic.Yaml.Document
import Concolic.Yaml.Mapping

/-
# Traces as documents

A trace is written as a document whose keys are the parts of the trace.  Keys that are not known,
keys that occur twice and values of the wrong kind are refused.

What stands for null counts as not given: a part keeps its default, an item of a sequence is left
out, and an entry of a table gets the default value.  A text takes the source of any scalar, so that
numbers keep their spelling.
-/
namespace Concolic.Trace

/-- Why a document is no trace. -/
inductive DecodeError
  | document (e : Yaml.Error)
  | mapping (e : Yaml.KeyError)
  | unknownKey (key : String)
  /-- A value is not of the kind that its place demands. -/
  | wrongKind
deriving DecidableEq, Repr

abbrev Decoder (α : Type) := Except DecodeError α

/-! ## 1. Scalars -/

def decodeText : Yaml.Node → Decoder (Option String)
  | .scalar s => .ok (if s.isNull then none else some s.text)
  | _ => .error .wrongKind

/-- The truth value that a text stood for in an older standard. -/
def truthWord (s : String) : Option Bool :=
  if s ∈ ["y", "Y", "yes", "Yes", "YES", "on", "On", "ON"] then some true
  else if s ∈ ["n", "N", "no", "No", "NO", "off", "Off", "OFF"] then some false
  else none

def decodeBool : Yaml.Node → Decoder (Option Bool)
  | .scalar s =>
    match s.meaning with
    | .null => .ok none
    | .truth b => .ok (some b)
    | .text =>
      match truthWord s.text with
      | some b => .ok (some b)
      | none => .error .wrongKind
    | _ => .error .wrongKind
  | _ => .error .wrongKind

/-- The integer below a real, if it is no greater than the greatest word; what is too small becomes
the least word. -/
def integerPart (x : Double) : Option Int :=
  let bound := -Int64.minValue.toInt
  let n := x.truncate (-2 * bound) (2 * bound)
  if x.isNaN || bound < n then none
  else if n < -bound || bound ≤ n then some (-bound)
  else some n

/-- A number is an integer that fits a word; a real stands for its integer part. -/
def decodeNumber : Yaml.Node → Decoder (Option Int)
  | .scalar s =>
    match s.meaning with
    | .null => .ok none
    | .integer n => if n ≤ Int64.maxValue.toInt then .ok (some n) else .error .wrongKind
    | .real x =>
      match integerPart x with
      | some n => .ok (some n)
      | none => .error .wrongKind
    | _ => .error .wrongKind
  | _ => .error .wrongKind

/-! ## 2. Sequences and tables -/

/-- The items of a sequence that are not null. -/
def decodeItems (f : Yaml.Node → Decoder α) : List Yaml.Node → Decoder (List α)
  | [] => .ok []
  | n :: ns =>
    if n.isNull then decodeItems f ns
    else do
      let a ← f n
      return a :: (← decodeItems f ns)

def decodeSequence (f : Yaml.Node → Decoder α) (n : Yaml.Node) : Decoder (List α) :=
  match n with
  | .sequence ns => decodeItems f ns
  | n => if n.isNull then .ok [] else .error .wrongKind

/-- The entries of a mapping by name. -/
def entriesOf (n : Yaml.Node) : Decoder Yaml.Entries :=
  match n with
  | .mapping es => (Yaml.entriesOf es).mapError .mapping
  | n => if n.isNull then .ok [] else .error .wrongKind

/-- A table with a value for a name.  A value that was not given replaces none. -/
def setEntry (t : List (String × α)) (name : String) (given : Bool) (a : α) : List (String × α) :=
  if t.any (·.1 = name) then
    if given then t.map fun e => if e.1 = name then (name, a) else e else t
  else t ++ [(name, a)]

/-- Decodes the entries of a table one after the other. -/
def decodeEntries (f : Yaml.Node → Decoder α) (t : List (String × α)) :
    Yaml.Entries → Decoder (List (String × α))
  | [] => .ok t
  | (k, n) :: rest => do
    let a ← f n
    decodeEntries f (setEntry t k (!n.isNull) a) rest

def decodeTable (f : Yaml.Node → Decoder α) (n : Yaml.Node) : Decoder (List (String × α)) := do
  decodeEntries f [] (← entriesOf n)

/-- Sets the parts of a record in the order of their entries. -/
def decodeParts (set : α → String → Yaml.Node → Decoder α) (a : α) :
    List (String × Yaml.Node) → Decoder α
  | [] => .ok a
  | (k, n) :: rest => do decodeParts set (← set a k n) rest

def decodeRecord (set : α → String → Yaml.Node → Decoder α) (a : α) (n : Yaml.Node) :
    Decoder α := do
  decodeParts set a (← entriesOf n)

/-! ## 3. The parts of a trace -/

/-- A text, or the one before if none is given. -/
def textOr (s : String) (n : Yaml.Node) : Decoder String := do
  return (← decodeText n).getD s

def setArg (a : Arg) (key : String) (n : Yaml.Node) : Decoder Arg := do
  match key with
  | "type" => return { a with type := ← textOr a.type n }
  | "name" => return { a with name := ← textOr a.name n }
  | "value" => return { a with value := ← textOr a.value n }
  | "min" => return { a with min := ← textOr a.min n }
  | "max" => return { a with max := ← textOr a.max n }
  | "ref" => return { a with ref := ← textOr a.ref n }
  | key => .error (.unknownKey key)

def setClass (c : String) (key : String) (n : Yaml.Node) : Decoder String :=
  if key = "class" then textOr c n else .error (.unknownKey key)

def setArray (a : ArrayText) (key : String) (n : Yaml.Node) : Decoder ArrayText := do
  match key with
  | "type" => return { a with type := ← textOr a.type n }
  | "elems" => return { a with elems := ← decodeSequence (textOr "") n }
  | key => .error (.unknownKey key)

def setMethod (t : Trace) (key : String) (n : Yaml.Node) : Decoder Trace := do
  match key with
  | "owner" => return { t with method := { t.method with owner := ← textOr t.method.owner n } }
  | "name" => return { t with method := { t.method with name := ← textOr t.method.name n } }
  | "desc" => return { t with method := { t.method with desc := ← textOr t.method.desc n } }
  | "static" => return { t with static := (← decodeBool n).getD t.static }
  | "maxLocals" => return { t with maxLocals := (← decodeNumber n).getD t.maxLocals }
  | key => .error (.unknownKey key)

def setTrace (t : Trace) (key : String) (n : Yaml.Node) : Decoder Trace := do
  match key with
  | "method" => decodeRecord setMethod t n
  | "args" => return { t with args := ← decodeSequence (decodeRecord setArg {}) n }
  | "classes" => return { t with classes := ← decodeTable (textOr "") n }
  | "objects" => return { t with objects := ← decodeTable (decodeRecord setClass "") n }
  | "arrays" => return { t with arrays := ← decodeTable (decodeRecord setArray {}) n }
  | "instructions" => return { t with instructions := ← decodeSequence (textOr "") n }
  | key => .error (.unknownKey key)

/-! ## 4. Reading -/

/-- Why a text is no trace. -/
inductive ReadError
  | decode (e : DecodeError)
  | noMethod
deriving DecidableEq, Repr

def DecodeError.message : DecodeError → String
  | document .empty => "EOF"
  | document .malformed => "malformed document"
  | unknownKey k => "unknown key " ++ k
  | mapping (.repeated k) => "repeated key " ++ k
  | mapping .notText => "key that is no text"
  | mapping .noMapping => "merge of what is no mapping"
  | wrongKind => "value of the wrong kind"

def ReadError.message : ReadError → String
  | decode e => "decode trace: " ++ e.message
  | noMethod => "trace method requires owner, name & desc"

/-- The trace that a text stands for. -/
def decode (s : String) : Decoder Trace :=
  match Yaml.parse s with
  | .error e => .error (.document e)
  | .ok n => decodeRecord setTrace {} n

/-- Reads a trace, which must name its method. -/
def read (s : String) : Except ReadError Trace :=
  match decode s with
  | .error e => .error (.decode e)
  | .ok t =>
    if t.method.owner = "" ∨ t.method.name = "" ∨ t.method.desc = "" then .error .noMethod
    else .ok t

end Concolic.Trace
