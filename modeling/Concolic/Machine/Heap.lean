import Concolic.Expr.Visit
import Concolic.Machine.Act

/-
# The symbolic heap

The heap knows which expression was last stored in each field, static field and array slot, and
which reference stands for each host object.

A stored expression is answered only while its concrete value agrees with the value that the host
sees.  Code that is not watched may have written the location in between; then the observed value
wins.

A value that the host reports becomes a number of the width that is asked for.  Ints take every
small integer type and truth values, longs only the wide ones.

References are numbered from one.  A reference is bound to a host object once the object is seen:
`new` gives one that is not bound yet, and `resolve` binds it on first use.
-/
namespace Concolic

/-! ## 1. Host values as numbers -/

namespace Value

def toInt : Value → Except Violation Int32
  | int v => .ok v
  | byte v => .ok v.toInt32
  | short v => .ok v.toInt32
  | char v => .ok (Int32.ofNat v.toNat)
  | octet v => .ok (Int32.ofNat v.toNat)
  | word v => .ok v.toInt32
  | bool b => .ok (if b then 1 else 0)
  | v => .error (.notIntLike v)

def toLong : Value → Except Violation Int64
  | long v => .ok v
  | word v => .ok v
  | int v => .ok v.toInt64
  | v => .error (.notLong v)

def toReal : Value → Except Violation Double
  | double v => .ok v
  | float v => .ok v
  | v => .error (.notFloating v)

end Value

/-! ## 2. Tables -/

/-- A finite map as a list of pairs. -/
abbrev Table (κ α : Type) := List (κ × α)

/-- What is stored under a key that is the same as `k`. -/
def Table.get? (same : κ → κ → Bool) (t : Table κ α) (k : κ) : Option α :=
  (t.find? fun p => same k p.1).map (·.2)

/-- The table with `a` stored under `k`. -/
def Table.insert (same : κ → κ → Bool) (k : κ) (a : α) : Table κ α → Table κ α
  | [] => [(k, a)]
  | p :: t => if same k p.1 then (k, a) :: t else p :: insert same k a t

/-! ## 3. Locations -/

/-- An instance field of the object with number `ref`, or a static field if `ref` is zero. -/
structure FieldKey where
  ref : Nat
  owner : String
  name : String
deriving DecidableEq, Repr

/-- A slot of the array with number `ref`. -/
structure ElemKey where
  ref : Nat
  index : Int
deriving DecidableEq, Repr

structure Heap where
  /-- The number of the next reference.  Numbers are words of 64 bits, of which a run does not use up
  all: fewer than `2 ^ 64` references are issued. -/
  nextId : Nat := 1
  objects : Table Value Ref := []
  /-- The numbers of the references that are bound. -/
  bound : List Nat := []
  fields : Table FieldKey Expr := []
  elems : Table ElemKey Expr := []
deriving Repr

namespace Heap

/-- The name of the field that holds the length of an array. -/
def lengthField : String := "length"

def field? (h : Heap) (k : FieldKey) : Option Expr :=
  h.fields.get? (fun a b => a = b) k

def elem? (h : Heap) (k : ElemKey) : Option Expr :=
  h.elems.get? (fun a b => a = b) k

/-- The reference that stands for a host object. -/
def object? (h : Heap) (v : Value) : Option Ref :=
  h.objects.get? Value.same v

def putField (h : Heap) (k : FieldKey) (e : Expr) : Heap :=
  { h with fields := h.fields.insert (fun a b => a = b) k e }

def putElem (h : Heap) (k : ElemKey) (e : Expr) : Heap :=
  { h with elems := h.elems.insert (fun a b => a = b) k e }

/-- The stored expression while it agrees with the observed one, else the observed one. -/
def current (stored : Option Expr) (observed : Expr) : Expr :=
  match stored with
  | some e => if e.agrees observed then e else observed
  | none => observed

def field (h : Heap) (k : FieldKey) (observed : Expr) : Expr :=
  current (h.field? k) observed

def elem (h : Heap) (k : ElemKey) (observed : Expr) : Expr :=
  current (h.elem? k) observed

/-- The location of an array's length. -/
def lengthKey (r : Ref) : FieldKey := ⟨r.id, "", lengthField⟩

/-- The length of an array that the host sees to have `n` elements. -/
def arrayLength (h : Heap) (r : Ref) (n : Int64) : IntExpr :=
  match h.field (lengthKey r) (.int (.const n)) with
  | .int e => e
  | _ => .const n

/-! ## 4. References -/

/-- A new reference that is not bound. -/
def new (type : String) : Act Heap Ref := do
  let h ← get
  set { h with nextId := h.nextId + 1 }
  return ⟨h.nextId, type⟩

/-- A new reference to an array of the given length. -/
def newArray (type : String) (length : IntExpr) : Act Heap Ref := do
  let r ← new type
  modify fun h => h.putField (lengthKey r) (.int length)
  return r

/-- Lets a reference stand for a host object from now on. -/
def bind (v : Value) (r : Ref) : Act Heap Unit := do
  Act.ensure (v ≠ .null) (.bindNull r)
  Act.ensure v.isComparable (.notComparable v)
  modify fun h =>
    { h with objects := h.objects.insert Value.same v r, bound := r.id :: h.bound }

/-- The reference for a host object; an object that was not seen before gets a new one. -/
def reference (v : Value) : Act Heap RefExpr := do
  if v = .null then return .null
  match (← get).object? v with
  | some r => return .object r
  | none =>
    let r ← new v.className
    bind v r
    return .object r

/-- The reference for a host object that `e` was expected to stand for.  A reference that is not
bound yet is bound to an object that was not seen before. -/
def resolve (e : RefExpr) (v : Value) : Act Heap RefExpr := do
  if v = .null then return .null
  match (← get).object? v with
  | some r => return .object r
  | none =>
    match e with
    | .null => reference v
    | .object r =>
      if (← get).bound.contains r.id then reference v
      else
        bind v r
        return .object r

/-! ## 5. Observed values -/

/-- The constant of width `w` for a value that the host reports. -/
def constant (w : Option Width) (v : Value) : Act Heap Expr :=
  match w with
  | some .bv32 => do return .int (.const (← Act.ofExcept v.toInt).toInt64)
  | some .bv64 => do return .int (.const (← Act.ofExcept v.toLong))
  | some .fp32 => do return .real (.const (← Act.ofExcept v.toReal).single)
  | some .fp64 => do return .real (.const (← Act.ofExcept v.toReal))
  | some .ref => do return .ref (← reference v)
  | none => Act.violated (.invalidWidth 0)

/-- The expression for a value that the host read from a location that holds `stored`.  A reference
stored there that is not bound yet is bound to the object that was read. -/
def observe (w : Option Width) (v : Value) (stored : Option Expr) : Act Heap Expr :=
  match w, stored with
  | some .ref, some (.ref e) => do return .ref (← resolve e v)
  | w, _ => constant w v

/-! ## 6. Text -/

def fieldLine (k : FieldKey) (e : Expr) : String :=
  (if k.ref = 0 then "" else "#" ++ Nat.repr k.ref ++ " ") ++
    k.owner ++ "." ++ k.name ++ " = " ++ e.render

def elemLine (k : ElemKey) (e : Expr) : String :=
  "#" ++ Nat.repr k.ref ++ "[" ++ Numeral.decimal k.index ++ "] = " ++ e.render

/-- Slots in the order of arrays, those of one array in the order of indices. -/
def elemLe (a b : ElemKey) : Bool :=
  a.ref < b.ref || (a.ref = b.ref && a.index ≤ b.index)

/-- One line for every field, in the order of the lines, then one for every slot. -/
def dump (h : Heap) : String :=
  let fields := Sorting.sortBy Sorting.textLe (h.fields.map fun (k, e) => fieldLine k e)
  let elems := (Sorting.sortBy (fun a b => elemLe a.1 b.1) h.elems).map fun (k, e) => elemLine k e
  String.join ((fields ++ elems).map (· ++ "\n"))

end Heap

end Concolic
