import Concolic.Machine.Descriptor
import Concolic.Machine.State

/-
# Objects, fields and arrays

The host passes the objects and arrays that an instruction works on and the values that it reads.
An access through null, a negative length and an index out of bounds are faults: the operands are
popped and nothing is pushed.  What decides between fault and success is told to the collector,
null apart.
-/
namespace Concolic.Machine

/-! ## 1. Checks -/

/-- Tells of an access through null. -/
def nullAccess : Act Machine Bool := do
  fault .nullDereference
  return true

/-- The reference for a host object. -/
def resolve (e : RefExpr) (v : Value) : Act Machine RefExpr := onHeap (Heap.resolve e v)

/-- Reports the sign of the length of a new array and tells whether it is negative. -/
def negativeLength (length : IntExpr) (n : Int32) : Act Machine Bool := do
  support (.relate length (if n < 0 then .lt else .ge) (.const 0))
  if n < 0 then fault (.negativeSize n)
  return n < 0

/-- Reports the sign of an index and tells whether it is negative. -/
def negativeIndex (index : IntExpr) (n : Int32) : Act Machine Bool := do
  decideAccess (.relate index (if n < 0 then .lt else .ge) (.const 0)) (n < 0)
  if n < 0 then fault (.negativeIndex n)
  return n < 0

/-- Reports whether an index is below the length and tells whether it is not. -/
def indexTooBig (index : IntExpr) (n : Int32) (length : IntExpr) : Act Machine Bool := do
  let tooBig : Bool := length.concrete ≤ n.toInt64
  decideAccess (.relate index (if tooBig then .ge else .lt) length) tooBig
  if tooBig then fault (.indexTooBig n)
  return tooBig

/-! ## 2. New objects -/

/-- Pushes a reference to a new object of a class. -/
def newObject (className : String) : Act Machine Unit := do
  prepare className
  discard topFrame
  push (.ref (.object (← onHeap (Heap.new className))))

/-- Pushes a reference to a new array; the host saw the length `n`. -/
def newArrayOf (type : String) (n : Int32) : Act Machine Bool := do
  let length ← onStack Stack.popInt
  if ← negativeLength length n then return true
  push (.ref (.object (← onHeap (Heap.newArray type length))))
  return false

/-- Pushes a reference to a new array with the given component type. -/
def newArray (n : Int32) (component : String) : Act Machine Bool := do
  match Descriptor.arrayType component with
  | .error e => Act.fail e
  | .ok type => newArrayOf type n

/-- Pops as many lengths as there are dimensions; the first is that of the outermost one. -/
def popLengths : Nat → Act Stack (List IntExpr)
  | 0 => pure []
  | n + 1 => do
    let last ← Stack.popInt
    return (← popLengths n) ++ [last]

/-- Checks the lengths from the outermost; tells whether one is negative. -/
def anyNegative : List (IntExpr × Int32) → Act Machine Bool
  | [] => pure false
  | (e, n) :: rest => do
    if ← negativeLength e n then return true
    anyNegative rest

/-- Pushes a reference to a new array of several dimensions; the host saw the lengths `dims`. -/
def newMultiArray (type : String) (dims : List Int32) : Act Machine Bool := do
  Act.ensure (!dims.isEmpty) .noDimensions
  let lengths ← onStack (popLengths dims.length)
  if ← anyNegative (lengths.zip dims) then return true
  match lengths with
  | [] => Act.violated .noDimensions
  | outer :: _ =>
    push (.ref (.object (← onHeap (Heap.newArray type outer))))
    return false

/-! ## 3. Arrays -/

/-- The reference for a host array, which must be of an array type. -/
def resolveArray (e : RefExpr) (a : HostArray) : Act Machine Ref := do
  match ← resolve e a.toValue with
  | .object r =>
    Act.ensure r.isArray (.notArray r)
    return r
  | .null => Act.violated (.unresolved a.toValue)

/-- The number of elements as a word. -/
def lengthWord (a : HostArray) : Int64 := Int64.ofNat a.elems.length

/-- Pushes the length of an array. -/
def arrayLength (a : Option HostArray) : Act Machine Bool := do
  let e ← onStack Stack.popRef
  match a with
  | none => nullAccess
  | some a =>
    let r ← resolveArray e a
    push (.bv32 ((← get).heap.arrayLength r (lengthWord a)))
    return false

/-- The checks of an access; answers with the array if they pass. -/
def checkAccess (e : RefExpr) (a : Option HostArray) (index : IntExpr) (n : Int32) :
    Act Machine (Option (Ref × HostArray)) := do
  match a with
  | none =>
    discard nullAccess
    return none
  | some a =>
    if ← negativeIndex index n then return none
    let r ← resolveArray e a
    if ← indexTooBig index n ((← get).heap.arrayLength r (lengthWord a)) then return none
    return some (r, a)

/-- The slot of an array with index `n`. -/
def slot (r : Ref) (n : Int32) : ElemKey := ⟨r.id, n.toInt⟩

/-- The element that the host reads. -/
def element (a : HostArray) (n : Int32) : Act Machine Value :=
  match a.elems[n.toInt.toNat]? with
  | some v => pure v
  | none => Act.fail (.crash .elementIndex)

/-- Pushes an element of width `w`; the host saw the index `n`. -/
def arrayLoad (w : Width) (a : Option HostArray) (n : Int32) : Act Machine Bool := do
  let index ← onStack Stack.popInt
  let e ← onStack Stack.popRef
  match ← checkAccess e a index n with
  | none => return true
  | some (r, a) =>
    let v ← element a n
    let stored := (← get).heap.elem? (slot r n)
    let observed ← onHeap (Heap.observe (some w) v stored)
    push (← Act.ofExcept (Operand.ofExpr w ((← get).heap.elem (slot r n) observed)))
    return false

/-- Stores an operand of width `w` in an element; the host saw the index `n`. -/
def arrayStore (w : Width) (a : Option HostArray) (n : Int32) : Act Machine Bool := do
  let o ← onStack Stack.pop
  Act.ensure (o.width = w) (.arrayStoreWidth w o.width)
  let index ← onStack Stack.popInt
  let e ← onStack Stack.popRef
  match ← checkAccess e a index n with
  | none => return true
  | some (r, _) =>
    modify fun m => { m with heap := m.heap.putElem (slot r n) o.expr }
    return false

/-! ## 4. Fields -/

/-- The width of a field with the given descriptor. -/
def fieldWidth (desc : String) : Act Machine (Option Width) :=
  Act.ofExcept (Descriptor.width (Text.bytes desc))

/-- The operand for a field that the host saw to hold `v`. -/
def fieldOperand (k : FieldKey) (w : Option Width) (v : Value) : Act Machine Operand := do
  let observed ← onHeap (Heap.observe w v ((← get).heap.field? k))
  match w with
  | some w => Act.ofExcept (Operand.ofExpr w ((← get).heap.field k observed))
  | none => Act.violated (.invalidWidth 0)

/-- Pushes a field of `receiver`, which the host saw to hold `v`. -/
def getField (receiver : Value) (owner name desc : String) (v : Value) : Act Machine Bool := do
  let e ← onStack Stack.popRef
  if receiver = .null then nullAccess
  else
    match ← resolve e receiver with
    | .null => Act.violated (.unresolved receiver)
    | .object r =>
      let w ← fieldWidth desc
      push (← fieldOperand ⟨r.id, owner, name⟩ w v)
      return false

/-- Stores the top operand in a field of `receiver`. -/
def putField (receiver : Value) (owner name desc : String) : Act Machine Bool := do
  let o ← onStack Stack.pop
  let w ← fieldWidth desc
  Act.ensure (some o.width = w) (.putFieldWidth owner name w o.width)
  let e ← onStack Stack.popRef
  if receiver = .null then nullAccess
  else
    match ← resolve e receiver with
    | .null => Act.violated (.unresolved receiver)
    | .object r =>
      modify fun m => { m with heap := m.heap.putField ⟨r.id, owner, name⟩ o.expr }
      return false

/-- Pushes a static field, which the host saw to hold `v`, after its class is prepared. -/
def getStatic (owner name desc : String) (v : Value) : Act Machine Unit := do
  prepare owner
  let w ← fieldWidth desc
  let o ← fieldOperand ⟨0, owner, name⟩ w v
  push o

/-- Stores the top operand in a static field after its class is prepared. -/
def putStatic (owner name desc : String) : Act Machine Unit := do
  prepare owner
  let o ← onStack Stack.pop
  let w ← fieldWidth desc
  Act.ensure (some o.width = w) (.putStaticWidth owner name w o.width)
  modify fun m => { m with heap := m.heap.putField ⟨0, owner, name⟩ o.expr }

/-! ## 5. Types and locks -/

/-- Leaves the reference on top where it is; a cast that fails is the host's to report. -/
def checkCast (type : String) : Act Machine Unit := do
  let o ← onStack (Stack.peek 0)
  Act.ensure (o.width = .ref) (.castWidth type o.width)

/-- Replaces the reference on top by the outcome of a type test.  Null is no instance. -/
def instanceOf (v : Value) (type : String) : Act Machine Unit := do
  discard (onStack Stack.popRef)
  if v = .null then push (.bv32 (.ofBool false))
  else
    match (← get).classes with
    | none => Act.fail .noResolver
    | some r =>
      match r.isInstance v type with
      | .error e => Act.fail (.instanceOf type e)
      | .ok b => push (.bv32 (.ofBool b))
      | .endless => Act.fail .endless

/-- Pops the object of a lock. -/
def monitor (v : Value) : Act Machine Bool := do
  discard (onStack Stack.popRef)
  if v = .null then nullAccess else return false

end Concolic.Machine
