import Concolic.Machine.Stack

/-
# Frames

A frame holds the operand stack and the locals of one invocation of a method.

The locals are a table of slots, each empty or holding an operand.  A long or a double also claims
the slot after its own, which stays empty; storing into that slot destroys it.  A store of a long or
a double into the last slot is refused only after the slot is written.
-/
namespace Concolic

/-! ## 1. Local variables -/

structure Locals where
  slots : List (Option Operand)
deriving DecidableEq, Repr

namespace Locals

/-- More slots than any table can have. -/
def sizeLimit : Nat := Nat.pow 2 44

/-- A table of `n` empty slots. -/
def empty (n : Int) : Except Failure Locals :=
  if n < 0 then .error (.violation (.negativeSize n))
  else if sizeLimit < n.toNat then .error (.crash .tableSize)
  else .ok ⟨List.replicate n.toNat none⟩

def size (t : Locals) : Nat := t.slots.length

/-- Whether `i` is the number of a slot. -/
def inRange (t : Locals) (i : Int) : Bool := 0 ≤ i && i.toNat < t.size

/-- The operand of slot `i`. -/
def read (i : Int) : Act Locals Operand := do
  let t ← get
  Act.ensure (t.inRange i) (.localRange i t.size)
  match t.slots[i.toNat]? with
  | some (some o) => return o
  | _ => Act.violated (.localEmpty i)

/-- Whether slot `i` holds an operand of two words. -/
def isDouble (t : Locals) (i : Nat) : Bool :=
  match t.slots[i]? with
  | some (some o) => o.category = 2
  | _ => false

/-- The table with another content of slot `i`. -/
def put (t : Locals) (i : Nat) (o : Option Operand) : Locals := ⟨t.slots.set i o⟩

/-- The table after what would lose its upper half to slot `i` is gone and `o` is in slot `i`. -/
def place (t : Locals) (i : Nat) (o : Operand) : Locals :=
  let t := if 0 < i && t.isDouble (i - 1) then t.put (i - 1) none else t
  t.put i (some o)

/-- Stores an operand in slot `i`. -/
def write (i : Int) (o : Operand) : Act Locals Unit := do
  let t ← get
  Act.ensure (t.inRange i) (.localRange i t.size)
  set (t.place i.toNat o)
  if o.category = 2 then
    Act.ensure (i.toNat + 1 < t.size) (.localOverflow i t.size)
    modify fun t => t.put (i.toNat + 1) none

/-- Stores an operand that must be there. -/
def write? (i : Int) : Option Operand → Act Locals Unit
  | some o => write i o
  | none => Act.violated (.localMissing i)

/-- The operand of slot `i`, which must have width `w`. -/
def readAs (w : Width) (i : Int) : Act Locals Operand := do
  let o ← read i
  Act.ensure (o.width = w) (.localWidth i w o.width)
  return o

/-- The int of slot `i`. -/
def readInt (i : Int) : Act Locals IntExpr := do
  match ← read i with
  | .bv32 e => return e
  | o => Act.violated (.localWidth i .bv32 o.width)

/-- The occupied slots with their numbers, counted from `n`. -/
def occupiedFrom (n : Nat) : List (Option Operand) → List (Nat × Operand)
  | [] => []
  | some o :: rest => (n, o) :: occupiedFrom (n + 1) rest
  | none :: rest => occupiedFrom (n + 1) rest

/-- The occupied slots between braces. -/
def render (t : Locals) : String :=
  "\x7b" ++ " ".intercalate ((occupiedFrom 0 t.slots).map fun (i, o) =>
    Nat.repr i ++ "=" ++ o.render) ++ "\x7d"

end Locals

/-! ## 2. Frames -/

/-- A method, by its class, its name and its descriptor. -/
structure MethodRef where
  owner : String
  name : String
  desc : String
deriving DecidableEq, Repr

def MethodRef.render (m : MethodRef) : String :=
  m.owner ++ "." ++ m.name ++ m.desc

structure Frame where
  method : MethodRef
  stack : Stack
  locals : Locals
  /-- Set for the frames beneath the watched method, which belong to no method. -/
  fake : Bool
deriving DecidableEq, Repr

namespace Frame

/-- A frame of a method with an empty stack and `size` empty locals. -/
def enter (method : MethodRef) (size : Int) : Except Failure Frame :=
  (Locals.empty size).map fun locals => ⟨method, [], locals, false⟩

/-- A frame that belongs to no method. -/
def placeholder (name : String) (stack : Stack) : Frame :=
  ⟨⟨"", name, ""⟩, stack, ⟨[]⟩, true⟩

def render (f : Frame) : String :=
  f.method.render ++ " stack=" ++ f.stack.render ++ " locals=" ++ f.locals.render

end Frame

end Concolic
