import Concolic.Host.Argument
import Concolic.Machine.Instruction

/-
# Replays

A replay runs the lines of a trace on a machine.  It owns the host, whose arrays change as the
watched program stores into them, and counts the faults of the program.

A line is read before anything changes: reading gives a step, and only the step has effects.
-/
namespace Concolic

/-- A machine, the host it asks and the faults so far. -/
structure Replay where
  machine : Machine
  host : Host
  faults : Nat

namespace Replay

/-! ## 1. Errors -/

/-- Why an instruction is refused or fails. -/
inductive Cause
  | numeral (e : Numeral.Error)
  | value (e : Host.ValueError)
  | dispatch (s : String)
  | dimensionCount (n : Int)
  | noBranch
  | callArity (n : Nat)
  | failure (f : Failure)
deriving DecidableEq, Repr

def Cause.message : Cause → String
  | numeral e => e.message
  | value e => e.message
  | dispatch s => "invalid dispatch " ++ Text.quote s ++ ", expected static or virtual"
  | dimensionCount n => "invalid dimension count: " ++ Numeral.decimal n
  | noBranch => "branch index required"
  | callArity n => "expected 2 or 3 arguments, got " ++ Nat.repr n
  | failure f => f.message

/-- Why a line is refused or fails. -/
inductive Error
  | unknown (name : String)
  | arity (name : String) (expected got : Nat)
  | inside (name : String) (cause : Cause)
deriving DecidableEq, Repr

def Error.message : Error → String
  | unknown n => "unknown instruction: " ++ n
  | arity n e g =>
    n ++ ": expected " ++ Nat.repr e ++ " arguments, got " ++ Nat.repr g
  | inside n c => n ++ ": " ++ c.message

/-! ## 2. Stores into host arrays -/

/-- A value as the operand stack holds it. -/
inductive StackValue
  | int (v : Int64)
  | real (v : Double)
  | object (v : Value)
deriving DecidableEq, Repr

/-- The value as an element of an array with the given type of components. -/
def StackValue.toElem (component : String) (v : StackValue) : Except Crash Value :=
  match component, v with
  | "Z", int v => .ok (.bool (v ≠ 0))
  | "B", int v => .ok (.byte v.toInt8)
  | "C", int v => .ok (.char v.toUInt64.toUInt16)
  | "S", int v => .ok (.short v.toInt16)
  | "I", int v => .ok (.int v.toInt32)
  | "F", real v => .ok (.float v.single)
  | "Z", _ | "B", _ | "C", _ | "S", _ | "I", _ | "F", _ => .error .elementKind
  | _, int v => .ok (.long v)
  | _, real v => .ok (.double v)
  | _, object v => .ok v

/-- What is to be stored in a host array after the machine has stored it. -/
structure HostStore where
  array : HostArray
  index : Int32
  value : StackValue
deriving DecidableEq, Repr

/-- The host after a store. -/
def HostStore.apply (s : HostStore) (h : Host) : Except Crash Host :=
  match s.value.toElem (Host.componentType s.array.type) with
  | .error c => .error c
  | .ok v => .ok (h.setElem s.array.name s.index.toInt.toNat v)

/-- An instruction, and the store that follows it if it does not fault. -/
structure Step where
  instruction : Instruction
  store : Option HostStore := none
deriving DecidableEq, Repr

/-! ## 3. Looking at the stack -/

/-- The operand `i` places below the top of the stack. -/
def peek (r : Replay) (i : Nat) : Except Cause Operand :=
  match ((Machine.onStack (Stack.peek i)) r.machine).1 with
  | .ok o => .ok o
  | .error f => .error (.failure f)

/-- The concrete value of an integer operand. -/
def peekInt (r : Replay) (i : Nat) : Except Cause Int64 := do
  match (← r.peek i).expr with
  | .int e => return e.concrete
  | _ => .error (.failure (.crash .notInteger))

/-- The concrete value of a real operand. -/
def peekReal (r : Replay) (i : Nat) : Except Cause Double := do
  match (← r.peek i).expr with
  | .real e => return e.concrete
  | _ => .error (.failure (.crash .notReal))

/-- How many operands the frame on top holds. -/
def stackSize (r : Replay) : Except Cause Nat :=
  match r.machine.frames with
  | [] => .error (.failure (.violation .noFrame))
  | f :: _ => .ok f.stack.length

end Replay

end Concolic
