import Concolic.Machine.Descriptor
import Concolic.Machine.State

/-
# Calls

A call of a watched method moves its arguments from the caller's stack to the locals of a new frame.
A call of a method that is not watched is replaced by its result.  A return moves the result
to the caller, and an exception drops the frames above its handler.
-/
namespace Concolic.Machine

/-- The widths of the arguments and of the result of a method. -/
def methodWidths (desc : String) : Act σ (List (Option Width) × Option Width) :=
  Act.ofExcept (Descriptor.method (Text.bytes desc))

/-- Pops the arguments whose widths are `ws`, given from the last; answers with them from the
first. -/
def popArgs (desc : String) : List (Option Width) → Act Stack (List Operand)
  | [] => pure []
  | w :: ws => do
    let o ← Stack.pop
    Act.ensure (some o.width = w) (.argumentWidth ws.length desc w o.width)
    return (← popArgs desc ws) ++ [o]

/-- Pops the arguments of a method. -/
def popArguments (desc : String) : Act Machine (List Operand) := do
  let (ws, _) ← methodWidths desc
  onStack (popArgs desc ws.reverse)

/-- Stores the arguments in the locals from slot `i` on. -/
def writeArguments (i : Nat) : List Operand → Act Locals Unit
  | [] => pure ()
  | o :: os => do
    Locals.write i o
    writeArguments (i + o.category) os

/-- Runs an action on the locals of a frame that is not yet pushed. -/
def fill (f : Frame) (a : Act Locals Unit) : Act Machine Frame :=
  match a f.locals with
  | (.ok (), t) => pure { f with locals := t }
  | (.error e, _) => Act.fail e

/-- Enters a method; the receiver, unless the method is static, and the arguments move from the
caller's stack to the first locals. -/
def enter (method : MethodRef) (static : Bool) (size : Int) : Act Machine Unit := do
  discard topFrame
  let args ← popArguments method.desc
  match Frame.enter method size with
  | .error e => Act.fail e
  | .ok f =>
    if static then
      pushFrame (← fill f (writeArguments 0 args))
    else
      let receiver ← onStack Stack.popRef
      let f ← fill f (Locals.write 0 (.ref receiver))
      pushFrame (← fill f (writeArguments 1 args))

/-- Leaves a method without result. -/
def leave : Act Machine Unit := discard popFrame

/-- Leaves a method with a result of width `w`. -/
def leaveWith (w : Width) : Act Machine Unit := do
  match (← popFrame).stack with
  | [] => Act.violated .emptyStack
  | o :: _ =>
    Act.ensure (o.width = w) (.returnWidth w o.width)
    push o

/-- Replaces a call of a method that is not watched by the result that the host saw. -/
def callUnwatched (desc : String) (static : Bool) (result : Value) : Act Machine Unit := do
  discard topFrame
  discard (popArguments desc)
  if !static then discard (onStack Stack.popRef)
  let (_, w) ← methodWidths desc
  match w with
  | none => return
  | some w =>
    let e ← onHeap (Heap.constant (some w) result)
    push (← Act.ofExcept (Operand.ofExpr w e))

/-- Pops frames until `n` are left, at most `fuel` of them. -/
def unwind (n : Nat) : Nat → Act Machine Unit
  | 0 => pure ()
  | fuel + 1 => do
    if n < (← get).depth then
      discard popFrame
      unwind n fuel

/-- Drops the frames above the handler of an exception, which gets the exception as its only
operand. -/
def throwTo (depth : Int) (exception : Value) : Act Machine Unit := do
  let m ← get
  Act.ensure (0 < depth && depth.toNat ≤ m.depth) (.handlerDepth depth m.depth)
  unwind depth.toNat m.depth
  onStack Stack.clear
  push (.ref (← onHeap (Heap.reference exception)))

/-- Starts a run: enters the watched method with the given arguments, the receiver first. -/
def start (method : MethodRef) (static : Bool) (size : Int) (args : List (Option Operand)) :
    Act Machine Unit := do
  prepareStack args
  enter method static size

end Concolic.Machine
