import Concolic.Machine.Frame
import Concolic.Machine.Heap
import Concolic.Machine.PathCondition

/-
# The state of the machine

A machine holds the frames of the run, the symbolic heap, the classes that are prepared and the
collector of constraints.  It asks a resolver about classes, if it has one.

`onStack`, `onLocals` and `onHeap` let an action on a part run on the whole machine; the stack and
the locals are those of the frame on top.

The log is what the machine and the replay tell about a run while it goes on.
-/
namespace Concolic

/-! ## 1. The log -/

/-- A fault of the watched program. -/
inductive Fault
  | divisionByZero
  | nullDereference
  | negativeSize (n : Int32)
  | negativeIndex (n : Int32)
  | indexTooBig (n : Int32)
deriving DecidableEq, Repr

def Fault.message : Fault → String
  | divisionByZero => "division by zero"
  | nullDereference => "null dereference"
  | negativeSize n => "negative array size " ++ Numeral.decimal n.toInt
  | negativeIndex n => "negative array index " ++ Numeral.decimal n.toInt
  | indexTooBig n => "array index " ++ Numeral.decimal n.toInt ++ " out of bounds"

inductive Event
  | push (m : MethodRef)
  | pop (m : MethodRef)
  | prepare (className : String)
  | condition (c : Condition)
  | fault (f : Fault) (m : MethodRef)
  /-- A line of the trace raised a fault. -/
  | faultLine (line : String)
  | begin (m : MethodRef)
  | finish (faults : Nat)
deriving DecidableEq, Repr

def Event.message : Event → String
  | push m => "[frame] push " ++ m.render
  | pop m => "[frame] pop " ++ m.render
  | prepare c => "[prepare] " ++ c
  | condition c =>
    "[branch] " ++ c.kind.name ++ " " ++ c.className ++ "." ++ c.methodName ++ " #" ++
      Numeral.decimal c.branch ++ ": " ++ c.constraint.render
  | fault f m => "[fault] " ++ f.message ++ " in " ++ m.render
  | faultLine l => "[fault] " ++ l
  | begin m => "[begin] " ++ m.render
  | finish n => "[end] faults=" ++ Nat.repr n

/-- The line of the log.  A message that ends its line by itself gets no second break. -/
def Event.line (e : Event) : String :=
  if e.message.toList.getLast? = some '\n' then e.message else e.message ++ "\n"

/-- The log of the given events. -/
def logText (events : List Event) : String := String.join (events.map Event.line)

/-! ## 2. Machines -/

/-- Answers questions about the class hierarchy of the host. -/
structure ClassResolver where
  /-- The name of the superclass, empty for the root. -/
  superclass : String → Except Refusal String
  /-- Whether a value is an instance of a type. -/
  isInstance : Value → String → Reply Refusal Bool
  /-- A chain of superclasses that is longer than this does not end. -/
  depth : Nat

structure Machine where
  /-- The frames, the top first. -/
  frames : List Frame := []
  /-- The prepared classes in the order of their preparation. -/
  prepared : List String := []
  heap : Heap := {}
  collector : Collector
  /-- What was told about the run, the last first. -/
  log : List Event := []
  classes : Option ClassResolver

namespace Machine

/-- A machine that collects a path condition. -/
def new (classes : Option ClassResolver) : Machine :=
  { collector := .path {}, classes }

/-- A machine that lists the reported constraints. -/
def recording (classes : Option ClassResolver) : Machine :=
  { collector := .calls [], classes }

def depth (m : Machine) : Nat := m.frames.length

/-- What is told about the run. -/
def tell (e : Event) : Act Machine Unit := modify fun m => { m with log := e :: m.log }

/-! ## 3. Frames -/

def pushFrame (f : Frame) : Act Machine Unit := do
  modify fun m => { m with frames := f :: m.frames }
  tell (.push f.method)

/-- Pushes a frame that must be there. -/
def pushFrame? : Option Frame → Act Machine Unit
  | some f => pushFrame f
  | none => Act.violated .missingFrame

def popFrame : Act Machine Frame := do
  match (← get).frames with
  | [] => Act.violated .emptyFrames
  | f :: rest =>
    modify fun m => { m with frames := rest }
    tell (.pop f.method)
    return f

def topFrame : Act Machine Frame := do
  match (← get).frames with
  | [] => Act.violated .noFrame
  | f :: _ => return f

/-- The frame beneath the top one. -/
def callerFrame : Act Machine Frame := do
  match (← get).frames with
  | _ :: f :: _ => return f
  | _ => Act.violated .noCaller

/-- Drops all frames and pushes two that belong to no method; the upper one holds the arguments, the
last on top.  All arguments must be there. -/
def prepareStack (args : List (Option Operand)) : Act Machine Unit := do
  modify fun m => { m with frames := [] }
  pushFrame (.placeholder "<bottom>" [])
  match args.mapM id with
  | some args => pushFrame (.placeholder "<main>" args.reverse)
  | none => Act.violated .missingOperand

/-! ## 4. Parts -/

/-- An action on the frame on top. -/
def onTop (a : Act Frame α) : Act Machine α := fun m =>
  match m.frames with
  | [] => (.error (.violation .noFrame), m)
  | f :: rest =>
    let (r, f) := a f
    (r, { m with frames := f :: rest })

def onStack (a : Act Stack α) : Act Machine α :=
  onTop (a.zoom Frame.stack fun s f => { f with stack := s })

def onLocals (a : Act Locals α) : Act Machine α :=
  onTop (a.zoom Frame.locals fun t f => { f with locals := t })

def onHeap (a : Act Heap α) : Act Machine α :=
  a.zoom Machine.heap fun h m => { m with heap := h }

def push (o : Operand) : Act Machine Unit := onStack (Stack.push o)

/-! ## 5. Constraints and faults -/

/-- Gives a report to the collector. -/
def report (r : Report) : Act Machine Unit := do
  match (← get).collector.report r with
  | .error e => Act.violated (.malformed e)
  | .ok (c, d) =>
    modify fun m => { m with collector := c }
    if let some d := d then tell (.condition d)

/-- Tells of a fault in the method on top. -/
def fault (f : Fault) : Act Machine Unit := do
  tell (.fault f (← topFrame).method)

/-- Reports a supporting constraint if an input occurs in it. -/
def support (c : Constraint) : Act Machine Unit :=
  if c.isSymbolic then report (.supporting c) else pure ()

/-- Reports an array access if an input occurs in it. -/
def decideAccess (c : Constraint) (negated : Bool) : Act Machine Unit :=
  if c.isSymbolic then do
    let m := (← topFrame).method
    report (.array c m.owner m.name negated)
  else pure ()

/-- Reports a branch if an input occurs in it. -/
def decideBranch (c : Constraint) (branch : Int) : Act Machine Unit :=
  if c.isSymbolic then do
    let m := (← topFrame).method
    report (.branch c m.owner m.name branch)
  else pure ()

/-! ## 6. Classes -/

/-- Whether a class name is that of arrays, which have no superclass of interest. -/
def isArrayClass (name : String) : Bool := name.toList.head? = some '['

/-- Prepares a class after its superclasses.  If there are `fuel` classes on the way up and still one
more, it is taken that they do not end. -/
def prepareWithin : Nat → String → Act Machine Unit
  | 0, _ => Act.fail .endless
  | fuel + 1, name => do
    let m ← get
    if m.prepared.contains name then return
    if !isArrayClass name then
      match m.classes with
      | none => Act.fail .noResolver
      | some r =>
        match r.superclass name with
        | .error e => Act.fail (.prepare name e)
        | .ok super => if super ≠ "" then prepareWithin fuel super
    modify fun m => { m with prepared := m.prepared ++ [name] }
    tell (.prepare name)

/-- Prepares a class and all its superclasses that are not prepared, superclasses first. -/
def prepare (name : String) : Act Machine Unit := do
  let depth := match (← get).classes with
    | some r => r.depth
    | none => 0
  prepareWithin (depth + 1) name

/-! ## 7. Text -/

/-- The frames under their numbers, the top first. -/
def frameLines : List Frame → List String
  | [] => []
  | f :: rest => ("== FRAME #" ++ Nat.repr rest.length) :: f.render :: frameLines rest

/-- The frames and the heap. -/
def dump (m : Machine) : String :=
  String.join ((["SYMBOLIC ENVIRONMENT", "===================="] ++ frameLines m.frames ++
    ["", "== HEAP"]).map (· ++ "\n")) ++ m.heap.dump

end Machine

end Concolic
