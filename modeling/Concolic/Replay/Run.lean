import Concolic.Replay.Reading
import Concolic.Text.Line

/-
# Running a trace

`start` enters the watched method of a trace and `exec` runs one line.  A line that fails leaves what
it changed before, and the next line goes on from there.  A line may also never end, and then there
is no next line.
-/
namespace Concolic.Replay

/-! ## 1. Lines -/

/-- The step that a line stands for; a blank line stands for none. -/
def read (r : Replay) (line : String) : Except Error (Option (String × Step)) :=
  match Text.fields line with
  | [] => .ok none
  | word :: args =>
    let name := Text.upper word
    match readers.lookup name with
    | none => .error (.unknown name)
    | some l => (l.read name r args).map fun s => some (name, s)

/-- Tells and counts a fault that a line raised. -/
def faulted (r : Replay) (line : String) : Replay :=
  { r with
    machine := { r.machine with log := .faultLine line :: r.machine.log }
    faults := r.faults + 1 }

/-- The replay after a store into a host array. -/
def stored (r : Replay) : Option HostStore → Except Crash Replay
  | none => .ok r
  | some s => (s.apply r.host).map fun h => { r with host := h }

/-- Performs a step that `line` stands for; answers whether the watched program faulted. -/
def perform (name line : String) (s : Step) (r : Replay) : Reply Error Bool × Replay :=
  let (result, m) := s.instruction.exec r.machine
  let r := { r with machine := m }
  match result with
  | .error .endless => (.endless, r)
  | .error f => (.error (.inside name (.failure f)), r)
  | .ok true => (.ok true, r.faulted line)
  | .ok false =>
    match r.stored s.store with
    | .ok r => (.ok false, r)
    | .error c => (.error (.inside name (.failure (.crash c))), r)

/-- Runs a line; answers whether the watched program faulted. -/
def exec (line : String) (r : Replay) : Reply Error Bool × Replay :=
  match r.read line with
  | .error e => (.error e, r)
  | .ok none => (.ok false, r)
  | .ok (some (name, s)) => r.perform name line s

/-! ## 2. Starting -/

/-- Why a trace cannot be started. -/
inductive StartError
  | host (e : Host.Error)
  | argument (e : Host.ArgError)
  | start (m : MethodRef) (f : Failure)
deriving DecidableEq, Repr

def StartError.message : StartError → String
  | host e => e.message
  | argument e => e.message
  | start m f => "start " ++ m.render ++ ": " ++ f.message

/-- The operands for the arguments; objects get their references in order. -/
def operands (h : Host) : List Trace.Arg → Act Heap (Except Host.ArgError (List Operand))
  | [] => pure (.ok [])
  | a :: rest => do
    match ← h.operand a with
    | .error e => return .error e
    | .ok o =>
      match ← operands h rest with
      | .error e => return .error e
      | .ok os => return .ok (o :: os)

/-- Enters the watched method of a trace.  Also answers with what was told until then. -/
def start (t : Trace) : Except StartError Replay × List Event :=
  match Host.ofTrace t with
  | .error e => (.error (.host e), [])
  | .ok host =>
    match Machine.onHeap (operands host t.args) (Machine.new (some host.resolver)) with
    | (.error f, _) => (.error (.start t.method f), [])
    | (.ok (.error e), _) => (.error (.argument e), [])
    | (.ok (.ok args), m) =>
      match Machine.start t.method t.static t.maxLocals (args.map some) m with
      | (.error f, m) => (.error (.start t.method f), m.log.reverse)
      | (.ok (), m) => (.ok ⟨m, host, 0⟩, m.log.reverse)

end Concolic.Replay
