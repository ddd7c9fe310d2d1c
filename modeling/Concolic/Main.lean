import Concolic.Command.Run

/-
# The program

Reads the trace file, prints the outcome of the command line and ends with its status; a command
that never ends does not.
-/
open Concolic.Command in
def main (args : List String) : IO UInt32 := do
  let text ← match traceFile args with
    | none => pure none
    | some name =>
      try
        pure (some (← IO.FS.readFile name))
      catch _ =>
        pure none
  match run (fun _ => text) args with
  | none =>
    repeat pure ()
    return 0
  | some outcome =>
    IO.print outcome.stdout
    IO.eprint outcome.stderr
    match outcome.error with
    | none => return 0
    | some e =>
      unless e.isHelp do IO.eprintln e.message
      return 1
