import Concolic.Command.Options
import Concolic.Replay.Run
import Concolic.Smt.Script
import Concolic.Trace.Decode

/-
# The command line

`run` does what the command line asks for, given the text of the trace file if there is such a file.
It gives what is to be printed and the error, if any; printing is left to the caller.  It gives
nothing if a line of the trace never ends.

The detailed listing has the conditions with all their parts, one to a line, each with the name of
its type.  Texts are given with their length in bytes.
-/
namespace Concolic.Command

/-! ## 1. Errors -/

inductive Error
  | help
  | unknownCommand (name : String)
  | options (e : OptionError)
  | noTrace
  | manyTraces
  | noFile (name : String)
  | read (e : Trace.ReadError)
  | start (e : Replay.StartError)
  | instruction (i : Nat) (e : Replay.Error)
  | smt (e : Smt.Error)
deriving DecidableEq, Repr

def Error.message : Error → String
  | help => OptionError.help.message
  | unknownCommand n => "shadowvm " ++ n ++ ": unknown command"
  | options e => e.message
  | noTrace => "trace required"
  | manyTraces => "too many traces specified"
  | noFile n => "open " ++ n ++ ": no such file or directory"
  | read e => e.message
  | start e => e.message
  | instruction i e => "instruction #" ++ Nat.repr i ++ ": " ++ e.message
  | smt e => e.message

/-- Whether the user only asked for help. -/
def Error.isHelp : Error → Bool
  | help | options .help => true
  | _ => false

/-- What a command prints and how it ends. -/
structure Outcome where
  stdout : String := ""
  stderr : String := ""
  error : Option Error := none
deriving DecidableEq, Repr

/-! ## 2. Usage -/

/-- A text of several lines. -/
def screen (lines : List String) : String := String.join (lines.map (· ++ "\n"))

def usage : String := screen
  ["Shadowvm tracks symbolic values alongside a concrete bytecode execution.",
   "",
   "Usage:",
   "",
   "\tshadowvm <command> [arguments]",
   "",
   "The commands are:",
   "",
   "\treplay      replay an instruction trace and print its path condition",
   "\thelp        this screen",
   ""]

def replayUsage : String := screen
  ["usage: shadowvm replay [arguments] TRACE",
   "",
   "Arguments:",
   "",
   "\t-v",
   "\t    Enable verbose logging.",
   "\t-smt",
   "\t    Print the path condition as an SMT-LIB script.",
   "\t-dump",
   "\t    Dump the final environment and branch conditions.",
   ""]

/-! ## 3. A detailed listing of conditions -/

/-- Indents every line. -/
def indent (lines : List String) : List String := lines.map ("  " ++ ·)

/-- Ends the last line of an entry. -/
def withComma : List String → List String
  | [] => []
  | [l] => [l ++ ","]
  | l :: ls => l :: withComma ls

/-- Puts entries one below the other, divided by commas. -/
def entries : List (List String) → List String
  | [] => []
  | [e] => e
  | e :: es => withComma e ++ entries es

/-- Puts text in front of the first line. -/
def labelled (label : String) : List String → List String
  | [] => [label]
  | l :: ls => (label ++ l) :: ls

/-- A list between braces. -/
def listing (type : String) (items : List (List String)) : List String :=
  if items.isEmpty then ["(" ++ type ++ ") <nil>"]
  else
    ("(" ++ type ++ ") (len=" ++ Nat.repr items.length ++ ") \x7b") :: indent (entries items) ++
      ["\x7d"]

def textListing (s : String) : List String :=
  let n := s.utf8ByteSize
  ["(string) " ++ (if n = 0 then "" else "(len=" ++ Nat.repr n ++ ") ") ++ Text.quote s]

def boolListing (b : Bool) : List String := ["(bool) " ++ (if b then "true" else "false")]

def constraintListing (c : Constraint) : List String :=
  ["(*symbolic." ++ c.kindName ++ ")(" ++ c.render ++ ")"]

def conditionListing (c : Condition) : List String :=
  "(*vm.BranchCondition)(\x7b" ::
    indent (entries
      [["Kind: (vm.ConditionKind) " ++ c.kind.name],
       labelled "ClassName: " (textListing c.className),
       labelled "MethodName: " (textListing c.methodName),
       ["BranchIndex: (int) " ++ Numeral.decimal c.branch],
       labelled "Negated: " (boolListing c.negated),
       labelled "Constraint: " (constraintListing c.constraint),
       labelled "Supporting: "
        (listing "[]symbolic.Constraint" (c.supporting.map constraintListing))]) ++
    ["\x7d)"]

/-- The listing of the conditions of a run. -/
def conditionsText (cs : List Condition) : String :=
  String.join ((listing "[]*vm.BranchCondition" (cs.map conditionListing)).map (· ++ "\n"))

/-! ## 4. Replaying -/

/-- Runs lines up to the first that fails, which is named by its number, counted from `i`. -/
def execLines (i : Nat) : List String → Replay → Reply (Nat × Replay.Error) Unit × Replay
  | [], r => (.ok (), r)
  | line :: rest, r =>
    match r.exec line with
    | (.ok _, r) => execLines (i + 1) rest r
    | (.error e, r) => (.error (i, e), r)
    | (.endless, r) => (.endless, r)

/-- Adds to the log of a replay. -/
def tell (e : Event) (r : Replay) : Replay :=
  { r with machine := { r.machine with log := e :: r.machine.log } }

/-- What is printed of a run that ended well. -/
def report (o : Options) (m : Machine) : Except Error String :=
  let pc := m.collector.pathCondition
  let constraints :=
    if o.smt then (Smt.script pc.constraints).mapError Error.smt else .ok pc.render
  constraints.map fun s =>
    if o.dump then s ++ m.dump ++ conditionsText pc.conditions else s

/-- The log, if it is wanted. -/
def logOf (o : Options) (events : List Event) : String :=
  if o.verbose then logText events else ""

/-- Replays a trace. -/
def replay (o : Options) (t : Trace) : Option Outcome :=
  match Replay.start t with
  | (.error e, log) => some { stderr := logOf o log, error := some (.start e) }
  | (.ok r, _) =>
    match execLines 0 t.instructions (tell (.begin t.method) r) with
    | (.endless, _) => none
    | (.error (i, e), r) =>
      some { stderr := logOf o r.machine.log.reverse, error := some (.instruction i e) }
    | (.ok (), r) =>
      let stderr := logOf o (tell (.finish r.faults) r).machine.log.reverse
      match report o r.machine with
      | .ok s => some { stdout := s, stderr }
      | .error e => some { stderr, error := some e }

/-! ## 5. Commands -/

/-- The options of the replay command and the name of its trace. -/
def replayArgs (args : List String) : Except Error (Options × String) :=
  match Options.parse {} args with
  | .error e => .error (.options e)
  | .ok (_, []) => .error .noTrace
  | .ok (o, [name]) => .ok (o, name)
  | .ok _ => .error .manyTraces

/-- Runs the replay command; `file` gives the texts of files. -/
def runReplay (file : String → Option String) (args : List String) : Option Outcome :=
  match replayArgs args with
  | .error (.options .help) => some { stderr := replayUsage, error := some (.options .help) }
  | .error (.options e) =>
    some { stderr := e.message ++ "\n" ++ replayUsage, error := some (.options e) }
  | .error e => some { error := some e }
  | .ok (o, name) =>
    match file name with
    | none => some { error := some (.noFile name) }
    | some text =>
      match Trace.read text with
      | .error e => some { error := some (.read e) }
      | .ok t => replay o t

/-- The file that the command line names, if it is to be read at all. -/
def traceFile : List String → Option String
  | "replay" :: args => (replayArgs args).toOption.map (·.2)
  | _ => none

/-- Runs the command line, unless it never ends; `file` gives the texts of files. -/
def run (file : String → Option String) (args : List String) : Option Outcome :=
  match args with
  | [] | "" :: _ | "-h" :: _ | "--help" :: _ | "help" :: _ =>
    some { stderr := usage, error := some .help }
  | "replay" :: args => runReplay file args
  | name :: _ => some { error := some (.unknownCommand name) }

end Concolic.Command
