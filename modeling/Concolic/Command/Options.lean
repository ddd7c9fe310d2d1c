import Concolic.Numeral.Integer

/-
# Options of the command line

Options come before the other arguments.  An option begins with one dash or two and may give a truth
value after an equals sign.  The first argument that is no option ends them, and so does a double
dash, which is dropped.
-/
namespace Concolic.Command

structure Options where
  verbose : Bool := false
  /-- Print a script instead of the constraints. -/
  smt : Bool := false
  /-- Print the final state too. -/
  dump : Bool := false
deriving DecidableEq, Repr

/-- Why the options are refused. -/
inductive OptionError
  | help
  | malformed (arg : String)
  | unknown (name : String)
  | noBool (name value : String)
deriving DecidableEq, Repr

def OptionError.message : OptionError → String
  | help => "flag: help requested"
  | malformed s => "bad flag syntax: " ++ s
  | unknown n => "flag provided but not defined: -" ++ n
  | noBool n v => "invalid boolean value " ++ Text.quote v ++ " for -" ++ n ++ ": parse error"

/-- What an argument is, seen as an option. -/
inductive Argument
  | option (name : String) (value : Option String)
  | malformed
  /-- Two dashes alone. -/
  | finish
  | other
deriving DecidableEq, Repr

/-- The name of an option and its value; an equals sign at the very start belongs to no name. -/
def splitOption : List Char → Argument
  | [] | '-' :: _ | '=' :: _ => .malformed
  | c :: cs =>
    let name := cs.takeWhile (· ≠ '=')
    let value := match cs.dropWhile (· ≠ '=') with
      | [] => none
      | _ :: v => some (String.ofList v)
    .option (String.ofList (c :: name)) value

def Argument.ofText (s : String) : Argument :=
  match s.toList with
  | ['-', '-'] => .finish
  | '-' :: '-' :: cs => splitOption cs
  | ['-'] => .other
  | '-' :: cs => splitOption cs
  | _ => .other

/-- The options with one of them set. -/
def Options.set (o : Options) (name : String) (b : Bool) : Option Options :=
  match name with
  | "v" => some { o with verbose := b }
  | "smt" => some { o with smt := b }
  | "dump" => some { o with dump := b }
  | _ => none

/-- Reads one option. -/
def Options.read (o : Options) (name : String) (value : Option String) :
    Except OptionError Options :=
  match o.set name true with
  | none => .error (if name = "help" ∨ name = "h" then .help else .unknown name)
  | some set =>
    match value with
    | none => .ok set
    | some v =>
      match Numeral.parseBool v with
      | .error _ => .error (.noBool name v)
      | .ok b => .ok ((o.set name b).getD o)

/-- Reads the options; answers with them and the arguments after them. -/
def Options.parse (o : Options) : List String → Except OptionError (Options × List String)
  | [] => .ok (o, [])
  | s :: rest =>
    match Argument.ofText s with
    | .other => .ok (o, s :: rest)
    | .finish => .ok (o, rest)
    | .malformed => .error (.malformed s)
    | .option name value => do Options.parse (← o.read name value) rest

end Concolic.Command
