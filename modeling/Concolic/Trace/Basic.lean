import Concolic.Machine.Frame

/-
# Traces

A trace describes one run of a method: the method, the arguments it got, the host objects it
touched and the instructions it executed.  All values are given as texts.
-/
namespace Concolic

/-- An argument of the watched method.  A named argument of a primitive type is an input; bounds that
are empty are those of the type.  An argument of a reference type names a host object. -/
structure Trace.Arg where
  type : String := ""
  name : String := ""
  value : String := ""
  min : String := ""
  max : String := ""
  ref : String := ""
deriving DecidableEq, Repr

/-- An array of the host.  Elements of a reference type name host objects. -/
structure Trace.ArrayText where
  type : String := ""
  elems : List String := []
deriving DecidableEq, Repr

structure Trace where
  method : MethodRef := ⟨"", "", ""⟩
  static : Bool := false
  /-- How many locals the method has. -/
  maxLocals : Int := 0
  args : List Trace.Arg := []
  /-- The superclasses of the classes that do not extend the root. -/
  classes : List (String × String) := []
  /-- The classes of the host objects. -/
  objects : List (String × String) := []
  arrays : List (String × Trace.ArrayText) := []
  instructions : List String := []
deriving DecidableEq, Repr

end Concolic
