import Concolic.Expr.Build
import Concolic.Machine.Value

/-
# Failures

An instruction fails for one of three reasons.  It does not fit the state of the machine: a broken
invariant, which has a message.  The host gave something that makes no sense at all: a crash, which
has none of its own.  Or the class hierarchy could not answer.

An instruction that asks for the superclasses of a class may also never end, if the class is above
itself.  This is not an error that anyone gets to see, and it is kept apart from those: a `Reply`
is an answer, an error or neither.

A fault of the program that is watched, such as a division by zero, is no failure.
-/
namespace Concolic

/-- An invariant that an instruction found broken. -/
inductive Violation
  | malformed (m : Malformed)
  -- operands
  | missingExpr (widthCode : Int)
  | notInteger (w : Width) (k : Kind)
  | notReal (w : Width) (k : Kind)
  | notReference (k : Kind)
  | invalidWidth (code : Int)
  -- operand stack
  | missingOperand
  | emptyStack
  | peekRange (i : Int) (size : Nat)
  | operandWidth (expected got : Width)
  | operandCategory (expected : Nat) (got : Width)
  -- locals
  | negativeSize (n : Int)
  | localRange (i : Int) (size : Nat)
  | localEmpty (i : Int)
  | localMissing (i : Int)
  | localOverflow (i : Int) (size : Nat)
  | localWidth (i : Int) (expected got : Width)
  | loadWidth (i : Int) (expected got : Width)
  | storeWidth (i : Int) (expected got : Width)
  -- descriptors
  | emptyDescriptor
  | unfinishedType (desc : List UInt8)
  | unknownType (desc : List UInt8)
  | unfinishedClass (desc : List UInt8)
  | methodDescriptor (desc : List UInt8)
  -- frames
  | missingFrame
  | emptyFrames
  | noFrame
  | noCaller
  -- heap
  | bindNull (r : Ref)
  | notComparable (v : Value)
  | unresolved (v : Value)
  | notArray (r : Ref)
  | arrayStoreWidth (expected got : Width)
  | putFieldWidth (owner name : String) (expected : Option Width) (got : Width)
  | putStaticWidth (owner name : String) (expected : Option Width) (got : Width)
  | castWidth (type : String) (got : Width)
  | noDimensions
  -- calls
  | argumentWidth (i : Nat) (desc : String) (expected : Option Width) (got : Width)
  | returnWidth (expected got : Width)
  | handlerDepth (depth : Int) (size : Nat)
  -- host values
  | notIntLike (v : Value)
  | notLong (v : Value)
  | notFloating (v : Value)
  | notLoadable (v : Value)
deriving DecidableEq, Repr

namespace Violation

def expectedGot (expected got : String) : String :=
  "expected " ++ expected ++ ", got " ++ got

def message : Violation → String
  | malformed m => m.message
  | missingExpr c => "assert: nil expression for " ++ Width.codeName c ++ " operand"
  | notInteger w k =>
    "assert: " ++ w.name ++ " operand requires an integer expression: " ++ k.qualified
  | notReal w k => "assert: " ++ w.name ++ " operand requires a real expression: " ++ k.qualified
  | notReference k => "assert: ref operand requires a reference expression: " ++ k.qualified
  | invalidWidth c => "vm: invalid operand width: " ++ Width.codeName c
  | missingOperand => "assert: push of nil operand"
  | emptyStack => "assert: pop from empty operand stack"
  | peekRange i n =>
    "assert: peek at " ++ Numeral.decimal i ++ " on stack of " ++ Nat.repr n
  | operandWidth e g => "assert: " ++ expectedGot (e.name ++ " operand") g.name
  | operandCategory e g =>
    "assert: " ++ expectedGot ("category " ++ Nat.repr e ++ " operand") g.name
  | negativeSize n => "assert: negative locals size: " ++ Numeral.decimal n
  | localRange i n =>
    "assert: local " ++ Numeral.decimal i ++ " out of range [0," ++ Nat.repr n ++ ")"
  | localEmpty i => "assert: read of uninitialized local " ++ Numeral.decimal i
  | localMissing i => "assert: store of nil operand to local " ++ Numeral.decimal i
  | localOverflow i n =>
    "assert: double-word local " ++ Numeral.decimal i ++ " overflows table of " ++ Nat.repr n
  | localWidth i e g =>
    "assert: local " ++ Numeral.decimal i ++ ": " ++ expectedGot e.name g.name
  | loadWidth i e g =>
    "assert: load of local " ++ Numeral.decimal i ++ ": " ++ expectedGot e.name g.name
  | storeWidth i e g =>
    "assert: store to local " ++ Numeral.decimal i ++ ": " ++ expectedGot e.name g.name
  | emptyDescriptor => "assert: empty type descriptor"
  | unfinishedType d => "assert: invalid type descriptor: " ++ Text.quoteBytes d
  | unknownType d => "vm: invalid type descriptor: " ++ Text.quoteBytes d
  | unfinishedClass d => "vm: unterminated class descriptor: " ++ Text.quoteBytes d
  | methodDescriptor d => "assert: invalid method descriptor: " ++ Text.quoteBytes d
  | missingFrame => "assert: push of nil frame"
  | emptyFrames => "assert: pop from empty frame stack"
  | noFrame => "assert: no frame"
  | noCaller => "assert: no caller frame"
  | bindNull r => "assert: bind of nil object to " ++ r.render
  | notComparable v =>
    "assert: concrete object of type " ++ v.typeName ++ " is not comparable"
  | unresolved v => "assert: unresolved reference for " ++ v.typeName
  | notArray r => "assert: array access through " ++ r.render
  | arrayStoreWidth e g => "assert: array store: " ++ expectedGot e.name g.name
  | putFieldWidth o n e g =>
    "assert: PUTFIELD " ++ o ++ "." ++ n ++ ": " ++ expectedGot (Width.resultName e) g.name
  | putStaticWidth o n e g =>
    "assert: PUTSTATIC " ++ o ++ "." ++ n ++ ": " ++ expectedGot (Width.resultName e) g.name
  | castWidth t g => "assert: CHECKCAST " ++ t ++ ": " ++ expectedGot "ref operand" g.name
  | noDimensions => "assert: MULTIANEWARRAY without dimensions"
  | argumentWidth i d e g =>
    "assert: argument " ++ Nat.repr i ++ " of " ++ d ++ ": " ++
      expectedGot (Width.resultName e) g.name
  | returnWidth e g => "assert: return: " ++ expectedGot e.name g.name
  | handlerDepth d n =>
    "assert: invalid handler depth " ++ Numeral.decimal d ++ " of " ++ Nat.repr n
  | notIntLike v => "vm: " ++ expectedGot "int-like value" v.typeName
  | notLong v => "vm: " ++ expectedGot "long value" v.typeName
  | notFloating v => "vm: " ++ expectedGot "floating-point value" v.typeName
  | notLoadable v => "vm: unsupported LDC constant: " ++ v.typeName

end Violation

/-- Something that makes no sense at all. -/
inductive Crash
  /-- An array type without a component. -/
  | emptyComponent
  /-- The operand is no integer where one is looked at. -/
  | notInteger
  /-- The operand is no real where one is looked at. -/
  | notReal
  /-- The value does not fit the elements of the array. -/
  | elementKind
  /-- The array has no such element. -/
  | elementIndex
  /-- No table has that many slots. -/
  | tableSize
deriving DecidableEq, Repr

def Crash.message : Crash → String
  | emptyComponent => "runtime error: empty component type"
  | notInteger => "interface conversion: operand is not an integer"
  | notReal => "interface conversion: operand is not a real"
  | elementKind => "interface conversion: value does not fit the element type"
  | elementIndex => "runtime error: index out of range"
  | tableSize => "runtime error: length out of range"

/-- Why the class hierarchy could not answer. -/
inductive Refusal
  | unknownClass (name : String)
  | unknownObject (v : Value)
deriving DecidableEq, Repr

def Refusal.message : Refusal → String
  | unknownClass n => "unknown class: " ++ n
  | unknownObject v => "unknown host object: " ++ v.typeName

/-- What comes of a question or a line. -/
inductive Reply (ε α : Type)
  | ok (a : α)
  | error (e : ε)
  /-- Nothing comes of it, as it goes on for ever. -/
  | endless
deriving DecidableEq, Repr

/-- What is found, if the search ends. -/
def Reply.ofOption : Option α → Reply ε α
  | some a => .ok a
  | none => .endless

/-- Why an instruction gave no answer. -/
inductive Failure
  | violation (v : Violation)
  | crash (c : Crash)
  /-- There is nobody to ask about classes. -/
  | noResolver
  | prepare (className : String) (cause : Refusal)
  | instanceOf (type : String) (cause : Refusal)
  /-- The instruction goes on for ever, so it does not fail either. -/
  | endless
deriving DecidableEq, Repr

/-- What is said of a failure; of an instruction that goes on for ever nothing is. -/
def Failure.message : Failure → String
  | violation v => v.message
  | crash c => c.message
  | noResolver => "vm: no class resolver configured"
  | prepare c e => "vm.Env: prepare " ++ c ++ ": " ++ e.message
  | instanceOf t e => "vm.HeapVM: instanceof " ++ t ++ ": " ++ e.message
  | endless => ""

end Concolic
