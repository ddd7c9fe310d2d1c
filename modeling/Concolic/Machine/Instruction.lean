import Concolic.Machine.Arithmetic
import Concolic.Machine.Call
import Concolic.Machine.Memory
import Concolic.Machine.Transfer

/-
# Instructions

An instruction together with what the host saw when it executed it: the divisor, the array, the
value read.  `exec` performs it and answers whether the watched program faulted.
-/
namespace Concolic

inductive Instruction
  -- constants and locals
  | pushNull
  | pushInt (v : Int32)
  | pushLong (v : Int64)
  | pushFloat (v : Double)
  | pushDouble (v : Double)
  | pushConstant (v : Value)
  | load (w : Width) (i : Int)
  | store (w : Width) (i : Int)
  | increment (i : Int) (d : Int32)
  -- ints
  | intOp (op : WordOp)
  | intShift (op : ShiftOp)
  | intDivide (op : DivOp) (d : Int32)
  | intNegate
  -- longs
  | longOp (op : WordOp)
  | longShift (op : ShiftOp)
  | longDivide (op : DivOp) (d : Int64)
  | longNegate
  | longCompare
  -- floats and doubles
  | floatOp (op : RealOp)
  | floatNegate
  | floatCompare
  | doubleOp (op : RealOp)
  | doubleNegate
  | doubleCompare
  -- conversions and shuffles
  | convert (c : Machine.Conversion)
  | shuffle (s : Stack.Shuffle)
  -- branches
  | branchZero (r : Relation) (branch : Int)
  | branchCompare (r : Relation) (branch : Int)
  | branchNull
  | branchSame
  | tableSwitch (branch : Int) (low high : Int32)
  | lookupSwitch (branch : Int) (keys : List Int32)
  -- objects, arrays and fields
  | newObject (className : String)
  | newArray (n : Int32) (component : String)
  | newMultiArray (type : String) (dims : List Int32)
  | arrayLength (a : Option HostArray)
  | arrayLoad (w : Width) (a : Option HostArray) (n : Int32)
  | arrayStore (w : Width) (a : Option HostArray) (n : Int32)
  | getField (receiver : Value) (owner name desc : String) (v : Value)
  | putField (receiver : Value) (owner name desc : String)
  | getStatic (owner name desc : String) (v : Value)
  | putStatic (owner name desc : String)
  | checkCast (type : String)
  | instanceOf (v : Value) (type : String)
  | monitor (v : Value)
  -- calls
  | enter (method : MethodRef) (static : Bool) (size : Int)
  | leave
  | leaveWith (w : Width)
  | callUnwatched (desc : String) (static : Bool) (result : Value)
  | throwTo (depth : Int) (exception : Value)
deriving DecidableEq, Repr

namespace Instruction

/-- An action that cannot fault. -/
def safely (a : Act Machine Unit) : Act Machine Bool := do
  a
  return false

/-- Performs an instruction; answers whether the watched program faulted. -/
def exec : Instruction → Act Machine Bool
  | pushNull => safely Machine.pushNull
  | pushInt v => safely (Machine.pushInt v)
  | pushLong v => safely (Machine.pushLong v)
  | pushFloat v => safely (Machine.pushFloat v)
  | pushDouble v => safely (Machine.pushDouble v)
  | pushConstant v => safely (Machine.pushConstant v)
  | load w i => safely (Machine.load w i)
  | store w i => safely (Machine.store w i)
  | increment i d => safely (Machine.increment i d)
  | intOp op => safely (Machine.intBinary op.operator op.onInt)
  | intShift op => safely (Machine.intBinary op.operator op.onInt)
  | intDivide op d => Machine.intDivide op d
  | intNegate => safely Machine.intNegate
  | longOp op => safely (Machine.longBinary op.operator op.onLong)
  | longShift op => safely (Machine.longShift op)
  | longDivide op d => Machine.longDivide op d
  | longNegate => safely Machine.longNegate
  | longCompare => safely Machine.longCompare
  | floatOp op => safely (Machine.floatBinary op)
  | floatNegate => safely Machine.floatNegate
  | floatCompare => safely Machine.floatCompare
  | doubleOp op => safely (Machine.doubleBinary op)
  | doubleNegate => safely Machine.doubleNegate
  | doubleCompare => safely Machine.doubleCompare
  | convert c => safely (Machine.convert c)
  | shuffle s => safely (Machine.onStack (Stack.shuffle s))
  | branchZero r b => safely (Machine.branchZero r b)
  | branchCompare r b => safely (Machine.branchCompare r b)
  | branchNull => safely Machine.branchNull
  | branchSame => safely Machine.branchSame
  | tableSwitch b low high => safely (Machine.tableSwitch b low high)
  | lookupSwitch b keys => safely (Machine.lookupSwitch b keys)
  | newObject c => safely (Machine.newObject c)
  | newArray n c => Machine.newArray n c
  | newMultiArray t dims => Machine.newMultiArray t dims
  | arrayLength a => Machine.arrayLength a
  | arrayLoad w a n => Machine.arrayLoad w a n
  | arrayStore w a n => Machine.arrayStore w a n
  | getField v o n d x => Machine.getField v o n d x
  | putField v o n d => Machine.putField v o n d
  | getStatic o n d x => safely (Machine.getStatic o n d x)
  | putStatic o n d => safely (Machine.putStatic o n d)
  | checkCast t => safely (Machine.checkCast t)
  | instanceOf v t => safely (Machine.instanceOf v t)
  | monitor v => Machine.monitor v
  | enter m s n => safely (Machine.enter m s n)
  | leave => safely Machine.leave
  | leaveWith w => safely (Machine.leaveWith w)
  | callUnwatched d s v => safely (Machine.callUnwatched d s v)
  | throwTo d v => safely (Machine.throwTo d v)

/-- Whether the instruction can fault, so that its answer says something. -/
def mayFault : Instruction → Bool
  | intDivide .. | longDivide .. | newArray .. | newMultiArray .. | arrayLength .. | arrayLoad ..
  | arrayStore .. | getField .. | putField .. | monitor .. => true
  | _ => false

/-- Performs instructions in order, going on after those that fail; answers with what each one
gave. -/
def run : List Instruction → Machine → List (Except Failure Bool) × Machine
  | [], m => ([], m)
  | i :: is, m =>
    let (r, m) := i.exec m
    let (rs, m) := run is m
    (r :: rs, m)

end Instruction

end Concolic
