import Concolic.Machine.Mnemonic
import Concolic.Replay.Basic

/-
# Reading lines

A line names an instruction and gives its arguments as texts.  What the line leaves out, such as the
divisor or the index of an access, is read off the operand stack.  Reading changes nothing.
-/
namespace Concolic.Replay

/-! ## 1. Arguments -/

def ofNumeral (r : Except Numeral.Error α) : Except Cause α :=
  r.mapError .numeral

def ofValue (r : Except Host.ValueError α) : Except Cause α :=
  r.mapError .value

/-- A plain decimal number. -/
def readIndex (s : String) : Except Cause Int := ofNumeral (Numeral.parseDecimal s)

/-- A number of 32 bits. -/
def readWord (s : String) : Except Cause Int32 := do
  return Int32.ofInt (← ofNumeral (Numeral.parseInteger 32 s))

def readWords : List String → Except Cause (List Int32)
  | [] => .ok []
  | s :: rest => do
    let v ← readWord s
    return v :: (← readWords rest)

/-- Whether a call has no receiver. -/
def readDispatch : String → Except Cause Bool
  | "static" => .ok true
  | "virtual" => .ok false
  | s => .error (.dispatch s)

/-- What follows the last closing parenthesis. -/
def resultType (desc : String) : String :=
  String.ofList (desc.toList.reverse.takeWhile (· ≠ ')')).reverse

/-! ## 2. Readers -/

/-- How the arguments of an instruction become a step. -/
inductive LineReader
  | args0 (f : Replay → Except Cause Step)
  | args1 (f : Replay → String → Except Cause Step)
  | args2 (f : Replay → String → String → Except Cause Step)
  | args3 (f : Replay → String → String → String → Except Cause Step)
  | args4 (f : Replay → String → String → String → String → Except Cause Step)
  | args5 (f : Replay → String → String → String → String → String → Except Cause Step)
  | many (f : Replay → List String → Except Cause Step)

/-- How many arguments there must be, if that is fixed. -/
def LineReader.arity : LineReader → Nat
  | args0 _ => 0
  | args1 _ => 1
  | args2 _ => 2
  | args3 _ => 3
  | args4 _ => 4
  | args5 _ => 5
  | many _ => 0

/-- Reads the arguments of the instruction with the given name. -/
def LineReader.read (name : String) (l : LineReader) (r : Replay) (args : List String) :
    Except Error Step :=
  let inside (s : Except Cause Step) : Except Error Step := s.mapError (.inside name)
  match l, args with
  | args0 f, [] => inside (f r)
  | args1 f, [a] => inside (f r a)
  | args2 f, [a, b] => inside (f r a b)
  | args3 f, [a, b, c] => inside (f r a b c)
  | args4 f, [a, b, c, d] => inside (f r a b c d)
  | args5 f, [a, b, c, d, e] => inside (f r a b c d e)
  | many f, as => inside (f r as)
  | l, as => .error (.arity name l.arity as.length)

/-- An instruction without arguments. -/
def fixed (i : Instruction) : LineReader := .args0 fun _ => .ok { instruction := i }

/-- An instruction with a plain number. -/
def indexed (f : Int → Instruction) : LineReader :=
  .args1 fun _ s => do return { instruction := f (← readIndex s) }

/-! ## 3. Constants, locals and divisions -/

def readLongConst : LineReader := .args1 fun _ s => do
  let v ← ofNumeral (Numeral.parseInteger 64 s)
  return { instruction := .pushLong (Int64.ofInt v) }

def readFloatConst : LineReader := .args1 fun _ s => do
  return { instruction := .pushFloat (← ofNumeral (Numeral.parseReal .single s)) }

def readDoubleConst : LineReader := .args1 fun _ s => do
  return { instruction := .pushDouble (← ofNumeral (Numeral.parseReal .double s)) }

/-- A constant of the type with the given descriptor. -/
def readConstant : LineReader := .args2 fun r desc s => do
  return { instruction := .pushConstant (← ofValue (r.host.read desc s)) }

def readIncrement : LineReader := .args2 fun _ i d => do
  let i ← readIndex i
  return { instruction := .increment i (← readWord d) }

/-- The divisor is on top of the stack. -/
def readIntDivision (f : Int32 → Instruction) : LineReader := .args0 fun r => do
  return { instruction := f (← r.peekInt 0).toInt32 }

def readLongDivision (f : Int64 → Instruction) : LineReader := .args0 fun r => do
  return { instruction := f (← r.peekInt 0) }

/-! ## 4. Switches -/

def readTableSwitch : LineReader := .args3 fun _ branch low high => do
  let branch ← readWord branch
  let low ← readWord low
  return { instruction := .tableSwitch branch.toInt low (← readWord high) }

/-- The number of the branch and the keys. -/
def readLookupSwitch : LineReader := .many fun _ args => do
  match ← readWords args with
  | [] => .error .noBranch
  | branch :: keys => return { instruction := .lookupSwitch branch.toInt keys }

/-! ## 5. Objects, arrays and fields -/

def readNewObject : LineReader := .args1 fun _ c =>
  .ok { instruction := .newObject c }

/-- The length is on top of the stack. -/
def readNewArray : LineReader := .args1 fun r component => do
  return { instruction := .newArray (← r.peekInt 0).toInt32 component }

/-- The lengths of `n` dimensions from the stack, the outermost first. -/
def peekDims (r : Replay) : Nat → Except Cause (List Int32)
  | 0 => .ok []
  | n + 1 => do
    let v ← r.peekInt n
    return v.toInt32 :: (← peekDims r n)

/-- The type and the number of dimensions, whose lengths are on the stack. -/
def readNewMultiArray : LineReader := .args2 fun r type count => do
  let n ← readIndex count
  if n ≤ 0 then .error (.dimensionCount n)
  if ((← r.stackSize) : Int) < n then .error (.dimensionCount n)
  return { instruction := .newMultiArray type (← peekDims r n.toNat) }

def readArrayLength : LineReader := .args1 fun r name => do
  return { instruction := .arrayLength (← ofValue (r.host.array name)) }

/-- The index is on top of the stack. -/
def readArrayLoad (w : Width) : LineReader := .args1 fun r name => do
  let a ← ofValue (r.host.array name)
  return { instruction := .arrayLoad w a (← r.peekInt 0).toInt32 }

/-- A store of `value`, which is on top of the stack; the index is beneath it. -/
def storeStep (w : Width) (r : Replay) (a : Option HostArray) (value : StackValue) :
    Except Cause Step := do
  let index := (← r.peekInt 1).toInt32
  return ⟨.arrayStore w a index, a.map fun a => ⟨a, index, value⟩⟩

/-- A reference is named by a second argument. -/
def readArrayStore (w : Width) : LineReader :=
  match w with
  | .ref => .args2 fun r name object => do
    let a ← ofValue (r.host.array name)
    storeStep w r a (.object (← ofValue (r.host.lookup object)))
  | .fp32 | .fp64 => .args1 fun r name => do
    let a ← ofValue (r.host.array name)
    storeStep w r a (.real (← r.peekReal 0))
  | .bv32 | .bv64 => .args1 fun r name => do
    let a ← ofValue (r.host.array name)
    storeStep w r a (.int (← r.peekInt 0))

def readGetField : LineReader := .args5 fun r receiver owner name desc s => do
  let receiver ← ofValue (r.host.lookup receiver)
  return { instruction := .getField receiver owner name desc (← ofValue (r.host.read desc s)) }

def readPutField : LineReader := .args4 fun r receiver owner name desc => do
  return { instruction := .putField (← ofValue (r.host.lookup receiver)) owner name desc }

def readGetStatic : LineReader := .args4 fun r owner name desc s => do
  return { instruction := .getStatic owner name desc (← ofValue (r.host.read desc s)) }

def readPutStatic : LineReader := .args3 fun _ owner name desc =>
  .ok { instruction := .putStatic owner name desc }

def readCheckCast : LineReader := .args1 fun _ type =>
  .ok { instruction := .checkCast type }

def readInstanceOf : LineReader := .args2 fun r object type => do
  return { instruction := .instanceOf (← ofValue (r.host.lookup object)) type }

def readMonitor : LineReader := .args1 fun r object => do
  return { instruction := .monitor (← ofValue (r.host.lookup object)) }

/-! ## 6. Calls -/

def readEnter : LineReader := .args5 fun _ owner name desc dispatch size => do
  let static ← readDispatch dispatch
  return { instruction := .enter ⟨owner, name, desc⟩ static (← readIndex size) }

/-- The descriptor, the kind of dispatch and the result, if there is one. -/
def readCall : LineReader := .many fun r args => do
  match args with
  | [desc, dispatch] =>
    return { instruction := .callUnwatched desc (← readDispatch dispatch) .null }
  | [desc, dispatch, s] =>
    let static ← readDispatch dispatch
    let v ← ofValue (r.host.read (resultType desc) s)
    return { instruction := .callUnwatched desc static v }
  | args => .error (.callArity args.length)

def readException : LineReader := .args2 fun r depth object => do
  let depth ← readIndex depth
  return { instruction := .throwTo depth (← ofValue (r.host.lookup object)) }

/-! ## 7. The table -/

/-- The readers by the names of the instructions. -/
def readers : Mnemonic.Names LineReader :=
  Mnemonic.plain.map (fun (n, i) => (n, fixed i)) ++
  Mnemonic.onLocal.map (fun (n, f) => (n, indexed f)) ++
  Mnemonic.branch.map (fun (n, f) => (n, indexed f)) ++
  Mnemonic.intDivision.map (fun (n, f) => (n, readIntDivision f)) ++
  Mnemonic.longDivision.map (fun (n, f) => (n, readLongDivision f)) ++
  Mnemonic.arrayLoad.map (fun (n, w) => (n, readArrayLoad w)) ++
  Mnemonic.arrayStore.map (fun (n, w) => (n, readArrayStore w)) ++
  [("ICONST", indexed fun v => .pushInt (Int32.ofInt v)),
   ("BIPUSH", indexed fun v => .pushInt (Int8.ofInt v).toInt32),
   ("SIPUSH", indexed fun v => .pushInt (Int16.ofInt v).toInt32),
   ("LCONST", readLongConst), ("FCONST", readFloatConst), ("DCONST", readDoubleConst),
   ("LDC", readConstant), ("IINC", readIncrement),
   ("TABLESWITCH", readTableSwitch), ("LOOKUPSWITCH", readLookupSwitch),
   ("NEW", readNewObject), ("NEWARRAY", readNewArray), ("ANEWARRAY", readNewArray),
   ("MULTIANEWARRAY", readNewMultiArray), ("ARRAYLENGTH", readArrayLength),
   ("GETFIELD", readGetField), ("PUTFIELD", readPutField), ("GETSTATIC", readGetStatic),
   ("PUTSTATIC", readPutStatic), ("CHECKCAST", readCheckCast), ("INSTANCEOF", readInstanceOf),
   ("MONITORENTER", readMonitor), ("MONITOREXIT", readMonitor),
   ("INVOKE", readEnter), ("CALL", readCall), ("EXCEPTION", readException)]

end Concolic.Replay
