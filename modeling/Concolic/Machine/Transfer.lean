import Concolic.Machine.State

/-
# Constants, locals and branches

The instructions that push constants, move operands between the stack and the locals and transfer
control.

A branch tells the collector the relation that held, negated if the branch did not find it so.  The
host passes the number of the branch.  Comparisons of references tell nothing.
-/
namespace Concolic.Machine

/-! ## 1. Constants and locals -/

def pushNull : Act Machine Unit := push (.ref .null)

def pushInt (v : Int32) : Act Machine Unit := push (.bv32 (.const v.toInt64))

def pushLong (v : Int64) : Act Machine Unit := push (.bv64 (.const v))

def pushFloat (v : Double) : Act Machine Unit := push (.fp32 (.const v))

def pushDouble (v : Double) : Act Machine Unit := push (.fp64 (.const v))

/-- Pushes an entry of the constant pool: a number or a text, of which the reference is pushed. -/
def pushConstant : Value → Act Machine Unit
  | .int v => pushInt v
  | .long v => pushLong v
  | .float v => pushFloat v
  | .double v => pushDouble v
  | .text bs => do
    discard topFrame
    push (.ref (← onHeap (Heap.reference (.text bs))))
  | v => Act.violated (.notLoadable v)

/-- Pushes the local `i`, which must have width `w`. -/
def load (w : Width) (i : Int) : Act Machine Unit := do
  let o ← onLocals (Locals.read i)
  Act.ensure (o.width = w) (.loadWidth i w o.width)
  push o

/-- Pops an operand of width `w` into the local `i`. -/
def store (w : Width) (i : Int) : Act Machine Unit := do
  let o ← onStack Stack.pop
  Act.ensure (o.width = w) (.storeWidth i w o.width)
  onLocals (Locals.write i o)

/-! ## 2. Branches and switches -/

/-- Reports `lhs r rhs`, or its negation if it does not hold on this run. -/
def branchOn (branch : Int) (lhs : IntExpr) (r : Relation) (rhs : IntExpr) : Act Machine Unit :=
  let held := if r.holds lhs.concrete rhs.concrete then r else r.negate
  decideBranch (.relate lhs held rhs) branch

/-- Compares an int with zero. -/
def branchZero (r : Relation) (branch : Int) : Act Machine Unit := do
  let e ← onStack Stack.popInt
  branchOn branch e r (.const 0)

/-- Compares two ints. -/
def branchCompare (r : Relation) (branch : Int) : Act Machine Unit := do
  let rhs ← onStack Stack.popInt
  let lhs ← onStack Stack.popInt
  branchOn branch lhs r rhs

/-- Tests a reference for null. -/
def branchNull : Act Machine Unit := discard (onStack Stack.popRef)

/-- Compares two references. -/
def branchSame : Act Machine Unit := do
  discard (onStack Stack.popRef)
  discard (onStack Stack.popRef)

/-- A switch over the ints from `low` to `high`: reports on which side of the range the selector
fell, or which value in it it had. -/
def tableSwitch (branch : Int) (low high : Int32) : Act Machine Unit := do
  let e ← onStack Stack.popInt
  if e.concrete < low.toInt64 then
    decideBranch (.relate e .lt (.const low.toInt64)) branch
  else if high.toInt64 < e.concrete then
    decideBranch (.relate e .gt (.const high.toInt64)) branch
  else decideBranch (.relate e .eq (.const e.concrete)) branch

/-- Reports that the selector differs from each key. -/
def excludeKeys (branch : Int) (e : IntExpr) : List Int32 → Act Machine Unit
  | [] => pure ()
  | k :: ks => do
    decideBranch (.relate e .ne (.const k.toInt64)) branch
    excludeKeys branch e ks

/-- A switch over single keys: reports the key that matched, or that none did. -/
def lookupSwitch (branch : Int) (keys : List Int32) : Act Machine Unit := do
  let e ← onStack Stack.popInt
  if keys.any fun k => k.toInt64 = e.concrete then
    decideBranch (.relate e .eq (.const e.concrete)) branch
  else excludeKeys branch e keys

end Concolic.Machine
