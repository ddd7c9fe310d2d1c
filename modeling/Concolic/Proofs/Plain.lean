import Concolic.Machine.Instruction
import Mathlib.Algebra.Group.Int.Defs
import Mathlib.Algebra.Group.Nat.Defs

/-
# The plain machine

An interpreter that knows numbers and no expressions.  It runs the integer instructions on a stack
of words and a table of locals, reading the divisor off its own stack and not from the host.

Numbers are mathematical integers.  An operation on `w` bits computes the exact result and cuts it
to `w` bits, read as a signed number; the bitwise operations work on the bits as a natural number.
The stack instructions are a table: the sizes of the blocks that they take off the stack, and the
order in which they put blocks back.

An instruction that finds the wrong kind of word, or a local that is not there, is stuck.
-/
namespace Concolic

/-- A value of the plain machine. -/
inductive Word
  | int (v : Int)
  | long (v : Int)
  /-- An operand that is no integer.  It can only be moved. -/
  | other (o : Operand)
deriving DecidableEq, Repr

/-- What slot the value fits. -/
def Word.width : Word → Width
  | int _ => .bv32
  | long _ => .bv64
  | other o => o.width

/-- How many words a value takes. -/
def Word.category (w : Word) : Nat := w.width.category

/-- The stack, the top first, and the locals. -/
structure Plain where
  stack : List Word
  locals : List (Option Word)
deriving DecidableEq, Repr

namespace Plain

/-! ## 1. Arithmetic -/

/-- `z` cut to `w` bits and read as a signed number. -/
def wrap (w : Nat) (z : Int) : Int := z.bmod (2 ^ w)

/-- The low `w` bits of `z`. -/
def bits (w : Nat) (z : Int) : Nat := (z % 2 ^ w).toNat

/-- The low bits of a shift distance: five for 32-bit words, six for 64-bit words. -/
def distance (w : Nat) (n : Int) : Nat := (n % w).toNat

def wordOp (w : Nat) : WordOp → Int → Int → Int
  | .add, a, b => wrap w (a + b)
  | .sub, a, b => wrap w (a - b)
  | .mul, a, b => wrap w (a * b)
  | .and, a, b => wrap w (bits w a &&& bits w b : Nat)
  | .or, a, b => wrap w (bits w a ||| bits w b : Nat)
  | .xor, a, b => wrap w (bits w a ^^^ bits w b : Nat)

def shiftOp (w : Nat) : ShiftOp → Int → Int → Int
  | .shl, a, n => wrap w (a * 2 ^ distance w n)
  | .shr, a, n => a / 2 ^ distance w n
  | .ushr, a, n => wrap w (bits w a / 2 ^ distance w n : Nat)

/-- Division toward zero and its remainder. -/
def divOp (w : Nat) : DivOp → Int → Int → Int
  | .div, a, b => wrap w (a.tdiv b)
  | .rem, a, b => a.tmod b

/-! ## 2. Shuffles -/

/-- A stack instruction takes blocks off the stack and puts some of them back. -/
structure Form where
  /-- How many words each block has, from the top. -/
  sizes : List Nat
  /-- The blocks that are put back, by their numbers and from the top. -/
  back : List Nat
deriving DecidableEq, Repr

def form : Stack.Shuffle → Form
  | .pop => ⟨[1], []⟩
  | .pop2 => ⟨[2], []⟩
  | .dup => ⟨[1], [0, 0]⟩
  | .dupX1 => ⟨[1, 1], [0, 1, 0]⟩
  | .dupX2 => ⟨[1, 2], [0, 1, 0]⟩
  | .dup2 => ⟨[2], [0, 0]⟩
  | .dup2X1 => ⟨[2, 1], [0, 1, 0]⟩
  | .dup2X2 => ⟨[2, 2], [0, 1, 0]⟩
  | .swap => ⟨[1, 1], [1, 0]⟩

/-- The top values that take `n` words together, and the stack beneath them.  A block does not end
inside a value. -/
def block (category : α → Nat) : Nat → List α → Option (List α × List α)
  | 0, s => some ([], s)
  | _ + 1, [] => none
  | n + 1, a :: s =>
    if category a ≤ n + 1 then
      (block category (n + 1 - category a) s).map fun (b, t) => (a :: b, t)
    else none

/-- Blocks of the given sizes, from the top. -/
def blocks (category : α → Nat) : List Nat → List α → Option (List (List α) × List α)
  | [], s => some ([], s)
  | n :: ns, s => do
    let (b, s) ← block category n s
    let (bs, s) ← blocks category ns s
    return (b :: bs, s)

/-- The blocks that a form puts back. -/
def Form.arrange (f : Form) (bs : List (List α)) : List α := f.back.flatMap fun i => bs.getD i []

/-- The stack after a stack instruction. -/
def shuffled (category : α → Nat) (sh : Stack.Shuffle) (s : List α) : Option (List α) := do
  let (bs, s) ← blocks category (form sh).sizes s
  return (form sh).arrange bs ++ s

/-! ## 3. Locals -/

/-- What local `i` holds. -/
def slot (t : List (Option α)) (i : Int) : Option α :=
  if i < 0 then none else (t[i.toNat]?).join

/-- Whether a local holds a value of two words. -/
def isWide (category : α → Nat) : Option α → Bool
  | some a => category a = 2
  | none => false

/-- The locals after a store.  A value of two words empties the local above its own, and a store
into the upper local of such a value destroys it.  There must be room for the whole value. -/
def write (category : α → Nat) (t : List (Option α)) (i : Int) (a : α) :
    Option (List (Option α)) :=
  if 0 ≤ i ∧ i.toNat + category a ≤ t.length then
    some (t.mapIdx fun j x =>
      if j = i.toNat then some a
      else if i.toNat < j ∧ j < i.toNat + category a then none
      else if j + 1 = i.toNat ∧ isWide category x then none
      else x)
  else none

/-! ## 4. Instructions -/

/-- A step of the plain machine, which may be stuck. -/
abbrev Move := StateT Plain Option

def push (w : Word) : Move Unit := modify fun p => { p with stack := w :: p.stack }

def pop : Move Word := do
  match ← get with
  | ⟨[], _⟩ => failure
  | ⟨w :: s, t⟩ =>
    set (⟨s, t⟩ : Plain)
    return w

def popInt : Move Int := do
  match ← pop with
  | .int v => return v
  | _ => failure

def popLong : Move Int := do
  match ← pop with
  | .long v => return v
  | _ => failure

/-- The word of local `i`. -/
def readLocal (i : Int) : Move Word := do
  match slot (← get).locals i with
  | some w => return w
  | none => failure

/-- The int of local `i`. -/
def readInt (i : Int) : Move Int := do
  match ← readLocal i with
  | .int v => return v
  | _ => failure

def writeLocal (i : Int) (w : Word) : Move Unit := do
  match write Word.category (← get).locals i w with
  | some t => modify fun p => { p with locals := t }
  | none => failure

/-- Moves words on the stack. -/
def rearrange (sh : Stack.Shuffle) : Move Unit := do
  match shuffled Word.category sh (← get).stack with
  | some s => modify fun p => { p with stack := s }
  | none => failure

/-- A move that cannot fault. -/
def safely (p : Move Unit) : Move Bool := do
  p
  return false

/-- Pushes a quotient or remainder.  By zero it is a fault, which leaves no result. -/
def divide (word : Int → Word) (w : Nat) (op : DivOp) (a b : Int) : Move Bool :=
  if b = 0 then return true else safely (push (word (divOp w op a b)))

/-- Performs an instruction; answers whether it faulted. -/
def step : Instruction → Move Bool
  | .pushInt v => safely (push (.int v.toInt))
  | .pushLong v => safely (push (.long v.toInt))
  | .load w i => safely do
    let x ← readLocal i
    guard (x.width = w)
    push x
  | .store w i => safely do
    let x ← pop
    guard (x.width = w)
    writeLocal i x
  | .increment i d => safely do
    let v ← readInt i
    writeLocal i (.int (wrap 32 (v + d.toInt)))
  | .intOp op => safely do
    let b ← popInt
    let a ← popInt
    push (.int (wordOp 32 op a b))
  | .intShift op => safely do
    let n ← popInt
    let a ← popInt
    push (.int (shiftOp 32 op a n))
  | .intDivide op _ => do
    let b ← popInt
    let a ← popInt
    divide .int 32 op a b
  | .intNegate => safely do
    let a ← popInt
    push (.int (wrap 32 (-a)))
  | .longOp op => safely do
    let b ← popLong
    let a ← popLong
    push (.long (wordOp 64 op a b))
  | .longShift op => safely do
    let n ← popInt
    let a ← popLong
    push (.long (shiftOp 64 op a n))
  | .longDivide op _ => do
    let b ← popLong
    let a ← popLong
    divide .long 64 op a b
  | .longNegate => safely do
    let a ← popLong
    push (.long (wrap 64 (-a)))
  | .longCompare => safely do
    let b ← popLong
    let a ← popLong
    push (.int (a - b).sign)
  | .convert .intToLong => safely do push (.long (← popInt))
  | .convert .longToInt => safely do push (.int (wrap 32 (← popLong)))
  | .shuffle sh => safely (rearrange sh)
  | _ => failure

/-- Performs instructions in order; answers with the faults. -/
def run : List Instruction → Move (List Bool)
  | [] => pure []
  | i :: is => do
    let b ← step i
    let bs ← run is
    return b :: bs

/-- The instructions of the plain machine. -/
def knows : Instruction → Bool
  | .pushInt _ | .pushLong _ | .load .. | .store .. | .increment .. => true
  | .intOp _ | .intShift _ | .intDivide .. | .intNegate => true
  | .longOp _ | .longShift _ | .longDivide .. | .longNegate | .longCompare => true
  | .convert .intToLong | .convert .longToInt | .shuffle _ => true
  | _ => false

end Plain

end Concolic
