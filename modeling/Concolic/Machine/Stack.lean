import Concolic.Machine.Act

/-
# Operands and operand stacks

An operand is an expression with the width of the slot that holds it.

An operand stack is a list of operands, the top first.  A long or a double is one operand, although
it takes two words; the shuffles look at the categories of the operands to tell what they move.

An operation that fails has popped what it looked at.
-/
namespace Concolic

/-! ## 1. Operands -/

inductive Operand
  | bv32 (e : IntExpr)
  | bv64 (e : IntExpr)
  | fp32 (e : RealExpr)
  | fp64 (e : RealExpr)
  | ref (e : RefExpr)
deriving DecidableEq, Repr

namespace Operand

def width : Operand → Width
  | bv32 _ => .bv32
  | bv64 _ => .bv64
  | fp32 _ => .fp32
  | fp64 _ => .fp64
  | ref _ => .ref

/-- How many words the operand takes. -/
def category (o : Operand) : Nat := o.width.category

def expr : Operand → Expr
  | bv32 e => .int e
  | bv64 e => .int e
  | fp32 e => .real e
  | fp64 e => .real e
  | ref e => .ref e

def render (o : Operand) : String :=
  o.width.name ++ ":" ++ o.expr.render

/-- The operand together with its concrete value. -/
def display (o : Operand) : String :=
  o.width.name ++ ":" ++ o.expr.display

/-- The operand of width `w` that holds `e`, if its kind fits. -/
def ofExpr (w : Width) (e : Expr) : Except Violation Operand :=
  match w, e with
  | .bv32, .int e => .ok (bv32 e)
  | .bv64, .int e => .ok (bv64 e)
  | .fp32, .real e => .ok (fp32 e)
  | .fp64, .real e => .ok (fp64 e)
  | .ref, .ref e => .ok (ref e)
  | .bv32, e | .bv64, e => .error (.notInteger w e.kind)
  | .fp32, e | .fp64, e => .error (.notReal w e.kind)
  | .ref, e => .error (.notReference e.kind)

/-- The operand of the width with number `code`; the expression must be there. -/
def ofCode (code : Int) (e : Option Expr) : Except Violation Operand :=
  match e with
  | none => .error (.missingExpr code)
  | some e =>
    match Width.ofCode? code with
    | some w => ofExpr w e
    | none => .error (.invalidWidth code)

end Operand

/-- The operands of a frame, the top first. -/
abbrev Stack := List Operand

namespace Stack

/-! ## 2. Single operands -/

def push (o : Operand) : Act Stack Unit := modify (o :: ·)

/-- Pushes an operand that must be there. -/
def push? : Option Operand → Act Stack Unit
  | some o => push o
  | none => Act.violated .missingOperand

def pop : Act Stack Operand := do
  match ← get with
  | [] => Act.violated .emptyStack
  | o :: rest => set rest; return o

/-- The operand `i` places below the top. -/
def peek (i : Int) : Act Stack Operand := do
  let s ← get
  if i < 0 then Act.violated (.peekRange i s.length)
  else
    match s[i.toNat]? with
    | some o => return o
    | none => Act.violated (.peekRange i s.length)

def clear : Act Stack Unit := set ([] : Stack)

def popInt : Act Stack IntExpr := do
  match ← pop with
  | .bv32 e => return e
  | o => Act.violated (.operandWidth .bv32 o.width)

def popLong : Act Stack IntExpr := do
  match ← pop with
  | .bv64 e => return e
  | o => Act.violated (.operandWidth .bv64 o.width)

def popFloat : Act Stack RealExpr := do
  match ← pop with
  | .fp32 e => return e
  | o => Act.violated (.operandWidth .fp32 o.width)

def popDouble : Act Stack RealExpr := do
  match ← pop with
  | .fp64 e => return e
  | o => Act.violated (.operandWidth .fp64 o.width)

def popRef : Act Stack RefExpr := do
  match ← pop with
  | .ref e => return e
  | o => Act.violated (.operandWidth .ref o.width)

/-! ## 3. Shuffles -/

/-- Pops an operand that takes `n` words. -/
def popCategory (n : Nat) : Act Stack Operand := do
  let o ← pop
  Act.ensure (o.category = n) (.operandCategory n o.width)
  return o

/-- Pops an operand of one word. -/
def pop1 : Act Stack Operand := popCategory 1

/-- Pops an operand of two words. -/
def pop2 : Act Stack Operand := popCategory 2

/-- Pushes operands, the last one ending on top. -/
def pushAll : List Operand → Act Stack Unit
  | [] => pure ()
  | o :: os => do push o; pushAll os

/-- Whether the top operand takes two words. -/
def topIsDouble : Act Stack Bool := do
  return (← peek 0).category = 2

/-- The stack instructions that move operands without looking at their values. -/
inductive Shuffle
  | pop
  | pop2
  | dup
  | dupX1
  | dupX2
  | dup2
  | dup2X1
  | dup2X2
  | swap
deriving DecidableEq, Repr

/-- Discards one operand of two words or two of one word. -/
def discardTwo : Act Stack Unit := do
  if ← topIsDouble then
    discard pop2
  else
    discard pop1
    discard pop1

/-- Copies the top word below the next two. -/
def copyBelowTwo : Act Stack Unit := do
  let a ← pop1
  if ← topIsDouble then
    let b ← pop2
    pushAll [a, b, a]
  else
    let b ← pop1
    let c ← pop1
    pushAll [a, c, b, a]

/-- Copies the top two words. -/
def copyTwo : Act Stack Unit := do
  if ← topIsDouble then
    let a ← pop2
    pushAll [a, a]
  else
    let a ← pop1
    let b ← pop1
    pushAll [b, a, b, a]

/-- Copies the top two words below the next one. -/
def copyTwoBelowOne : Act Stack Unit := do
  if ← topIsDouble then
    let a ← pop2
    let b ← pop1
    pushAll [a, b, a]
  else
    let a ← pop1
    let b ← pop1
    let c ← pop1
    pushAll [b, a, c, b, a]

/-- Copies the top two words below the next two. -/
def copyTwoBelowTwo : Act Stack Unit := do
  if ← topIsDouble then
    let a ← pop2
    if ← topIsDouble then
      let b ← pop2
      pushAll [a, b, a]
    else
      let b ← pop1
      let c ← pop1
      pushAll [a, c, b, a]
  else
    let a ← pop1
    let b ← pop1
    if ← topIsDouble then
      let c ← pop2
      pushAll [b, a, c, b, a]
    else
      let c ← pop1
      let d ← pop1
      pushAll [b, a, d, c, b, a]

def shuffle : Shuffle → Act Stack Unit
  | .pop => discard pop1
  | .pop2 => discardTwo
  | .dup => do
    let a ← pop1
    pushAll [a, a]
  | .dupX1 => do
    let a ← pop1
    let b ← pop1
    pushAll [a, b, a]
  | .dupX2 => copyBelowTwo
  | .dup2 => copyTwo
  | .dup2X1 => copyTwoBelowOne
  | .dup2X2 => copyTwoBelowTwo
  | .swap => do
    let a ← pop1
    let b ← pop1
    pushAll [a, b]

/-! ## 4. Text -/

/-- The operands between brackets, the top last. -/
def render (s : Stack) : String :=
  "[" ++ " ".intercalate (s.reverse.map Operand.render) ++ "]"

end Stack

end Concolic
