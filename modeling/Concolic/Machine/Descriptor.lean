import Concolic.Machine.Failure

/-
# Type descriptors

A field descriptor is a letter for a primitive type, a class name between `L` and `;`, or a bracket
before the descriptor of an array's elements.  A method descriptor holds the descriptors of the
arguments between parentheses and the descriptor of the result, which may be `V` for none.

Descriptors are cut at bytes.  Only as much is checked as is needed to find the widths: the type of
an array's elements and what follows the first letter of the result are not looked at.
-/
namespace Concolic.Descriptor

/-- The byte of an ASCII character. -/
def byte (c : Char) : UInt8 := c.toNat.toUInt8

/-- The width that a descriptor begins with; `none` for no value. -/
def width (desc : List UInt8) : Except Violation (Option Width) :=
  match desc with
  | [] => .error .emptyDescriptor
  | b :: _ =>
    if b ∈ [byte 'B', byte 'C', byte 'I', byte 'S', byte 'Z'] then .ok (some .bv32)
    else if b = byte 'J' then .ok (some .bv64)
    else if b = byte 'F' then .ok (some .fp32)
    else if b = byte 'D' then .ok (some .fp64)
    else if b = byte 'L' ∨ b = byte '[' then .ok (some .ref)
    else if b = byte 'V' then .ok none
    else .error (.unknownType desc)

/-- The length of the field descriptor that `s` begins with. -/
def fieldLength (s : List UInt8) : Except Violation Nat :=
  let n := (s.takeWhile (· == byte '[')).length
  match s.drop n with
  | [] => .error (.unfinishedType s)
  | b :: rest =>
    if b ≠ byte 'L' then .ok (n + 1)
    else
      match rest.findIdx? (· == byte ';') with
      | some k => .ok (n + k + 2)
      | none => .error (.unfinishedClass s)

/-- The widths of the arguments up to the closing parenthesis, and what follows it.  The first `skip`
bytes belong to the argument before; `whole` is the method descriptor that is read. -/
def arguments (whole : List UInt8) :
    Nat → List UInt8 → Except Violation (List (Option Width) × List UInt8)
  | _, [] => .error (.methodDescriptor whole)
  | skip + 1, _ :: rest => arguments whole skip rest
  | 0, b :: rest =>
    if b = byte ')' then .ok ([], rest)
    else do
      let n ← fieldLength (b :: rest)
      let w ← width ((b :: rest).take n)
      let (ws, result) ← arguments whole (n - 1) rest
      return (w :: ws, result)

/-- The widths of the arguments and of the result of a method. -/
def method (desc : List UInt8) : Except Violation (List (Option Width) × Option Width) := do
  if desc.length ≤ 2 ∨ desc.head? ≠ some (byte '(') then .error (.methodDescriptor desc)
  let (args, result) ← arguments desc 0 (desc.drop 1)
  return (args, ← width result)

/-- The type of arrays of a component: class names are wrapped, primitive and array descriptors are
kept. -/
def arrayType (component : String) : Except Failure String :=
  match Text.bytes component with
  | [] => .error (.crash .emptyComponent)
  | b :: rest =>
    if rest.isEmpty || b == byte '[' then .ok ("[" ++ component)
    else .ok ("[L" ++ component ++ ";")

end Concolic.Descriptor
