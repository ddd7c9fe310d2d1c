/-
# Text as bytes

Names and type descriptors are cut at byte positions, so a cut may fall inside a character.
`bytes` is the UTF-8 form of a text; `pieces` reads bytes back, one character at a time, and
keeps every byte that begins no whole character as a stray byte of its own.

`firstChar` treats the four UTF-8 lengths one by one.  It refuses what no character is written as:
overlong forms, surrogates and numbers above U+10FFFF.
-/
namespace Concolic.Text

/-- The UTF-8 bytes of a text. -/
def bytes (s : String) : List UInt8 :=
  s.toList.flatMap String.utf8EncodeChar

/-- What stands at a position of a byte string: a whole character, or a byte that starts none. -/
inductive Piece
  | char (c : Char)
  | stray (b : UInt8)
deriving DecidableEq, Repr

/-- The six payload bits of a continuation byte, if `b` is one. -/
def continuation (b : UInt8) : Option Nat :=
  if 0x80 ≤ b.toNat ∧ b.toNat < 0xC0 then some (b.toNat - 0x80) else none

/-- The number `n` as a character written with the least number of bytes, `least` being the
smallest number of that length. -/
def shortestForm (least n : Nat) : Option Char :=
  if least ≤ n ∧ (n < 0xD800 ∨ (0xDFFF < n ∧ n ≤ 0x10FFFF)) then some (Char.ofNat n) else none

/-- The character that the bytes begin with and the number of its bytes. -/
def firstChar : List UInt8 → Option (Char × Nat)
  | [] => none
  | a :: rest =>
    let a := a.toNat
    if a < 0x80 then some (Char.ofNat a, 1)
    else if a < 0xC0 then none
    else if a < 0xE0 then do
      let x ← rest[0]? >>= continuation
      return (← shortestForm 0x80 ((a - 0xC0) * 0x40 + x), 2)
    else if a < 0xF0 then do
      let x ← rest[0]? >>= continuation
      let y ← rest[1]? >>= continuation
      return (← shortestForm 0x800 (((a - 0xE0) * 0x40 + x) * 0x40 + y), 3)
    else if a < 0xF8 then do
      let x ← rest[0]? >>= continuation
      let y ← rest[1]? >>= continuation
      let z ← rest[2]? >>= continuation
      return (← shortestForm 0x10000 ((((a - 0xF0) * 0x40 + x) * 0x40 + y) * 0x40 + z), 4)
    else none

/-- `pieces` after `skip` bytes that belong to the character before. -/
def piecesAfter : Nat → List UInt8 → List Piece
  | _, [] => []
  | skip + 1, _ :: rest => piecesAfter skip rest
  | 0, b :: rest =>
    match firstChar (b :: rest) with
    | some (c, n) => .char c :: piecesAfter (n - 1) rest
    | none => .stray b :: piecesAfter 0 rest

/-- Reads bytes as UTF-8; a byte that begins no whole character stands for itself. -/
def pieces (bs : List UInt8) : List Piece :=
  piecesAfter 0 bs

/-- The pieces of a text are its characters. -/
def charPieces (s : String) : List Piece :=
  s.toList.map .char

/-- The character with the hexadecimal digit `n`, in lower case. -/
def hexDigit (n : Nat) : Char :=
  if n < 10 then Char.ofNat (n + 48) else Char.ofNat (n + 87)

/-- `n` in lower-case hexadecimal with exactly `width` digits. -/
def hexDigits : Nat → Nat → List Char
  | 0, _ => []
  | width + 1, n => hexDigits width (n / 16) ++ [hexDigit (n % 16)]

/-- Two hexadecimal digits for every byte. -/
def hexBytes (bs : List UInt8) : String :=
  String.ofList (bs.flatMap fun b => hexDigits 2 b.toNat)

end Concolic.Text
