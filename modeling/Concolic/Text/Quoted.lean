import Concolic.Text.Utf8
import Concolic.Text.Printable

/-
# Quoted text

`quote` writes a text between double quotes so that it fits on one line: the quote and the backslash
are escaped, seven control characters have an escape of their own, other characters that are not
printable are written by number, and stray bytes as two hexadecimal digits.

`unquote` reads such a text back.  It also accepts octal bytes, and answers with bytes, because
`\x` and octal escapes can spell bytes that are no text.
-/
namespace Concolic.Text

/-! ## 1. Writing -/

/-- The letter that names a control character after a backslash. -/
def controlLetter : Char → Option Char
  | '\x07' => some 'a'
  | '\x08' => some 'b'
  | '\x0c' => some 'f'
  | '\n' => some 'n'
  | '\r' => some 'r'
  | '\t' => some 't'
  | '\x0b' => some 'v'
  | _ => none

/-- A character inside quotes. -/
def quotedChar (c : Char) : List Char :=
  if c = '"' ∨ c = '\\' then ['\\', c]
  else if isPrintable c then [c]
  else
    match controlLetter c with
    | some l => ['\\', l]
    | none =>
      if c.toNat < 0x80 then '\\' :: 'x' :: hexDigits 2 c.toNat
      else if c.toNat < 0x10000 then '\\' :: 'u' :: hexDigits 4 c.toNat
      else '\\' :: 'U' :: hexDigits 8 c.toNat

/-- A character or a stray byte inside quotes. -/
def quotedPiece : Piece → List Char
  | .char c => quotedChar c
  | .stray b => '\\' :: 'x' :: hexDigits 2 b.toNat

/-- Pieces between double quotes. -/
def quotePieces (ps : List Piece) : String :=
  String.ofList ('"' :: ps.flatMap quotedPiece ++ ['"'])

/-- A text between double quotes. -/
def quote (s : String) : String :=
  quotePieces (charPieces s)

/-- Bytes between double quotes, read as UTF-8 as far as they are. -/
def quoteBytes (bs : List UInt8) : String :=
  quotePieces (pieces bs)

/-! ## 2. Reading -/

/-- The value of a hexadecimal digit of either case. -/
def hexValue (c : Char) : Option Nat :=
  let n := c.toNat
  if 48 ≤ n ∧ n ≤ 57 then some (n - 48)
  else if 97 ≤ n ∧ n ≤ 102 then some (n - 87)
  else if 65 ≤ n ∧ n ≤ 70 then some (n - 55)
  else none

/-- The value of an octal digit. -/
def octalValue (c : Char) : Option Nat :=
  if 48 ≤ c.toNat ∧ c.toNat ≤ 55 then some (c.toNat - 48) else none

/-- Reads digits of base `base` into a number, most significant first. -/
def digitsValue (base : Nat) (value : Char → Option Nat) (cs : List Char) : Option Nat :=
  cs.foldlM (fun n c => (value c).map (base * n + ·)) 0

/-- The UTF-8 bytes of the character with number `n`, if there is one. -/
def scalarBytes (n : Nat) : Option (List UInt8) :=
  (shortestForm 0 n).map String.utf8EncodeChar

/-- What the escape with the letter `c` stands for and how many characters it takes after `c`. -/
def escapeBytes (c : Char) (rest : List Char) : Option (List UInt8 × Nat) :=
  match c with
  | 'a' => some ([7], 0)
  | 'b' => some ([8], 0)
  | 'f' => some ([12], 0)
  | 'n' => some ([10], 0)
  | 'r' => some ([13], 0)
  | 't' => some ([9], 0)
  | 'v' => some ([11], 0)
  | '\\' => some ([92], 0)
  | '"' => some ([34], 0)
  | 'x' => do
    guard (2 ≤ rest.length)
    return ([(← digitsValue 16 hexValue (rest.take 2)).toUInt8], 2)
  | 'u' => do
    guard (4 ≤ rest.length)
    return (← scalarBytes (← digitsValue 16 hexValue (rest.take 4)), 4)
  | 'U' => do
    guard (8 ≤ rest.length)
    return (← scalarBytes (← digitsValue 16 hexValue (rest.take 8)), 8)
  | _ => do
    guard (2 ≤ rest.length)
    let n ← digitsValue 8 octalValue (c :: rest.take 2)
    guard (n < 256)
    return ([n.toUInt8], 2)

/-- Reads the inside of a quoted text up to its closing quote, which ends the text; the first
`skip` characters belong to the escape before. -/
def unquoteBody : Nat → List Char → Option (List UInt8)
  | _, [] => none
  | skip + 1, _ :: rest => unquoteBody skip rest
  | 0, ['"'] => some []
  | 0, '\\' :: c :: rest => do
    let (bs, n) ← escapeBytes c rest
    return bs ++ (← unquoteBody (n + 1) (c :: rest))
  | 0, c :: rest =>
    if c = '"' ∨ c = '\n' ∨ c = '\\' then none
    else (unquoteBody 0 rest).map (String.utf8EncodeChar c ++ ·)

/-- The bytes that a double-quoted text stands for. -/
def unquote (s : String) : Option (List UInt8) :=
  match s.toList with
  | '"' :: rest => unquoteBody 0 rest
  | _ => none

end Concolic.Text
