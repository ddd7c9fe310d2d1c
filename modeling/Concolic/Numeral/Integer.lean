import Concolic.Text.Quoted

/-
# Reading integers

Integers are written in decimal, or with a marked base: `0x` for sixteen, `0o` or a leading `0` for
eight, `0b` for two; with a marked base, underscores may separate digits.  The number must fit
a given number of bits.

A text is refused either because it is not written as the reader demands or because the number it
stands for does not fit.  The message names the reader and quotes the text.

Digits are read from the left and the first fault decides: a text that overflows before its first
bad digit is out of range, not malformed.  Misplaced underscores are only looked for at the end.
-/
namespace Concolic.Numeral

/-! ## 1. Errors -/

inductive Reason
  | malformed
  | outOfRange
deriving DecidableEq, Repr

/-- The reader that refused a text. -/
inductive Reader
  | decimal
  | signed
  | unsigned
  | real
  | boolean
deriving DecidableEq, Repr

structure Error where
  reader : Reader
  text : String
  reason : Reason
deriving DecidableEq, Repr

def Reason.message : Reason → String
  | .malformed => "invalid syntax"
  | .outOfRange => "value out of range"

def Reader.name : Reader → String
  | .decimal => "strconv.Atoi"
  | .signed => "strconv.ParseInt"
  | .unsigned => "strconv.ParseUint"
  | .real => "strconv.ParseFloat"
  | .boolean => "strconv.ParseBool"

def Error.message (e : Error) : String :=
  e.reader.name ++ ": parsing " ++ Text.quote e.text ++ ": " ++ e.reason.message

/-- Turns a reason into an error of `reader` on `text`. -/
def blame (reader : Reader) (text : String) (r : Except Reason α) : Except Error α :=
  r.mapError fun reason => ⟨reader, text, reason⟩

/-! ## 2. Writing -/

/-- The decimal text of an integer. -/
def decimal (n : Int) : String :=
  if n < 0 then "-" ++ Nat.repr n.natAbs else Nat.repr n.natAbs

/-! ## 3. Digits -/

/-- The value of a digit or letter in a base up to thirty-six. -/
def digitValue (c : Char) : Option Nat :=
  let n := c.toNat
  if 48 ≤ n ∧ n ≤ 57 then some (n - 48)
  else if 97 ≤ n ∧ n ≤ 122 then some (n - 87)
  else if 65 ≤ n ∧ n ≤ 90 then some (n - 55)
  else none

/-- Whether `c` is a lower-case letter or its capital. -/
def isLetter (letter c : Char) : Bool :=
  c = letter || c = Char.ofNat (letter.toNat - 32)

/-- Reads the digits of a number of at most `limit`, of which `n` is read so far.  Underscores are
skipped if `marked`. -/
def readDigits (base limit : Nat) (marked : Bool) : Nat → List Char → Except Reason Nat
  | n, [] => .ok n
  | n, c :: cs =>
    if c = '_' ∧ marked then readDigits base limit marked n cs
    else
      match digitValue c with
      | none => .error .malformed
      | some d =>
        if base ≤ d then .error .malformed
        else if limit < n * base + d then .error .outOfRange
        else readDigits base limit marked (n * base + d) cs

/-- The base that the first characters mark, and the digits after the mark. -/
def markedBase : List Char → Nat × List Char
  | '0' :: c :: d :: cs =>
    if isLetter 'b' c then (2, d :: cs)
    else if isLetter 'o' c then (8, d :: cs)
    else if isLetter 'x' c then (16, d :: cs)
    else (8, c :: d :: cs)
  | '0' :: cs => (8, cs)
  | cs => (10, cs)

/-! ## 4. Underscores -/

/-- What stands before a place where an underscore might be. -/
inductive Before
  | digit
  | underscore
  | other
deriving DecidableEq

/-- Whether every underscore stands between two digits. -/
def underscoresFitFrom (hex : Bool) : Before → List Char → Bool
  | before, [] => before != .underscore
  | before, c :: cs =>
    if c.isDigit || (hex && (Text.hexValue c).isSome) then underscoresFitFrom hex .digit cs
    else if c = '_' then before = .digit && underscoresFitFrom hex .underscore cs
    else before != .underscore && underscoresFitFrom hex .other cs

/-- `cs` without a sign at its front. -/
def dropSign : List Char → List Char
  | '+' :: cs => cs
  | '-' :: cs => cs
  | cs => cs

/-- Whether every underscore of a number stands between two digits, its base mark counting as one. -/
def underscoresFit (text : List Char) : Bool :=
  match dropSign text with
  | '0' :: c :: cs =>
    if isLetter 'b' c || isLetter 'o' c || isLetter 'x' c then
      underscoresFitFrom (isLetter 'x' c) .digit cs
    else underscoresFitFrom false .other ('0' :: c :: cs)
  | cs => underscoresFitFrom false .other cs

/-! ## 5. Numbers -/

/-- The natural number below `2 ^ bits` that `cs` stands for; the base is ten, or as marked. -/
def readNatural (marked : Bool) (bits : Nat) (cs : List Char) : Except Reason Nat :=
  if cs.isEmpty then .error .malformed
  else
    let (base, digits) := if marked then markedBase cs else (10, cs)
    match readDigits base (Nat.pow 2 bits - 1) marked 0 digits with
    | .error r => .error r
    | .ok n =>
      if digits.contains '_' && !underscoresFit cs then .error .malformed else .ok n

/-- The integer of `bits` bits in two's complement that `cs` stands for. -/
def readInteger (marked : Bool) (bits : Nat) (cs : List Char) : Except Reason Int :=
  match readNatural marked bits (dropSign cs) with
  | .error r => .error r
  | .ok n =>
    if cs.head? = some '-' then
      if Nat.pow 2 (bits - 1) < n then .error .outOfRange else .ok (-n)
    else if Nat.pow 2 (bits - 1) ≤ n then .error .outOfRange
    else .ok n

/-- Reads a decimal integer of 64 bits. -/
def parseDecimal (s : String) : Except Error Int :=
  blame .decimal s (readInteger false 64 s.toList)

/-- Reads an integer of `bits` bits in any base. -/
def parseInteger (bits : Nat) (s : String) : Except Error Int :=
  blame .signed s (readInteger true bits s.toList)

/-- Reads a natural number of `bits` bits in any base. -/
def parseNatural (bits : Nat) (s : String) : Except Error Nat :=
  blame .unsigned s (readNatural true bits s.toList)

/-! ## 6. Truth values -/

/-- The truth values: the digits, single letters and three spellings of each word. -/
def parseBool (s : String) : Except Error Bool :=
  if s ∈ ["1", "t", "T", "true", "TRUE", "True"] then .ok true
  else if s ∈ ["0", "f", "F", "false", "FALSE", "False"] then .ok false
  else .error ⟨.boolean, s, .malformed⟩

end Concolic.Numeral
