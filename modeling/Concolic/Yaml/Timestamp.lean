/-
# Timestamps

A plain scalar may be a point in time: a date, or a date and a time of day.  Month, day, hour, minute
and second have one or two digits, and the seconds may have a fraction.  Behind a letter `T` a zone is
needed, behind spaces there is none.

Only whether a text is a timestamp matters here, not which one.
-/
namespace Concolic.Yaml

/-! ## 1. Parts -/

/-- Reads a number of one or two digits. -/
def readShort : List Char → Option (Nat × List Char)
  | c :: d :: cs =>
    if !c.isDigit then none
    else if d.isDigit then some (10 * (c.toNat - 48) + (d.toNat - 48), cs)
    else some (c.toNat - 48, d :: cs)
  | [c] => if c.isDigit then some (c.toNat - 48, []) else none
  | [] => none

/-- Reads a number of one or two digits within bounds. -/
def readWithin (lo hi : Nat) (cs : List Char) : Option (Nat × List Char) :=
  (readShort cs).filter fun (n, _) => lo ≤ n && n ≤ hi

/-- Reads a character. -/
def readMark (c : Char) : List Char → Option (List Char)
  | d :: cs => if d = c then some cs else none
  | [] => none

def isLeapYear (year : Nat) : Bool := year % 4 = 0 && (year % 100 ≠ 0 || year % 400 = 0)

def daysIn (year month : Nat) : Nat :=
  if month = 2 then if isLeapYear year then 29 else 28
  else if month ∈ [4, 6, 9, 11] then 30
  else 31

/-- Reads a date, the year with four digits. -/
def readDate (cs : List Char) : Option (List Char) := do
  let digits := cs.takeWhile Char.isDigit
  guard (digits.length = 4)
  let year := digits.foldl (fun n c => 10 * n + (c.toNat - 48)) 0
  let cs ← readMark '-' (cs.drop 4)
  let (month, cs) ← readWithin 1 12 cs
  let cs ← readMark '-' cs
  let (_, cs) ← readWithin 1 (daysIn year month) cs
  some cs

/-- Skips the fraction of a second. -/
def skipFraction : List Char → List Char
  | c :: d :: cs =>
    if (c = '.' || c = ',') && d.isDigit then cs.dropWhile Char.isDigit else c :: d :: cs
  | cs => cs

/-- Reads a time of day. -/
def readClock (cs : List Char) : Option (List Char) := do
  let (_, cs) ← readWithin 0 23 cs
  let cs ← readMark ':' cs
  let (_, cs) ← readWithin 0 59 cs
  let cs ← readMark ':' cs
  let (_, cs) ← readWithin 0 59 cs
  some (skipFraction cs)

/-- Whether a text is a zone: `Z`, or the distance from it in hours and minutes of two digits. -/
def isZone : List Char → Bool
  | ['Z'] => true
  | [sign, h, h', ':', m, m'] =>
    (sign = '+' || sign = '-') &&
      (readWithin 0 24 [h, h']).any (·.2.isEmpty) && (readWithin 0 60 [m, m']).any (·.2.isEmpty)
  | _ => false

/-! ## 2. Timestamps -/

/-- Whether a text is a timestamp. -/
def isTimestamp (cs : List Char) : Bool :=
  match readDate cs with
  | none => false
  | some [] => true
  | some (c :: cs) =>
    if c = 'T' || c = 't' then (readClock cs).any isZone
    else c = ' ' && (readClock (cs.dropWhile (· = ' '))).any (·.isEmpty)

end Concolic.Yaml
