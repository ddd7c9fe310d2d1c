import Concolic.Text.Quoted
import Concolic.Yaml.Place

/-
# Scalars

A document is a tree of scalars, sequences and mappings.  A scalar remembers whether it stood in
quotes: a scalar without quotes may stand for null, a truth value or a number, one in quotes is
always a text.

How scalars are written: between double quotes, where a backslash escapes, between single quotes,
where a quote is written twice, or plainly.  A scalar may go on on further lines: a single line break
between two words counts as a space, and empty lines count as line breaks.

A reader answers with what follows the scalar.
-/
namespace Concolic.Yaml

/-! ## 1. Documents as trees -/

structure Scalar where
  text : String
  quoted : Bool
deriving DecidableEq, Repr

/-- The scalar of a place that was left empty. -/
def Scalar.empty : Scalar := ⟨"", false⟩

inductive Node
  | scalar (s : Scalar)
  | sequence (items : List Node)
  | mapping (entries : List (Node × Node))
deriving Repr

/-- The node of a place that was left empty. -/
def Node.empty : Node := .scalar .empty

/-! ## 2. Between words -/

/-- What stands between two words of a scalar: blanks on one line, or line breaks.  The first break is
missing if a backslash took it away; blanks beside breaks do not count. -/
inductive Gap
  | blanks (cs : List Char)
  | breaks (first : Option Char) (more : List Char)
deriving DecidableEq, Repr

/-- No gap at all. -/
def Gap.empty : Gap := .blanks []

def Gap.isEmpty (g : Gap) : Bool := g = .empty

def Gap.isBroken : Gap → Bool
  | blanks _ => false
  | breaks .. => true

/-- The gap with one more blank or break. -/
def Gap.add (c : Char) : Gap → Gap
  | blanks cs => if isBreak c then breaks (some c) [] else blanks (cs ++ [c])
  | breaks first more => breaks first (if isBreak c then more ++ [c] else more)

/-- The text that a gap stands for. -/
def Gap.text : Gap → List Char
  | blanks cs => cs
  | breaks (some '\n') [] => [' ']
  | breaks (some '\n') more => more
  | breaks first more => first.toList ++ more

/-! ## 3. Quotes -/

/-- The character that a letter stands for after a backslash. -/
def escapeLetter : Char → Option Char
  | '0' => some '\x00'
  | 'a' => some '\x07'
  | 'b' => some '\x08'
  | 't' | '\t' => some '\t'
  | 'n' => some '\n'
  | 'v' => some '\x0b'
  | 'f' => some '\x0c'
  | 'r' => some '\r'
  | 'e' => some '\x1b'
  | ' ' => some ' '
  | '"' => some '"'
  | '\'' => some '\''
  | '\\' => some '\\'
  | 'N' => some '\u0085'
  | '_' => some '\u00a0'
  | 'L' => some '\u2028'
  | 'P' => some '\u2029'
  | _ => none

/-- How many hexadecimal digits follow a letter after a backslash. -/
def escapeDigits : Char → Option Nat
  | 'x' => some 2
  | 'u' => some 4
  | 'U' => some 8
  | _ => none

/-- The character with the number that `n` hexadecimal digits give. -/
def hexChar (n : Nat) (cs : List Placed) : Option Char :=
  if (cs.take n).length < n then none
  else
    match Text.digitsValue 16 Text.hexValue ((cs.take n).map (·.char)) with
    | none => none
    | some v => if h : v.isValidChar then some (Char.ofNatAux v h) else none

/-- Reads up to the closing double quote; the first `skip` characters belong to an escape, and `gap`
stands before the others. -/
def readDouble : Nat → Gap → List Placed → Option (List Char × List Placed)
  | _, _, [] => none
  | skip + 1, gap, _ :: cs => readDouble skip gap cs
  | 0, gap, c :: cs =>
    if c.divides then readDouble 0 (gap.add c.char) cs
    else if atDocumentMark (c :: cs) then none
    else if c.char = '"' then some (gap.text, cs)
    else if c.char = '\\' then
      match cs with
      | [] => none
      | e :: more =>
        if e.isBreak then
          (readDouble 1 (.breaks none []) cs).map fun (t, r) => (gap.text ++ t, r)
        else
          match escapeLetter e.char, escapeDigits e.char with
          | some d, _ => (readDouble 1 .empty cs).map fun (t, r) => (gap.text ++ d :: t, r)
          | none, some n =>
            match hexChar n more with
            | some d => (readDouble (n + 1) .empty cs).map fun (t, r) => (gap.text ++ d :: t, r)
            | none => none
          | none, none => none
    else (readDouble 0 .empty cs).map fun (t, r) => (gap.text ++ c.char :: t, r)

/-- Reads up to the closing single quote; `gap` stands before. -/
def readSingle : Gap → List Placed → Option (List Char × List Placed)
  | _, [] => none
  | gap, c :: cs =>
    if c.divides then readSingle (gap.add c.char) cs
    else if atDocumentMark (c :: cs) then none
    else if c.char = '\'' then
      match cs with
      | d :: more =>
        if d.char = '\'' then
          (readSingle .empty more).map fun (t, r) => (gap.text ++ '\'' :: t, r)
        else some (gap.text, cs)
      | [] => some (gap.text, [])
    else (readSingle .empty cs).map fun (t, r) => (gap.text ++ c.char :: t, r)

/-! ## 4. Plain scalars -/

/-- The characters with a meaning of their own at the start of a node. -/
def isIndicator (c : Char) : Bool :=
  c ∈ ['-', '?', ':', ',', '[', ']', '\x7b', '\x7d', '#', '&', '*', '!', '|', '>', '\'', '"',
    '%', '@', '\x60']

/-- Whether a plain scalar can begin here. -/
def plainBegins (bracketed : Bool) : List Placed → Bool
  | [] => false
  | c :: cs =>
    if c.divides then false
    else if !isIndicator c.char then true
    else if c.char = '-' then !cs.head?.any (·.isBlank)
    else !bracketed && (c.char = '?' || c.char = ':') && !atWordEnd cs

/-- The characters that end a plain scalar between brackets. -/
def isFlowMark (c : Char) : Bool := c ∈ [',', '?', '[', ']', '\x7b', '\x7d']

/-- Whether a plain scalar ends before a word.  Outside brackets its lines are indented by at least
`floor`. -/
def plainEnds (bracketed : Bool) (floor : Nat) (gap : Gap) (c : Placed) (cs : List Placed) : Bool :=
  (!gap.isEmpty && c.char = '#') ||
    (gap.isBroken && !bracketed && c.column < floor) ||
    atDocumentMark (c :: cs) ||
    (c.char = ':' && atWordEnd cs) ||
    (bracketed && isFlowMark c.char)

/-- A plain scalar that was read. -/
structure Plain where
  text : List Char
  /-- Whether what follows stands on another line. -/
  ended : Bool
  rest : List Placed
deriving DecidableEq, Repr

/-- Reads a plain scalar before which `gap` stands; the gap belongs to it only if more of it follows.
No tab may stand where a line has to be indented. -/
def plainFrom (bracketed : Bool) (floor : Nat) (gap : Gap) : List Placed → Option Plain
  | [] => some ⟨[], gap.isBroken, []⟩
  | c :: cs =>
    if c.divides then
      if gap.isBroken && c.char = '\t' && c.column < floor then none
      else plainFrom bracketed floor (gap.add c.char) cs
    else if plainEnds bracketed floor gap c cs then some ⟨[], gap.isBroken, c :: cs⟩
    else
      (plainFrom bracketed floor .empty cs).map fun p =>
        { p with text := gap.text ++ c.char :: p.text }

end Concolic.Yaml
