/-
# Characters and their places

Line and column of a character decide what it means: how far a line is indented tells how nodes
nest, and a key ends on the line where it begins.  `place` notes them beside every character.
-/
namespace Concolic.Yaml

/-! ## 1. Blanks and breaks -/

def isBlank (c : Char) : Bool := c = ' ' || c = '\t'

/-- Whether a character ends a line. -/
def isBreak (c : Char) : Bool := c = '\n' || c = '\u2028' || c = '\u2029'

/-- Lets the line feed end every line that the two separators do not end. -/
def unifyBreaks : List Char → List Char
  | [] => []
  | '\r' :: '\n' :: cs => '\n' :: unifyBreaks cs
  | c :: cs => (if c = '\r' || c = '\u0085' then '\n' else c) :: unifyBreaks cs

/-- Whether a character may occur in a document. -/
def isAllowed (c : Char) : Bool :=
  let n := c.toNat
  n = 0x09 || n = 0x0A || n = 0x0D || (0x20 ≤ n && n ≤ 0x7E) || n = 0x85 ||
    (0xA0 ≤ n && n ≤ 0xFFFD) || 0x10000 ≤ n

/-! ## 2. Places -/

/-- A character and where it stands. -/
structure Placed where
  char : Char
  line : Nat
  column : Nat
deriving DecidableEq, Repr

/-- The characters of a text that begins at the given place. -/
def place (line column : Nat) : List Char → List Placed
  | [] => []
  | c :: cs =>
    ⟨c, line, column⟩ :: if isBreak c then place (line + 1) 0 cs else place line (column + 1) cs

def Placed.isBlank (c : Placed) : Bool := Yaml.isBlank c.char

def Placed.isBreak (c : Placed) : Bool := Yaml.isBreak c.char

/-- Whether a character divides words. -/
def Placed.divides (c : Placed) : Bool := c.isBlank || c.isBreak

/-- Whether a word ends here. -/
def atWordEnd : List Placed → Bool
  | [] => true
  | c :: _ => c.divides

/-- Whether the next character is `c`. -/
def startsWith (c : Char) (cs : List Placed) : Bool := cs.head?.any (·.char = c)

/-- Whether the first word of a line is the given one of three characters. -/
def atMark (mark : String) (cs : List Placed) : Bool :=
  cs.head?.any (·.column = 0) && (cs.take 3).map (·.char) = mark.toList && atWordEnd (cs.drop 3)

/-- Whether a document begins or ends here. -/
def atDocumentMark (cs : List Placed) : Bool := atMark "---" cs || atMark "..." cs

/-! ## 3. Comments -/

/-- Skips the comment that stands on the rest of the line, if there is one. -/
def skipLineComment (cs : List Placed) : List Placed :=
  let rest := cs.dropWhile (·.isBlank)
  if startsWith '#' rest then rest.dropWhile (!·.isBreak) else cs

/-- Whether a comment comes before the next word. -/
def leadsToComment (cs : List Placed) : Bool := startsWith '#' (cs.dropWhile (·.divides))

/-- How far the way to the next token has come. -/
inductive Stretch
  | start
  | comment
  | afterComment
deriving DecidableEq, Repr

/-- Skips what stands before the next token: blanks, line breaks and comments.  Where a key may begin
a tab is no blank, unless it stands between two comments.  Outside brackets a key may begin on every
new line; whether one may begin here is told too. -/
def skipToToken (bracketed : Bool) : Stretch → Bool → List Placed → Bool × List Placed
  | _, keyAllowed, [] => (keyAllowed, [])
  | .comment, keyAllowed, c :: cs =>
    if c.isBreak then skipToToken bracketed .afterComment (keyAllowed || !bracketed) cs
    else skipToToken bracketed .comment keyAllowed cs
  | stretch, keyAllowed, c :: cs =>
    if c.isBreak then skipToToken bracketed stretch (keyAllowed || !bracketed) cs
    else if c.char = '#' then skipToToken bracketed .comment keyAllowed cs
    else if c.char = ' ' || (c.char = '\ufeff' && c.column = 0) ||
        (c.char = '\t' && (bracketed || !keyAllowed || (stretch = .afterComment && leadsToComment cs)))
    then skipToToken bracketed stretch keyAllowed cs
    else (keyAllowed, c :: cs)

end Concolic.Yaml
