import Concolic.Yaml.Scalar

/-
# Tokens

A document is cut into tokens.  Inside brackets only the marks count; outside, the column of a key or
of a dash tells where a block begins, and a block ends before the first token that stands further
left.

A key needs no mark before it, so that only its colon shows that it was one.  Until then it is a
candidate; when the colon comes, the token that marks a key is put before it, and if it opens a block
also the token that opens it.

`scan` gives the tokens of a text up to the first place that is no token.
-/
namespace Concolic.Yaml

inductive Token
  /-- The mark `---`. -/
  | documentStart
  /-- The mark `...`. -/
  | documentEnd
  | blockSequence
  | blockMapping
  | blockEnd
  | sequenceOpen
  | sequenceClose
  | mappingOpen
  | mappingClose
  | dash
  | comma
  /-- What follows is a key. -/
  | key
  | colon
  | scalar (s : Scalar)
  /-- The text ends. -/
  | finish
deriving DecidableEq, Repr

/-! ## 1. The state between two tokens -/

/-- A node that turns out to be a key if a colon follows. -/
structure Candidate where
  /-- The number of its first token. -/
  token : Nat
  line : Nat
  column : Nat
  /-- Whether nothing but a key can stand here. -/
  required : Bool
deriving DecidableEq, Repr

/-- Whether a colon at `c` would make a candidate a key: they stand on one line and not too far from
each other. -/
def Candidate.reaches (k : Candidate) (c : Placed) : Bool :=
  k.line = c.line && c.column ≤ k.column + 1024

structure Layout where
  tokens : Array Token := #[]
  /-- The columns of the open blocks, the innermost first. -/
  blocks : List Nat := []
  /-- Whether a key may begin here. -/
  keyAllowed : Bool := true
  candidate : Option Candidate := none
  /-- The candidates around the open brackets, the innermost first. -/
  around : List (Option Candidate) := []
deriving DecidableEq, Repr

namespace Layout

def bracketed (s : Layout) : Bool := !s.around.isEmpty

/-- Adds a token, after which a key may begin or not. -/
def push (s : Layout) (t : Token) (keyAllowed : Bool) : Layout :=
  { s with tokens := s.tokens.push t, keyAllowed }

/-- Opens a block at a column with the token number `n`, unless one is open there. -/
def openBlock (s : Layout) (column : Nat) (opening : Token) (n : Nat) : Layout :=
  if s.bracketed || s.blocks.head?.any (column ≤ ·) then s
  else { s with
    blocks := column :: s.blocks
    tokens := s.tokens.insertIdxIfInBounds n opening }

/-- Closes the blocks for which `p` holds of the column. -/
def closeBlocks (s : Layout) (p : Nat → Bool) : Layout :=
  if s.bracketed then s
  else { s with
    blocks := s.blocks.dropWhile p
    tokens := s.tokens ++ Array.replicate (s.blocks.takeWhile p).length .blockEnd }

/-- Gives the candidate up, which is not possible where a key has to stand. -/
def dismiss (s : Layout) : Option Layout :=
  if s.candidate.any (·.required) then none else some { s with candidate := none }

/-- Makes the node that begins at `c` the candidate, if a key may begin there. -/
def nominate (s : Layout) (c : Placed) : Option Layout :=
  if s.keyAllowed then
    s.dismiss.map fun s => { s with
      candidate := some {
        token := s.tokens.size
        line := c.line
        column := c.column
        required := !s.bracketed && s.blocks.head? = some c.column } }
  else some s

/-! ## 2. One token -/

def openBracket (s : Layout) (c : Placed) (t : Token) : Option Layout :=
  (s.nominate c).map fun s =>
    { s with candidate := none, around := s.candidate :: s.around }.push t true

def closeBracket (s : Layout) (t : Token) : Option Layout :=
  s.dismiss.map fun s =>
    { s with candidate := s.around.head?.join, around := s.around.tail }.push t false

/-- The dash of an item, which opens a sequence if none is open at its column. -/
def dash (s : Layout) (c : Placed) : Option Layout :=
  if s.bracketed || s.keyAllowed then
    (s.openBlock c.column .blockSequence s.tokens.size).dismiss.map (·.push .dash true)
  else none

/-- The question mark before a key. -/
def questionMark (s : Layout) (c : Placed) : Option Layout :=
  if s.bracketed || s.keyAllowed then
    (s.openBlock c.column .blockMapping s.tokens.size).dismiss.map (·.push .key (!s.bracketed))
  else none

/-- The colon behind a key that has a mark of its own, or behind none. -/
def looseColon (s : Layout) (c : Placed) : Option Layout :=
  if s.bracketed || s.keyAllowed then
    some ((s.openBlock c.column .blockMapping s.tokens.size).push .colon (!s.bracketed))
  else none

def colon (s : Layout) (c : Placed) : Option Layout :=
  match s.candidate with
  | none => s.looseColon c
  | some k =>
    if k.reaches c then
      let s := { s with
        candidate := none
        tokens := s.tokens.insertIdxIfInBounds k.token .key }
      some ((s.openBlock k.column .blockMapping k.token).push .colon false)
    else if k.required then none
    else { s with candidate := none }.looseColon c

/-- A scalar in quotes. -/
def quoted (s : Layout) (c : Placed) (read : Option (List Char × List Placed)) :
    Option (Layout × List Placed) := do
  let s ← s.nominate c
  let (text, rest) ← read
  some (s.push (.scalar ⟨String.ofList text, true⟩) false, skipLineComment rest)

/-- A plain scalar.  After a line break a key may begin. -/
def plain (s : Layout) (c : Placed) (cs : List Placed) : Option (Layout × List Placed) := do
  let s ← s.nominate c
  let p ← plainFrom s.bracketed (s.blocks.head?.elim 0 (· + 1)) .empty (c :: cs)
  some (s.push (.scalar ⟨String.ofList p.text, false⟩) p.ended,
    if p.ended then p.rest else skipLineComment p.rest)

/-- A mark that begins or ends a document. -/
def documentMark (s : Layout) (t : Token) : Option Layout :=
  (s.closeBlocks fun _ => true).dismiss.map (·.push t false)

/-- Reads the token that begins with `c`. -/
def next (s : Layout) (c : Placed) (cs : List Placed) : Option (Layout × List Placed) :=
  let s := s.closeBlocks (c.column < ·)
  let mark (s : Option Layout) : Option (Layout × List Placed) :=
    s.map fun s => (s, skipLineComment cs)
  if atMark "---" (c :: cs) then (s.documentMark .documentStart).map fun s => (s, cs.drop 2)
  else if atMark "..." (c :: cs) then (s.documentMark .documentEnd).map fun s => (s, cs.drop 2)
  else if c.char = '[' then mark (s.openBracket c .sequenceOpen)
  else if c.char = '\x7b' then mark (s.openBracket c .mappingOpen)
  else if c.char = ']' then mark (s.closeBracket .sequenceClose)
  else if c.char = '\x7d' then mark (s.closeBracket .mappingClose)
  else if c.char = ',' then mark (s.dismiss.map (·.push .comma true))
  else if c.char = '-' && atWordEnd cs then (s.dash c).map fun s => (s, cs)
  else if c.char = '?' && (s.bracketed || atWordEnd cs) then mark (s.questionMark c)
  else if c.char = ':' && (s.bracketed || atWordEnd cs) then mark (s.colon c)
  else if c.char = '\'' then s.quoted c (readSingle .empty cs)
  else if c.char = '"' then s.quoted c (readDouble 0 .empty cs)
  else if plainBegins s.bracketed (c :: cs) then s.plain c cs
  else none

/-! ## 3. All tokens -/

/-- The tokens that are certain although nothing can be read at `cs`.  A reader of tokens knows the
next two, and waits until a candidate is decided. -/
def certain (s : Layout) (cs : List Placed) : List Token :=
  let undecided := (s.candidate :: s.around).filterMap fun k? =>
    k?.filter fun k => k.required || cs.head?.all k.reaches
  s.tokens.toList.take (undecided.foldl (fun n k => min n k.token) (s.tokens.size - 2))

/-- The tokens of the text `cs` after those of `s`, if `fuel` is at least its length. -/
def scanFrom : Nat → Layout → List Placed → List Token
  | 0, s, cs => s.certain cs
  | fuel + 1, s, cs =>
    match skipToToken s.bracketed .start s.keyAllowed cs with
    | (_, []) =>
      match s.documentMark .finish with
      | some s => s.tokens.toList
      | none => s.certain cs
    | (keyAllowed, c :: rest) =>
      match { s with keyAllowed }.next c rest with
      | some (s, rest) => scanFrom fuel s rest
      | none => s.certain cs

end Layout

/-- The tokens of a text; the last one is `finish` if all of it could be read. -/
def scan (cs : List Char) : List Token :=
  Layout.scanFrom (cs.length + 1) {} (place 0 0 cs)

end Concolic.Yaml
