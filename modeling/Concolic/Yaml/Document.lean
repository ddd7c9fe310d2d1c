import Concolic.Yaml.Token

/-
# Nodes from tokens

The tokens of a document make up one node.  A place between two tokens where a node is missing holds
the empty scalar: behind a dash, a question mark or a colon.

`parse` reads the first document of a text; what follows it does not matter.
-/
namespace Concolic.Yaml

/-! ## 1. Nodes -/

mutual

/-- Reads a node.  Blocks stand outside brackets only, and the items of a sequence that is the value
of a key may stand as far left as the key (`dashes`). -/
def readNode : Nat → Bool → Bool → List Token → Option (Node × List Token)
  | 0, _, _, _ => none
  | fuel + 1, block, dashes, ts =>
    match ts with
    | .scalar s :: ts => some (.scalar s, ts)
    | .sequenceOpen :: ts => (readItems fuel true ts).map fun (xs, ts) => (.sequence xs, ts)
    | .mappingOpen :: ts => (readEntries fuel true ts).map fun (es, ts) => (.mapping es, ts)
    | .blockSequence :: ts =>
      if block then (readDashes fuel true ts).map fun (xs, ts) => (.sequence xs, ts) else none
    | .blockMapping :: ts =>
      if block then (readBlockEntries fuel ts).map fun (es, ts) => (.mapping es, ts) else none
    | .dash :: _ =>
      if dashes then (readDashes fuel false ts).map fun (xs, ts) => (.sequence xs, ts) else none
    | _ => none

/-- Reads a node unless one of the given tokens comes first. -/
def readNodeBefore : Nat → Bool → Bool → List Token → List Token → Option (Node × List Token)
  | 0, _, _, _, _ => none
  | fuel + 1, block, dashes, stops, ts =>
    if ts.head?.any (· ∈ stops) then some (.empty, ts) else readNode fuel block dashes ts

/-- Reads what follows a colon, if there is one. -/
def readColonNode : Nat → Bool → List Token → List Token → Option (Node × List Token)
  | 0, _, _, _ => none
  | fuel + 1, block, stops, ts =>
    match ts with
    | .colon :: ts => readNodeBefore fuel block block stops ts
    | ts => some (.empty, ts)

/-- Reads items behind dashes; a sequence in a block of its own ends with the block. -/
def readDashes : Nat → Bool → List Token → Option (List Node × List Token)
  | 0, _, _ => none
  | fuel + 1, ownBlock, ts =>
    match ts with
    | .dash :: ts => do
      let stops := if ownBlock then [.dash, .blockEnd] else [.dash, .key, .colon, .blockEnd]
      let (item, ts) ← readNodeBefore fuel true false stops ts
      let (items, ts) ← readDashes fuel ownBlock ts
      some (item :: items, ts)
    | .blockEnd :: rest => some ([], if ownBlock then rest else ts)
    | ts => if ownBlock then none else some ([], ts)

/-- Reads the entries of a mapping in a block. -/
def readBlockEntries : Nat → List Token → Option (List (Node × Node) × List Token)
  | 0, _ => none
  | fuel + 1, ts =>
    match ts with
    | .key :: ts => do
      let (key, ts) ← readNodeBefore fuel true true [.key, .colon, .blockEnd] ts
      let (value, ts) ← readColonNode fuel true [.key, .colon, .blockEnd] ts
      let (entries, ts) ← readBlockEntries fuel ts
      some ((key, value) :: entries, ts)
    | .blockEnd :: ts => some ([], ts)
    | _ => none

/-- Reads the items of a sequence between brackets.  The first stands behind the bracket, the others
behind commas; a comma may also stand behind the last. -/
def readItems : Nat → Bool → List Token → Option (List Node × List Token)
  | 0, _, _ => none
  | fuel + 1, first, ts =>
    match first, ts with
    | _, .sequenceClose :: ts => some ([], ts)
    | false, .comma :: .sequenceClose :: ts => some ([], ts)
    | true, ts | false, .comma :: ts => do
      let (item, ts) ← readItem fuel ts
      let (items, ts) ← readItems fuel false ts
      some (item :: items, ts)
    | false, _ => none

/-- Reads an item between brackets.  A pair is a mapping of its own; the token behind an empty key
belongs to it. -/
def readItem : Nat → List Token → Option (Node × List Token)
  | 0, _ => none
  | fuel + 1, ts =>
    match ts with
    | .key :: ts => do
      let (key, ts) ←
        if ts.head?.any (· ∈ [.colon, .comma, .sequenceClose]) then some (.empty, ts.tail)
        else readNode fuel false false ts
      let (value, ts) ← readColonNode fuel false [.comma, .sequenceClose] ts
      some (.mapping [(key, value)], ts)
    | ts => readNode fuel false false ts

/-- Reads the entries of a mapping between brackets, divided like items. -/
def readEntries : Nat → Bool → List Token → Option (List (Node × Node) × List Token)
  | 0, _, _ => none
  | fuel + 1, first, ts =>
    match first, ts with
    | _, .mappingClose :: ts => some ([], ts)
    | false, .comma :: .mappingClose :: ts => some ([], ts)
    | true, ts | false, .comma :: ts => do
      let (entry, ts) ← readEntry fuel ts
      let (entries, ts) ← readEntries fuel false ts
      some (entry :: entries, ts)
    | false, _ => none

/-- Reads an entry between brackets.  A node that is no key has no value. -/
def readEntry : Nat → List Token → Option ((Node × Node) × List Token)
  | 0, _ => none
  | fuel + 1, ts =>
    match ts with
    | .key :: ts => do
      let (key, ts) ← readNodeBefore fuel false false [.colon, .comma, .mappingClose] ts
      let (value, ts) ← readColonNode fuel false [.comma, .mappingClose] ts
      some ((key, value), ts)
    | ts => (readNode fuel false false ts).map fun (key, ts) => ((key, .empty), ts)

end

/-! ## 2. Documents -/

/-- Why a text is no document. -/
inductive Error
  | empty
  | malformed
deriving DecidableEq, Repr

/-- Reads the node of a document and the token behind it, which is needed to tell its end. -/
def readDocument (ts : List Token) : Option Node :=
  match readNode (4 * ts.length + 4) true false ts with
  | some (node, _ :: _) => some node
  | _ => none

/-- The node of the first document.  Behind the mark of its start a document may be empty. -/
def ofTokens (ts : List Token) : Option Node :=
  match ts with
  | .documentStart :: .documentStart :: _ => some .empty
  | .documentStart :: .documentEnd :: _ => some .empty
  | .documentStart :: .finish :: _ => some .empty
  | .documentStart :: ts => readDocument ts
  | ts => readDocument ts

/-- The first document of a text. -/
def parse (s : String) : Except Error Node :=
  let cs := match s.toList with
    | '\ufeff' :: cs => cs
    | cs => cs
  if cs.all isAllowed then
    let ts := scan (unifyBreaks cs)
    match ofTokens ts with
    | some node => .ok node
    | none => .error (if ts = [Token.finish] then .empty else .malformed)
  else .error .malformed

end Concolic.Yaml
