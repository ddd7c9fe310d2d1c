import Concolic.Yaml.Meaning

/-
# Entries by name

The keys of a mapping are scalars with different texts; an entry whose key is null does not count.
The key `<<` merges other mappings, whose entries come after those of the mapping itself.  An entry
is merged once only, and not at all if the mapping has its key as a text; if there its key has another
meaning, both entries stay, the merged one behind.
-/
namespace Concolic.Yaml

/-- Why a mapping has no entries by name. -/
inductive KeyError
  | repeated (key : String)
  | notText
  /-- What is merged is no mapping. -/
  | noMapping
deriving DecidableEq, Repr

abbrev Entries := List (String × Node)

/-- The key that merges. -/
def mergeKey : String := "<<"

def Node.isMerge : Node → Bool
  | scalar s => s = ⟨mergeKey, false⟩
  | _ => false

/-- Whether a key has the given text. -/
def Node.hasText (t : String) : Node → Bool
  | scalar s => s.text = t
  | _ => false

/-- The first text that occurs as a key twice. -/
def repeatedKey : List (Node × Node) → Option String
  | [] => none
  | (.scalar k, _) :: es =>
    if es.any (·.1.hasText k.text) then some k.text else repeatedKey es
  | _ :: es => repeatedKey es

/-- The first entry of every name that is not taken. -/
def Entries.fresh (taken : List String) : Entries → Entries
  | [] => []
  | e :: es => if e.1 ∈ taken then fresh taken es else e :: fresh (e.1 :: taken) es

/-- The entries of a mapping with their keys, and behind them those that it merges. -/
structure Parts where
  own : List (Scalar × Node)
  merged : Entries

def Parts.all (p : Parts) : Entries := (p.own.map fun e => (e.1.text, e.2)) ++ p.merged

/-- The names that no merged entry may have. -/
def Parts.taken (p : Parts) : List String :=
  mergeKey :: (p.own.filter fun e => e.1.meaning = .text).map (·.1.text)

mutual

/-- Divides the entries of a mapping. -/
def splitEntries : List (Node × Node) → Except KeyError Parts
  | [] => .ok ⟨[], []⟩
  | (key, value) :: rest => do
    let parts ← splitEntries rest
    if key.isMerge then return { parts with merged := ← mergedEntries value }
    else
      match key with
      | .scalar s => return if s.isNull then parts else { parts with own := (s, value) :: parts.own }
      | _ => throw .notText

/-- The parts of a mapping, whose keys are all different. -/
def partsOf (es : List (Node × Node)) : Except KeyError Parts :=
  match repeatedKey es with
  | some k => throw (.repeated k)
  | none => splitEntries es

/-- The entries of a mapping, or of some mappings one after the other. -/
def mergedEntries : Node → Except KeyError Entries
  | .mapping es => return (← partsOf es).all
  | .sequence ns => mergedItems ns
  | .scalar _ => throw .noMapping

def mergedItems : List Node → Except KeyError Entries
  | [] => .ok []
  | .mapping es :: ns => return (← partsOf es).all ++ (← mergedItems ns)
  | _ => throw .noMapping

end

/-- The entries that count. -/
def entriesOf (es : List (Node × Node)) : Except KeyError Entries := do
  let parts ← partsOf es
  return { parts with merged := parts.merged.fresh parts.taken }.all

end Concolic.Yaml
