import Concolic.Smt.Term
import Mathlib.Algebra.Group.Int.Defs
import Mathlib.Algebra.Group.Nat.Defs

/-
# The language of the solver

A solver reads S-expressions: numerals, symbols, reserved words, and lists of S-expressions between
parentheses.  A word is a longest run of the characters that simple symbols are made of.  Any text
between bars is a symbol too, and `|s|` is the same symbol as `s`.

A term is an S-expression with a value.  The value is taken in the theory of integers, where `div`
is Euclidean; what it gives by zero is up to the model.

The second half of the file is about texts that are put together from parts.  `Spells cs x` says
that the characters `cs` are read as `x` wherever they stand, as long as nothing follows that would
lengthen their last word.  So a text that is spelled has one reading only (`read_of_spells`).
-/
namespace Concolic.Smt

/-! ## 1. Words -/

def isBlank (c : Char) : Bool := c = ' ' || c = '\t' || c = '\n' || c = '\r'

/-- The characters of simple symbols: letters, digits and some marks. -/
def isWordChar (c : Char) : Bool := c.isAlphanum || "~!@$%^&*_-+=<>.?/".toList.contains c

/-- A simple symbol is not empty and does not begin with a digit. -/
def isSimpleSymbol : List Char → Bool
  | [] => false
  | c :: cs => !c.isDigit && (c :: cs).all isWordChar

/-- The words that are no symbols, because terms and commands are built with them. -/
def reservedWords : List String :=
  ["!", "_", "as", "exists", "forall", "let", "match", "par",
    "BINARY", "DECIMAL", "HEXADECIMAL", "NUMERAL", "STRING",
    "assert", "check-sat", "check-sat-assuming", "declare-const", "declare-datatype",
    "declare-datatypes", "declare-fun", "declare-sort", "define-fun", "define-fun-rec",
    "define-funs-rec", "define-sort", "echo", "exit", "get-assertions", "get-assignment",
    "get-info", "get-model", "get-option", "get-proof", "get-unsat-assumptions",
    "get-unsat-core", "get-value", "pop", "push", "reset", "reset-assertions", "set-info",
    "set-logic", "set-option"]

inductive Atom
  | numeral (n : Nat)
  | symbol (name : String)
  | reserved (word : String)
deriving DecidableEq, Repr

/-- The number that digits stand for.  Only zero begins with a zero. -/
def numeral? : List Char → Option Atom
  | ['0'] => some (.numeral 0)
  | '0' :: _ => none
  | cs => some (.numeral (Nat.ofDigitChars 10 cs 0))

/-- What a word stands for. -/
def word? (cs : List Char) : Option Atom :=
  if cs.all Char.isDigit then numeral? cs
  else if isSimpleSymbol cs then
    if String.ofList cs ∈ reservedWords then some (.reserved (String.ofList cs))
    else some (.symbol (String.ofList cs))
  else none

/-! ## 2. Tokens -/

inductive Token
  | opening
  | closing
  | atom (a : Atom)
deriving DecidableEq, Repr

/-- What was read last. -/
inductive Mode
  | between
  /-- The beginning of a word. -/
  | word (cs : List Char)
  /-- A bar and some characters after it. -/
  | bars (cs : List Char)
deriving DecidableEq, Repr

/-- What a character begins. -/
def start (c : Char) : Option (List Token × Mode) :=
  if isBlank c then some ([], .between)
  else if c = '(' then some ([.opening], .between)
  else if c = ')' then some ([.closing], .between)
  else if c = '|' then some ([], .bars [])
  else if isWordChar c then some ([], .word [c])
  else none

/-- The tokens that a character completes, and what is read after it. -/
def Mode.step : Mode → Char → Option (List Token × Mode)
  | between, c => start c
  | word cs, c =>
    if isWordChar c then some ([], word (cs ++ [c]))
    else do
      let a ← word? cs
      let (ts, m) ← start c
      return (.atom a :: ts, m)
  | bars cs, c =>
    if c = '|' then some ([.atom (.symbol (String.ofList cs))], between)
    else if c = '\\' then none
    else some ([], bars (cs ++ [c]))

/-- The token that the end of the text completes. -/
def Mode.finish : Mode → Option (List Token)
  | between => some []
  | word cs => do return [.atom (← word? cs)]
  | bars _ => none

/-- The tokens of a text. -/
def lex : Mode → List Char → Option (List Token)
  | m, [] => m.finish
  | m, c :: cs => do
    let (ts, m) ← m.step c
    return ts ++ (← lex m cs)

/-! ## 3. S-expressions -/

inductive Sexp
  | atom (a : Atom)
  | list (xs : List Sexp)

/-- A symbol as an S-expression. -/
def Sexp.symbol (name : String) : Sexp := .atom (.symbol name)

/-- Reads tokens.  The list that is being read comes first, then the lists it is an item of, the
innermost first. -/
def parse : List Sexp → List (List Sexp) → List Token → Option (List Sexp)
  | xs, [], [] => some xs
  | _, _ :: _, [] => none
  | xs, outer, .opening :: ts => parse [] (xs :: outer) ts
  | xs, outer, .atom a :: ts => parse (xs ++ [.atom a]) outer ts
  | xs, ys :: outer, .closing :: ts => parse (ys ++ [.list xs]) outer ts
  | _, [], .closing :: _ => none

/-- The one S-expression that a text consists of. -/
def read (s : String) : Option Sexp :=
  match (lex .between s.toList).bind (parse [] []) with
  | some [x] => some x
  | _ => none

/-! ## 4. Values -/

/-- The functions that have a meaning in every model. -/
def theoryFunctions : List String :=
  ["true", "false", "not", "=>", "and", "or", "xor", "=", "distinct", "ite",
    "-", "+", "*", "div", "mod", "abs", "<=", "<", ">=", ">"]

inductive Val
  | int (v : Int)
  | bool (b : Bool)
deriving DecidableEq, Repr

/-- The integers that symbols stand for, and what division by zero gives. -/
structure Model where
  value : String → Int
  divZero : Int → Int

/-- The value of a function of the theory.  Only those that constraints on integers are stated with
are given one. -/
def Model.apply (m : Model) : String → List Val → Option Val
  | "not", [.bool a] => some (.bool !a)
  | "ite", [.bool c, .int a, .int b] => some (.int (if c then a else b))
  | "=", [.int a, .int b] => some (.bool (a = b))
  | "<", [.int a, .int b] => some (.bool (a < b))
  | "<=", [.int a, .int b] => some (.bool (a ≤ b))
  | ">", [.int a, .int b] => some (.bool (b < a))
  | ">=", [.int a, .int b] => some (.bool (b ≤ a))
  | "-", [.int a] => some (.int (-a))
  | "-", [.int a, .int b] => some (.int (a - b))
  | "+", [.int a, .int b] => some (.int (a + b))
  | "*", [.int a, .int b] => some (.int (a * b))
  | "div", [.int a, .int b] => some (.int (if b = 0 then m.divZero a else a / b))
  | _, _ => none

mutual
/-- The value of a term. -/
def Sexp.value (m : Model) : Sexp → Option Val
  | .atom (.numeral n) => some (.int n)
  | .atom (.symbol s) => if s ∈ theoryFunctions then none else some (.int (m.value s))
  | .atom (.reserved _) => none
  | .list (.atom (.symbol f) :: xs) => do m.apply f (← values m xs)
  | .list _ => none

/-- The values of terms. -/
def values (m : Model) : List Sexp → Option (List Val)
  | [] => some []
  | x :: xs => do return (← x.value m) :: (← values m xs)
end

/-! ## 5. Reading words -/

/-- The text does not lengthen a word that stands before it. -/
def Apart (cs : List Char) : Prop := ∀ c ∈ cs.head?, isWordChar c = false

theorem apart_nil : Apart [] := by
  intro c hc
  cases hc

theorem apart_cons {c : Char} (h : isWordChar c = false) (cs : List Char) : Apart (c :: cs) := by
  intro c' hc'
  cases hc'
  exact h

/-- The characters are read as the tokens `ts`, whatever follows. -/
def Lexes (cs : List Char) (ts : List Token) : Prop :=
  ∀ rest, Apart rest → lex .between (cs ++ rest) = (lex .between rest).map (ts ++ ·)

theorem start_of_isWordChar {c : Char} (h : isWordChar c = true) :
    start c = some ([], .word [c]) := by
  have hne : ∀ d : Char, isWordChar d = false → c ≠ d := by
    rintro d hd rfl
    simp [hd] at h
  have hblank : isBlank c = false := by
    simp [isBlank, hne ' ' (by decide), hne '\t' (by decide), hne '\n' (by decide),
      hne '\r' (by decide)]
  simp [start, hblank, hne '(' (by decide), hne ')' (by decide), hne '|' (by decide), h]

theorem lex_word_append {cs : List Char} (h : ∀ c ∈ cs, isWordChar c = true)
    (w rest : List Char) : lex (.word w) (cs ++ rest) = lex (.word (w ++ cs)) rest := by
  induction cs generalizing w with
  | nil => simp
  | cons c cs ih =>
    rw [List.forall_mem_cons] at h
    simp [lex, Mode.step, h.1, ih h.2]

/-- A word ends where no character of a word follows. -/
theorem lex_word_end {w rest : List Char} {a : Atom} (hw : word? w = some a)
    (hrest : Apart rest) :
    lex (.word w) rest = (lex .between rest).map (.atom a :: ·) := by
  cases rest with
  | nil => simp [lex, Mode.finish, hw]
  | cons c cs =>
    have hc : isWordChar c = false := hrest c rfl
    cases hs : start c with
    | none => simp [lex, Mode.step, hc, hw, hs]
    | some p =>
      cases hl : lex p.2 cs with
      | none => simp [lex, Mode.step, hc, hw, hs, hl]
      | some ts => simp [lex, Mode.step, hc, hw, hs, hl]

theorem lexes_word {cs : List Char} {a : Atom} (hne : cs ≠ [])
    (hchars : ∀ c ∈ cs, isWordChar c = true) (hw : word? cs = some a) : Lexes cs [.atom a] := by
  intro rest hrest
  cases cs with
  | nil => exact absurd rfl hne
  | cons c cs =>
    rw [List.forall_mem_cons] at hchars
    have hword : lex .between (c :: cs ++ rest) = lex (.word [c]) (cs ++ rest) := by
      simp [lex, Mode.step, start_of_isWordChar hchars.1]
    rw [hword, lex_word_append hchars.2, List.singleton_append, lex_word_end hw hrest]
    rfl

theorem lex_bars_append {cs : List Char} (h : ∀ c ∈ cs, c ≠ '|' ∧ c ≠ '\\') (w rest : List Char) :
    lex (.bars w) (cs ++ rest) = lex (.bars (w ++ cs)) rest := by
  induction cs generalizing w with
  | nil => simp
  | cons c cs ih =>
    rw [List.forall_mem_cons] at h
    simp [lex, Mode.step, h.1.1, h.1.2, ih h.2]

theorem lexes_bars {cs : List Char} (h : ∀ c ∈ cs, c ≠ '|' ∧ c ≠ '\\') :
    Lexes ('|' :: cs ++ ['|']) [.atom (.symbol (String.ofList cs))] := by
  intro rest _
  have hbars : lex .between ('|' :: cs ++ ['|'] ++ rest) = lex (.bars []) (cs ++ '|' :: rest) := by
    have hstart : start '|' = some ([], .bars []) := by decide
    simp [lex, Mode.step, hstart]
  rw [hbars, lex_bars_append h]
  cases hl : lex .between rest with
  | none => simp [lex, Mode.step, hl]
  | some ts => simp [lex, Mode.step, hl]

/-! ## 6. Reading S-expressions -/

/-- The characters are read as `x` wherever they stand. -/
def Spells (cs : List Char) (x : Sexp) : Prop :=
  ∃ ts, Lexes cs ts ∧
    ∀ xs outer rest, parse xs outer (ts ++ rest) = parse (xs ++ [x]) outer rest

theorem spells_atom {cs : List Char} {a : Atom} (h : Lexes cs [.atom a]) :
    Spells cs (.atom a) := by
  refine ⟨[.atom a], h, fun xs outer rest => ?_⟩
  rw [List.singleton_append, parse]

/-- A text that is spelled has one reading. -/
theorem read_of_spells {s : String} {x : Sexp} (h : Spells s.toList x) : read s = some x := by
  obtain ⟨ts, hlex, hparse⟩ := h
  have htokens : lex .between s.toList = some ts := by
    simpa [lex, Mode.finish] using hlex [] apart_nil
  have hread : parse [] [] ts = some [x] := by
    simpa [parse] using hparse [] [] []
  simp [read, htokens, hread]

/-- Items with a blank before each. -/
def blanked (ps : List (List Char × Sexp)) : List Char := ps.flatMap fun p => ' ' :: p.1

theorem apart_blanked (ps : List (List Char × Sexp)) {rest : List Char} (h : Apart rest) :
    Apart (blanked ps ++ rest) := by
  cases ps with
  | nil => exact h
  | cons p ps => exact apart_cons (by decide) _

/-- Items are read one after the other. -/
theorem blanked_spells {ps : List (List Char × Sexp)} (h : ∀ p ∈ ps, Spells p.1 p.2) :
    ∃ ts, Lexes (blanked ps) ts ∧
      ∀ xs outer rest, parse xs outer (ts ++ rest) = parse (xs ++ ps.map (·.2)) outer rest := by
  induction ps with
  | nil => exact ⟨[], fun rest _ => by simp [blanked], fun xs outer rest => by simp⟩
  | cons p ps ih =>
    rw [List.forall_mem_cons] at h
    obtain ⟨ts, hlex, hparse⟩ := h.1
    obtain ⟨us, hlexes, hparses⟩ := ih h.2
    refine ⟨ts ++ us, fun rest hrest => ?_, fun xs outer rest => ?_⟩
    · have hblank : lex .between (blanked (p :: ps) ++ rest)
          = lex .between (p.1 ++ (blanked ps ++ rest)) := by
        have hstart : start ' ' = some ([], .between) := by decide
        simp [blanked, lex, Mode.step, hstart]
      rw [hblank, hlex _ (apart_blanked ps hrest), hlexes rest hrest]
      simp [Function.comp_def]
    · rw [List.append_assoc, hparse, hparses, List.append_assoc]
      rfl

/-- **A list is spelled by its items with blanks between them, in parentheses.** -/
theorem spells_list {cs : List Char} {x : Sexp} (hx : Spells cs x)
    (ps : List (List Char × Sexp)) (h : ∀ p ∈ ps, Spells p.1 p.2) :
    Spells ('(' :: cs ++ blanked ps ++ [')']) (.list (x :: ps.map (·.2))) := by
  obtain ⟨ts, hlex, hparse⟩ := hx
  obtain ⟨us, hlexes, hparses⟩ := blanked_spells h
  refine ⟨.opening :: ts ++ us ++ [.closing], fun rest _ => ?_, fun xs outer rest => ?_⟩
  · have hopen : ∀ cs, lex .between ('(' :: cs) = (lex .between cs).map (.opening :: ·) := by
      intro cs
      have hstart : start '(' = some ([.opening], .between) := by decide
      cases hl : lex .between cs <;> simp [lex, Mode.step, hstart, hl]
    have hclose : lex .between (')' :: rest) = (lex .between rest).map (.closing :: ·) := by
      have hstart : start ')' = some ([.closing], .between) := by decide
      cases hl : lex .between rest <;> simp [lex, Mode.step, hstart, hl]
    have hend : Apart (')' :: rest) := apart_cons (by decide) rest
    simp only [List.cons_append, List.append_assoc, List.nil_append]
    rw [hopen, hlex _ (apart_blanked ps hend), hlexes _ hend, hclose]
    simp [Function.comp_def]
  · simp only [List.cons_append, List.append_assoc, List.nil_append, parse]
    rw [hparse, hparses]
    simp [parse]

end Concolic.Smt
