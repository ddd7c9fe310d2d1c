import Concolic.Proofs.SolverLanguage
import Concolic.Text.Quoted

/-
# What string literals stand for

In the solver's language a string literal stands between quotes, and a quote inside is written
twice.  Its contents are not yet the string.  `\u` and four hexadecimal digits, or one to five in
braces, are an escape and stand for the character with that number; a backslash anywhere else
stands for itself.  A string is the list of the numbers of its characters, which go up to `0x2ffff`
and need not be those of a `Char`.

The printer doubles quotes and leaves everything else alone.  That is right for the quotes: a
literal is read up to its own closing quote, and the contents are the string it was made of
(`literal?_eq_some_iff`).  It is not right for backslashes: an escape that occurs in the string is
taken for what it would stand for, so that a literal denotes its string exactly if no escape occurs
in the string (`stringText_denotes_iff`).  The six characters `\u0041` are handed over as the one
letter `A` (`spelledA_denotes`).
-/
namespace Concolic.Smt

/-! ## 1. Literals -/

/-- What may stand in a literal: white space, and every character from the blank on but the one for
deletion. -/
def isTextChar (c : Char) : Bool := isBlank c || (0x20 ≤ c.toNat && c.toNat != 0x7f)

/-- The contents of a literal whose opening quote was read, and what follows it.  Two quotes in a
row never end it. -/
def contents? : List Char → Option (List Char × List Char)
  | [] => none
  | '"' :: '"' :: cs => (contents? cs).map fun p => ('"' :: p.1, p.2)
  | '"' :: cs => some ([], cs)
  | c :: cs => if isTextChar c then (contents? cs).map fun p => (c :: p.1, p.2) else none

/-- The contents of the literal that a text begins with, and what follows it. -/
def literal? : List Char → Option (List Char × List Char)
  | '"' :: cs => contents? cs
  | _ => none

/-! ## 2. Escapes -/

/-- A hexadecimal digit of either case. -/
def isHexDigit (c : Char) : Bool := (Text.hexValue c).isSome

/-- The number that `lo` to `hi` hexadecimal digits stand for. -/
def hexNumber? (lo hi : Nat) (ds : List Char) : Option Nat :=
  if lo ≤ ds.length ∧ ds.length ≤ hi then Text.digitsValue 16 Text.hexValue ds else none

/-- The text is an escape for the character with number `n`. -/
inductive Escape : List Char → Nat → Prop
  | four {ds : List Char} {n : Nat} (hn : hexNumber? 4 4 ds = some n) : Escape ('\\' :: 'u' :: ds) n
  | braced {ds : List Char} {n : Nat} (hn : hexNumber? 1 5 ds = some n) (hmax : n < 0x30000) :
    Escape ('\\' :: 'u' :: '{' :: ds ++ ['}']) n

/-- No escape occurs in the text. -/
def NoEscape (cs : List Char) : Prop := ∀ e n, Escape e n → ¬ e <:+: cs

/-- The contents `cs` stand for the string `ns`: escapes for the characters they name, and every
character that begins no escape for itself. -/
inductive Decodes : List Char → List Nat → Prop
  | nil : Decodes [] []
  | escape {e cs : List Char} {n : Nat} {ns : List Nat} (he : Escape e n) (hcs : Decodes cs ns) :
    Decodes (e ++ cs) (n :: ns)
  | plain {c : Char} {cs : List Char} {ns : List Nat}
    (hc : ∀ e n, Escape e n → ¬ e <+: c :: cs) (hcs : Decodes cs ns) :
    Decodes (c :: cs) (c.toNat :: ns)

/-- The escape that a text begins with: its number, and how many characters it has after the
backslash. -/
def escape? : List Char → Option (Nat × Nat)
  | '\\' :: 'u' :: '{' :: cs =>
    let ds := cs.takeWhile isHexDigit
    match cs.dropWhile isHexDigit with
    | '}' :: _ => ((hexNumber? 1 5 ds).filter (· < 0x30000)).map fun n => (n, ds.length + 3)
    | _ => none
  | '\\' :: 'u' :: cs => (hexNumber? 4 4 (cs.take 4)).map fun n => (n, 5)
  | _ => none

/-- The string that contents stand for; the first `skip` characters belong to the escape before. -/
def codesFrom : Nat → List Char → List Nat
  | _, [] => []
  | skip + 1, _ :: cs => codesFrom skip cs
  | 0, c :: cs =>
    match escape? (c :: cs) with
    | some (n, skip) => n :: codesFrom skip cs
    | none => c.toNat :: codesFrom 0 cs

/-- The string that contents stand for. -/
def codes (cs : List Char) : List Nat := codesFrom 0 cs

/-- The string that a text denotes, if it is one literal. -/
def denotation? (text : String) : Option (List Nat) :=
  match literal? text.toList with
  | some (cs, []) => some (codes cs)
  | _ => none

/-! ## 3. Quotes read back -/

/-- The contents of a literal as they are written. -/
def doubled (cs : List Char) : List Char :=
  cs.flatMap fun c => if c = '"' then ['"', '"'] else [c]

theorem toList_stringText (s : String) :
    (stringText s).toList = '"' :: (doubled s.toList ++ ['"']) := by
  rw [stringText, String.toList_ofList, List.cons_append, doubled]

theorem doubled_quote (cs : List Char) : doubled ('"' :: cs) = '"' :: '"' :: doubled cs := by
  simp [doubled]

theorem doubled_cons {c : Char} (hc : c ≠ '"') (cs : List Char) :
    doubled (c :: cs) = c :: doubled cs := by
  simp [doubled, hc]

theorem contents?_cons {c : Char} (hc : c ≠ '"') (hchar : isTextChar c = true) (cs : List Char) :
    contents? (c :: cs) = (contents? cs).map fun p => (c :: p.1, p.2) := by
  simp [contents?, hc, hchar]

/-- **No character of the contents ends a literal.** -/
theorem contents?_doubled {cs rest : List Char} (hcs : cs.all isTextChar = true)
    (hrest : rest.head? ≠ some '"') :
    contents? (doubled cs ++ '"' :: rest) = some (cs, rest) := by
  induction cs with
  | nil =>
    cases rest with
    | nil => rfl
    | cons c rest =>
      have hc : c ≠ '"' := by simpa using hrest
      simp [doubled, contents?, hc]
  | cons c cs ih =>
    rw [List.all_cons, Bool.and_eq_true] at hcs
    by_cases hc : c = '"'
    · subst hc
      rw [doubled_quote, List.cons_append, List.cons_append, contents?, ih hcs.2]
      rfl
    · rw [doubled_cons hc, List.cons_append, contents?_cons hc hcs.1, ih hcs.2]
      rfl

theorem eq_doubled_of_contents? {text cs rest : List Char}
    (h : contents? text = some (cs, rest)) :
    text = doubled cs ++ '"' :: rest ∧ rest.head? ≠ some '"' := by
  fun_induction contents? text generalizing cs with
  | case1 => cases h
  | case2 text ih =>
    obtain ⟨p, hp, hpair⟩ := Option.map_eq_some_iff.mp h
    cases hpair
    obtain ⟨rfl, hrest⟩ := ih hp
    exact ⟨by rw [doubled_quote]; rfl, hrest⟩
  | case3 text hnext =>
    cases h
    refine ⟨rfl, fun hhead => ?_⟩
    obtain ⟨rest', rfl⟩ := List.head?_eq_some_iff.mp hhead
    exact hnext rest' rfl
  | case4 c text _ hquote hchar ih =>
    obtain ⟨p, hp, hpair⟩ := Option.map_eq_some_iff.mp h
    cases hpair
    obtain ⟨rfl, hrest⟩ := ih hp
    exact ⟨by rw [doubled_cons hquote]; rfl, hrest⟩
  | case5 => cases h

/-- **A literal is read as far as it was written.**  The contents `s` are read from the literal of
`s` and from no other text, and what follows is what stands behind it. -/
theorem literal?_eq_some_iff {s : String} (hs : s.toList.all isTextChar = true)
    {text rest : List Char} :
    literal? text = some (s.toList, rest) ↔
      text = (stringText s).toList ++ rest ∧ rest.head? ≠ some '"' := by
  rw [toList_stringText]
  constructor
  · intro h
    unfold literal? at h
    split at h
    · obtain ⟨rfl, hrest⟩ := eq_doubled_of_contents? h
      exact ⟨by simp, hrest⟩
    · cases h
  · rintro ⟨rfl, hrest⟩
    simpa [literal?] using contents?_doubled hs hrest

theorem denotation?_stringText {s : String} (hs : s.toList.all isTextChar = true) :
    denotation? (stringText s) = some (codes s.toList) := by
  have hread : literal? (stringText s).toList = some (s.toList, []) :=
    (literal?_eq_some_iff hs).mpr ⟨by simp, by simp⟩
  rw [denotation?, hread]

/-! ## 4. Escapes read -/

theorem isSome_of_mem_digits {value : Char → Option Nat} {base : Nat} {ds : List Char} {a n : Nat}
    (h : ds.foldlM (fun n c => (value c).map (base * n + ·)) a = some n) {d : Char} (hd : d ∈ ds) :
    (value d).isSome = true := by
  induction ds generalizing a with
  | nil => cases hd
  | cons c ds ih =>
    rw [List.foldlM_cons] at h
    obtain ⟨b, hb, h⟩ := Option.bind_eq_some_iff.mp h
    rcases List.mem_cons.mp hd with rfl | hd
    · obtain ⟨v, hv, -⟩ := Option.map_eq_some_iff.mp hb
      rw [hv]
      rfl
    · exact ih h hd

theorem hexNumber?_spec {lo hi n : Nat} {ds : List Char} (h : hexNumber? lo hi ds = some n) :
    lo ≤ ds.length ∧ ds.length ≤ hi ∧ ∀ d ∈ ds, isHexDigit d = true := by
  unfold hexNumber? at h
  split at h
  case isTrue hlen => exact ⟨hlen.1, hlen.2, fun d hd => isSome_of_mem_digits h hd⟩
  case isFalse => cases h

/-- **The escape at the front of a text is found**, with its number and its length. -/
theorem Escape.escape?_append {e : List Char} {n : Nat} (he : Escape e n) (rest : List Char) :
    escape? (e ++ rest) = some (n, e.length - 1) := by
  cases he with
  | @four ds _ hn =>
    obtain ⟨hlo, hhi, hdigits⟩ := hexNumber?_spec hn
    have hlen : ds.length = 4 := by omega
    have htake : (ds ++ rest).take 4 = ds := by rw [← hlen, List.take_left]
    -- A digit is no brace, so the text is not read as an escape in braces.
    have hbrace : ∀ cs, ds ++ rest ≠ '{' :: cs := by
      intro cs h
      cases ds with
      | nil => cases hlen
      | cons d ds =>
        cases h
        exact absurd (hdigits '{' List.mem_cons_self) (by decide)
    have hread : escape? ('\\' :: 'u' :: (ds ++ rest)) =
        (hexNumber? 4 4 ((ds ++ rest).take 4)).map fun n => (n, 5) := by
      rw [escape?]
      exact hbrace
    rw [List.cons_append, List.cons_append, hread, htake, hn]
    simp [hlen]
  | @braced ds _ hn hmax =>
    obtain ⟨-, -, hdigits⟩ := hexNumber?_spec hn
    have htake : (ds ++ '}' :: rest).takeWhile isHexDigit = ds := by
      rw [List.takeWhile_append_of_pos hdigits, List.takeWhile_cons_of_neg (by decide),
        List.append_nil]
    have hdrop : (ds ++ '}' :: rest).dropWhile isHexDigit = '}' :: rest := by
      rw [List.dropWhile_append_of_pos hdigits, List.dropWhile_cons_of_neg (by decide)]
    simp [escape?, htake, hdrop, hn, hmax]

/-- **Only an escape is taken for one.** -/
theorem exists_escape_of_escape? {cs : List Char} {n skip : Nat} (h : escape? cs = some (n, skip)) :
    ∃ e rest, cs = e ++ rest ∧ Escape e n := by
  unfold escape? at h
  split at h
  case h_1 cs =>
    dsimp only at h
    split at h
    case h_1 rest hclose =>
      obtain ⟨n', hn, hpair⟩ := Option.map_eq_some_iff.mp h
      cases hpair
      obtain ⟨hn, hmax⟩ := Option.filter_eq_some_iff.mp hn
      refine ⟨_, rest, ?_, .braced hn (of_decide_eq_true hmax)⟩
      have hcs := List.takeWhile_append_dropWhile (p := isHexDigit) (l := cs)
      rw [hclose] at hcs
      simp [hcs]
    case h_2 => cases h
  case h_2 cs _ =>
    obtain ⟨n', hn, hpair⟩ := Option.map_eq_some_iff.mp h
    cases hpair
    exact ⟨'\\' :: 'u' :: cs.take 4, cs.drop 4, by simp, .four hn⟩
  case h_3 => cases h

theorem Escape.five_le_length {e : List Char} {n : Nat} (he : Escape e n) : 5 ≤ e.length := by
  cases he with
  | four hn =>
    have hlo := (hexNumber?_spec hn).1
    simp only [List.length_cons]
    omega
  | braced hn =>
    have hlo := (hexNumber?_spec hn).1
    simp only [List.length_append, List.length_cons]
    omega

/-! ## 5. The string that contents stand for -/

theorem codesFrom_eq_drop (skip : Nat) (cs : List Char) :
    codesFrom skip cs = codes (cs.drop skip) := by
  induction skip generalizing cs with
  | zero => rfl
  | succ skip ih =>
    cases cs with
    | nil => rfl
    | cons c cs => exact ih cs

theorem codes_escape {e : List Char} {n : Nat} (he : Escape e n) (rest : List Char) :
    codes (e ++ rest) = n :: codes rest := by
  have hread := he.escape?_append rest
  have hlen := he.five_le_length
  cases e with
  | nil => simp at hlen
  | cons c e =>
    rw [List.cons_append] at hread ⊢
    rw [codes, codesFrom, hread]
    dsimp only
    rw [codesFrom_eq_drop, List.length_cons, Nat.add_sub_cancel, List.drop_left]

theorem codes_plain {c : Char} {cs : List Char} (hc : ∀ e n, Escape e n → ¬ e <+: c :: cs) :
    codes (c :: cs) = c.toNat :: codes cs := by
  have hread : escape? (c :: cs) = none := by
    rw [Option.eq_none_iff_forall_ne_some]
    rintro ⟨n, skip⟩ h
    obtain ⟨e, rest, hcs, he⟩ := exists_escape_of_escape? h
    exact hc e n he ⟨rest, hcs.symm⟩
  rw [codes, codesFrom, hread]
  rfl

/-- Contents stand for a string. -/
theorem decodes_codes (cs : List Char) : Decodes cs (codes cs) := by
  -- On the length: what stands at the front is an escape or one character, and less is left.
  induction hlength : cs.length using Nat.strongRecOn generalizing cs with
  | ind k ih =>
    by_cases hesc : ∃ e n, Escape e n ∧ e <+: cs
    · obtain ⟨e, n, he, rest, rfl⟩ := hesc
      have hlen := he.five_le_length
      rw [List.length_append] at hlength
      rw [codes_escape he]
      exact .escape he (ih rest.length (by omega) rest rfl)
    · cases cs with
      | nil => exact .nil
      | cons c cs =>
        have hc : ∀ e n, Escape e n → ¬ e <+: c :: cs := fun e n he hpre => hesc ⟨e, n, he, hpre⟩
        rw [List.length_cons] at hlength
        rw [codes_plain hc]
        exact .plain hc (ih cs.length (by omega) cs rfl)

/-- **They stand for one string only.** -/
theorem decodes_iff {cs : List Char} {ns : List Nat} : Decodes cs ns ↔ codes cs = ns := by
  constructor
  · intro h
    induction h with
    | nil => rfl
    | escape he _ ih => rw [codes_escape he, ih]
    | plain hc _ ih => rw [codes_plain hc, ih]
  · rintro rfl
    exact decodes_codes cs

/-- An escape makes the string shorter than the contents, and nothing makes it longer. -/
theorem Decodes.length_le {cs : List Char} {ns : List Nat} (h : Decodes cs ns) :
    ns.length ≤ cs.length ∧ (ns.length = cs.length → NoEscape cs) := by
  induction h with
  | nil =>
    refine ⟨Nat.le_refl _, fun _ e n he hinfix => ?_⟩
    have hlen := he.five_le_length
    rw [List.eq_nil_of_infix_nil hinfix] at hlen
    simp at hlen
  | escape he _ ih =>
    have hlen := he.five_le_length
    simp only [List.length_cons, List.length_append]
    exact ⟨by omega, fun heq => by omega⟩
  | plain hc _ ih =>
    simp only [List.length_cons]
    refine ⟨by omega, fun heq e n he hinfix => ?_⟩
    rcases List.infix_cons_iff.mp hinfix with hpre | hinfix
    · exact hc e n he hpre
    · exact ih.2 (by omega) e n he hinfix

/-- **Contents stand for themselves exactly if no escape occurs in them.** -/
theorem codes_eq_map_iff {cs : List Char} : codes cs = cs.map Char.toNat ↔ NoEscape cs := by
  constructor
  · intro h
    refine (decodes_codes cs).length_le.2 ?_
    rw [h, List.length_map]
  · intro h
    induction cs with
    | nil => rfl
    | cons c cs ih =>
      have hc : ∀ e n, Escape e n → ¬ e <+: c :: cs :=
        fun e n he hpre => h e n he hpre.isInfix
      have hcs : NoEscape cs :=
        fun e n he hinfix => h e n he (List.infix_cons_iff.mpr (.inr hinfix))
      rw [codes_plain hc, ih hcs, List.map_cons]

/-! ## 6. What a literal denotes -/

/-- The printable characters of ASCII. -/
def isAsciiPrintable (c : Char) : Bool := 0x20 ≤ c.toNat && c.toNat ≤ 0x7e

theorem isTextChar_of_isAsciiPrintable {c : Char} (h : isAsciiPrintable c = true) :
    isTextChar c = true := by
  simp only [isAsciiPrintable, Bool.and_eq_true, decide_eq_true_eq] at h
  have hne : c.toNat ≠ 0x7f := by omega
  simp [isTextChar, h.1, hne]

theorem all_isTextChar {s : String} (hs : s.toList.all isAsciiPrintable = true) :
    s.toList.all isTextChar = true :=
  List.all_eq_true.mpr fun c hc => isTextChar_of_isAsciiPrintable (List.all_eq_true.mp hs c hc)

/-- **A literal denotes its string exactly if no escape occurs in it.**  The literal of a printable
string is one literal wherever it stands, and the only one with these contents.  It denotes the
string that they stand for, which is the printed one if and only if it holds no escape.  So
different strings have literals that denote different strings, as long as neither holds one. -/
theorem stringText_denotes_iff (s : String) (hs : s.toList.all isAsciiPrintable = true) :
    (∀ text rest, literal? text = some (s.toList, rest) ↔
      text = (stringText s).toList ++ rest ∧ rest.head? ≠ some '"') ∧
    (∀ ns, denotation? (stringText s) = some ns ↔ Decodes s.toList ns) ∧
    (denotation? (stringText s) = some (s.toList.map Char.toNat) ↔ NoEscape s.toList) ∧
    (∀ t : String, t.toList.all isAsciiPrintable = true → NoEscape s.toList → NoEscape t.toList →
      s ≠ t → denotation? (stringText s) ≠ denotation? (stringText t)) := by
  have hdenotes := denotation?_stringText (all_isTextChar hs)
  refine ⟨fun text rest => literal?_eq_some_iff (all_isTextChar hs), fun ns => ?_, ?_, ?_⟩
  · rw [hdenotes, Option.some.injEq, decodes_iff]
  · rw [hdenotes, Option.some.injEq, codes_eq_map_iff]
  · intro t ht hescape hescape' hne heq
    rw [hdenotes, denotation?_stringText (all_isTextChar ht), Option.some.injEq,
      codes_eq_map_iff.mpr hescape, codes_eq_map_iff.mpr hescape'] at heq
    have hchars : s.toList = t.toList := (List.map_inj_right fun _ _ => Char.toNat_inj.mp).mp heq
    exact hne (String.toList_inj.mp hchars)

/-- The six characters of an escape are handed over as the one letter that it names. -/
theorem spelledA_denotes :
    "\\u0041".toList.all isAsciiPrintable = true ∧ stringText "\\u0041" = "\"\\u0041\"" ∧
      denotation? (stringText "\\u0041") = some ("A".toList.map Char.toNat) ∧
      denotation? (stringText "\\u0041") ≠ some ("\\u0041".toList.map Char.toNat) := by
  have hprintable : "\\u0041".toList.all isAsciiPrintable = true := by decide
  have hescape : Escape "\\u0041".toList 65 := .four (by decide)
  obtain ⟨-, hdecodes, hself, -⟩ := stringText_denotes_iff "\\u0041" hprintable
  refine ⟨hprintable, by decide, ?_, fun h => ?_⟩
  · refine (hdecodes [65]).mpr ?_
    simpa using Decodes.escape hescape .nil
  · exact hself.mp h _ 65 hescape List.infix_rfl

/-- Two strings, the second without any backslash, have literals that denote the same. -/
theorem bracedQuote_merged :
    "\\u\x7b22\x7d" ≠ "\"" ∧
      denotation? (stringText "\\u\x7b22\x7d") = denotation? (stringText "\"") := by
  decide

example : denotation? (stringText "a\"") = some [97, 34] := by decide

end Concolic.Smt
