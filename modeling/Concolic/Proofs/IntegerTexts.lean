import Concolic.Numeral.Integer
import Mathlib.Algebra.Group.Int.Defs
import Mathlib.Algebra.Group.Nat.Defs

/-
# What integers are written as

A text for an integer is a sign, which may be missing, and a number.  A plain number is a row of
decimal digits.  A literal may also mark its base: by a zero in front for eight, or by a zero and a
letter for two, eight and sixteen.  Its digits may be set apart by single underscores, and a mark
counts as a digit there.

The reader works differently.  It looks for a mark first, then reads digits from the left, skipping
underscores wherever they are and giving up as soon as the number is too large, and checks at the
end whether the underscores were in their places.  It accepts exactly the texts of the grammar whose
value is in range (`readInteger_eq_ok_iff`).
-/
namespace Concolic.Numeral

/-! ## 1. The grammar -/

/-- The character is the digit `d` of a base. -/
def IsDigit (base : Nat) (c : Char) (d : Nat) : Prop := digitValue c = some d ∧ d < base

/-- The characters continue the number `n` by digits to the number `k`.  If `spaced`, an underscore
may stand before each digit. -/
inductive Continues (base : Nat) (spaced : Bool) : Nat → List Char → Nat → Prop
  | done (n : Nat) : Continues base spaced n [] n
  | digit {n d k : Nat} {c : Char} {cs : List Char} :
    IsDigit base c d → Continues base spaced (n * base + d) cs k →
    Continues base spaced n (c :: cs) k
  | apart {n d k : Nat} {c : Char} {cs : List Char} :
    spaced = true → IsDigit base c d → Continues base spaced (n * base + d) cs k →
    Continues base spaced n ('_' :: c :: cs) k

/-- The letters that mark a base, after a zero. -/
def marks : List (Char × Nat) :=
  [('b', 2), ('B', 2), ('o', 8), ('O', 8), ('x', 16), ('X', 16)]

/-- A number in decimal digits only. -/
inductive Plain : List Char → Nat → Prop
  | digits {c : Char} {d n : Nat} {cs : List Char} :
    IsDigit 10 c d → Continues 10 false d cs n → Plain (c :: cs) n

/-- A number that may mark its base and set its digits apart. -/
inductive Literal : List Char → Nat → Prop
  | decimal {c : Char} {d n : Nat} {cs : List Char} :
    c ≠ '0' → IsDigit 10 c d → Continues 10 true d cs n → Literal (c :: cs) n
  /-- Zero itself is one of these. -/
  | octal {n : Nat} {cs : List Char} : Continues 8 true 0 cs n → Literal ('0' :: cs) n
  | marked {c : Char} {base n : Nat} {cs : List Char} :
    (c, base) ∈ marks → cs ≠ [] → Continues base true 0 cs n → Literal ('0' :: c :: cs) n

/-- A number as one of the readers wants it. -/
def Unsigned : Bool → List Char → Nat → Prop
  | false => Plain
  | true => Literal

/-- The text stands for the integer. -/
inductive Denotes (marked : Bool) : List Char → Int → Prop
  | unsigned {cs : List Char} {n : Nat} : Unsigned marked cs n → Denotes marked cs n
  | plus {cs : List Char} {n : Nat} : Unsigned marked cs n → Denotes marked ('+' :: cs) n
  | minus {cs : List Char} {n : Nat} : Unsigned marked cs n → Denotes marked ('-' :: cs) (-n)

/-- The integer fits into a word of `bits` bits. -/
def Fits (bits : Nat) (v : Int) : Prop := -2 ^ (bits - 1) ≤ v ∧ v < 2 ^ (bits - 1)

instance (bits : Nat) (v : Int) : Decidable (Fits bits v) :=
  inferInstanceAs (Decidable (_ ∧ _))

/-! ## 2. Rows of digits -/

section

variable {base limit n k : Nat} {spaced : Bool} {cs : List Char}

theorem IsDigit.ne_underscore {c : Char} {d : Nat} (h : IsDigit base c d) : c ≠ '_' := by
  rintro rfl
  cases h.1

theorem IsDigit.pos {c : Char} {d : Nat} (h : IsDigit base c d) : 0 < base := Nat.zero_lt_of_lt h.2

theorem Continues.le (h : Continues base spaced n cs k) : n ≤ k := by
  induction h with
  | done n => exact Nat.le_refl n
  | @digit n d k c cs hc _ ih =>
    have := Nat.le_mul_of_pos_right n hc.pos
    omega
  | @apart n d k c cs _ hc _ ih =>
    have := Nat.le_mul_of_pos_right n hc.pos
    omega

/-- A digit is read and the others follow, unless the number gets too large. -/
theorem readDigits_cons {c : Char} {d : Nat} (hc : IsDigit base c d)
    (hd : n * base + d ≤ limit) :
    readDigits base limit spaced n (c :: cs) =
      readDigits base limit spaced (n * base + d) cs := by
  have hskip : ¬ (c = '_' ∧ spaced = true) := fun h => hc.ne_underscore h.1
  rw [readDigits, if_neg hskip, hc.1]
  dsimp only
  rw [if_neg (Nat.not_le.mpr hc.2), if_neg (Nat.not_lt.mpr hd)]

theorem Continues.readDigits (h : Continues base spaced n cs k) (hk : k ≤ limit) :
    readDigits base limit spaced n cs = .ok k := by
  induction h with
  | done n => rfl
  | digit hc hcs ih => rw [readDigits_cons hc (Nat.le_trans hcs.le hk), ih hk]
  | apart hspaced hc hcs ih =>
    rw [Numeral.readDigits, if_pos ⟨rfl, hspaced⟩,
      readDigits_cons hc (Nat.le_trans hcs.le hk), ih hk]

/-- What the reader of digits has found if it succeeds. -/
theorem readDigits_cons_ok {c : Char} (hc : ¬ (c = '_' ∧ spaced = true))
    (h : readDigits base limit spaced n (c :: cs) = .ok k) :
    ∃ d, IsDigit base c d ∧ n * base + d ≤ limit ∧
      readDigits base limit spaced (n * base + d) cs = .ok k := by
  rw [readDigits, if_neg hc] at h
  cases hd : digitValue c with
  | none =>
    rw [hd] at h
    cases h
  | some d =>
    rw [hd] at h
    dsimp only at h
    split at h
    · cases h
    next hbase =>
    split at h
    · cases h
    next hlimit => exact ⟨d, ⟨hd, Nat.not_le.mp hbase⟩, Nat.not_lt.mp hlimit, h⟩

theorem readDigits_le (hn : n ≤ limit) (h : readDigits base limit spaced n cs = .ok k) :
    k ≤ limit := by
  induction cs generalizing n with
  | nil =>
    cases h
    exact hn
  | cons c cs ih =>
    by_cases hc : c = '_' ∧ spaced = true
    · rw [readDigits, if_pos hc] at h
      exact ih hn h
    · obtain ⟨d, -, hd, hrest⟩ := readDigits_cons_ok hc h
      exact ih hd hrest

/-- Without underscores the reader finds nothing but digits. -/
theorem continues_of_readDigits (hcs : spaced = true → '_' ∉ cs)
    (h : readDigits base limit spaced n cs = .ok k) : Continues base spaced n cs k := by
  induction cs generalizing n with
  | nil =>
    cases h
    exact .done _
  | cons c cs ih =>
    have hc : ¬ (c = '_' ∧ spaced = true) := by
      rintro ⟨rfl, hspaced⟩
      exact hcs hspaced List.mem_cons_self
    obtain ⟨d, hd, -, hrest⟩ := readDigits_cons_ok hc h
    exact .digit hd (ih (fun hspaced hmem => hcs hspaced (List.mem_cons_of_mem _ hmem)) hrest)

theorem Continues.no_underscore (h : Continues base false n cs k) : '_' ∉ cs := by
  induction h with
  | done n => simp
  | digit hc _ ih =>
    rw [List.mem_cons, not_or]
    exact ⟨hc.ne_underscore.symm, ih⟩
  | apart hspaced _ _ _ => cases hspaced

/-- The first digit is the number so far. -/
theorem continues_cons_iff {c : Char} {d : Nat} (hc : IsDigit base c d) :
    Continues base spaced 0 (c :: cs) k ↔ Continues base spaced d cs k := by
  constructor
  · intro h
    cases h with
    | digit hc' hcs =>
      cases hc.1.symm.trans hc'.1
      rwa [Nat.zero_mul, Nat.zero_add] at hcs
    | apart _ _ _ => exact absurd rfl hc.ne_underscore
  · intro h
    refine .digit hc ?_
    rwa [Nat.zero_mul, Nat.zero_add]

end

/-! ## 3. Underscores -/

/-- The characters that the check of underscores takes for digits. -/
def isPlace (hex : Bool) (c : Char) : Bool := c.isDigit || (hex && (Text.hexValue c).isSome)

/-- The digits of the base are taken for digits by the check. -/
def Places (base : Nat) (hex : Bool) : Prop := ∀ c d, IsDigit base c d → isPlace hex c = true

theorem places_ten {base : Nat} (h : base ≤ 10) (hex : Bool) : Places base hex := by
  intro c d hc
  have hdigit : c.isDigit = true := by
    obtain ⟨hd, hlt⟩ := hc
    unfold digitValue at hd
    dsimp only at hd
    rw [Char.isDigit_iff_toNat]
    split at hd
    next hrange => exact hrange
    · split at hd
      · cases hd
        omega
      · split at hd
        · cases hd
          omega
        · cases hd
  rw [isPlace, hdigit, Bool.true_or]

theorem places_sixteen : Places 16 true := by
  intro c d hc
  have hhex : (Text.hexValue c).isSome = true := by
    obtain ⟨hd, hlt⟩ := hc
    unfold digitValue at hd
    unfold Text.hexValue
    dsimp only at hd ⊢
    split at hd
    next hrange => rw [if_pos hrange]; rfl
    next hrange =>
    rw [if_neg hrange]
    split at hd
    next hlower =>
      cases hd
      rw [if_pos (by omega)]
      rfl
    next hlower =>
    rw [if_neg (by omega)]
    split at hd
    · cases hd
      rw [if_pos (by omega)]
      rfl
    · cases hd
  rw [isPlace, hhex, Bool.and_true, Bool.or_true]

section

variable {base limit n k : Nat} {hex : Bool} {before : Before} {c : Char} {cs : List Char}

theorem fits_digit (hc : isPlace hex c = true) :
    underscoresFitFrom hex before (c :: cs) = underscoresFitFrom hex .digit cs := by
  rw [underscoresFitFrom, if_pos (by exact hc)]

theorem fits_underscore : underscoresFitFrom hex before ('_' :: cs) =
    (decide (before = .digit) && underscoresFitFrom hex .underscore cs) := by
  have hplace : isPlace hex '_' = false := by
    cases hex <;> rfl
  rw [underscoresFitFrom, if_neg (by rw [← isPlace, hplace]; exact Bool.false_ne_true), if_pos rfl]

theorem Continues.fits (h : Continues base true n cs k) (hplaces : Places base hex) :
    underscoresFitFrom hex .digit cs = true := by
  induction h with
  | done n => rfl
  | digit hc _ ih => rw [fits_digit (hplaces _ _ hc), ih]
  | apart _ hc _ ih =>
    rw [fits_underscore, fits_digit (hplaces _ _ hc), ih]
    rfl

/-- **What is read with its underscores in place is a row of digits,** each with at most one
underscore before it.  The second part is about what stands behind an underscore. -/
theorem continues_of_fits (hplaces : Places base hex)
    (h : readDigits base limit true n cs = .ok k) :
    (underscoresFitFrom hex .digit cs = true → Continues base true n cs k) ∧
    (underscoresFitFrom hex .underscore cs = true → Continues base true n ('_' :: cs) k) := by
  induction cs generalizing n with
  | nil =>
    cases h
    exact ⟨fun _ => .done _, fun hfits => by cases hfits⟩
  | cons c cs ih =>
    by_cases hc : c = '_' ∧ true = true
    · obtain ⟨rfl, -⟩ := hc
      rw [readDigits, if_pos ⟨rfl, rfl⟩] at h
      rw [fits_underscore, fits_underscore]
      exact ⟨(ih h).2, fun hfits => by cases hfits⟩
    · obtain ⟨d, hd, -, hrest⟩ := readDigits_cons_ok hc h
      have hplace := hplaces c d hd
      rw [fits_digit hplace, fits_digit hplace]
      exact ⟨fun hfits => .digit hd ((ih hrest).1 hfits),
        fun hfits => .apart rfl hd ((ih hrest).1 hfits)⟩

end

/-! ## 4. Numbers -/

section

variable {bits base n : Nat} {cs digits : List Char}

theorem readNatural_eq_ok_iff (marked : Bool) (hcs : cs ≠ [])
    (hbase : (if marked then markedBase cs else (10, cs)) = (base, digits)) :
    readNatural marked bits cs = .ok n ↔
      readDigits base (Nat.pow 2 bits - 1) marked 0 digits = .ok n ∧
        ('_' ∈ digits → underscoresFit cs = true) := by
  rw [readNatural, if_neg (by rwa [List.isEmpty_iff]), hbase]
  dsimp only
  cases readDigits base (Nat.pow 2 bits - 1) marked 0 digits with
  | error r => simp
  | ok m =>
    dsimp only
    by_cases hmem : '_' ∈ digits
    · cases underscoresFit cs <;> simp [hmem]
    · simp [hmem]

theorem le_pred_pow (bits n : Nat) : n ≤ Nat.pow 2 bits - 1 ↔ n < 2 ^ bits := by
  have hpos : 0 < 2 ^ bits := Nat.two_pow_pos bits
  have hpow : Nat.pow 2 bits = 2 ^ bits := rfl
  omega

theorem readNatural_plain : readNatural false bits cs = .ok n ↔ Plain cs n ∧ n < 2 ^ bits := by
  cases cs with
  | nil =>
    constructor
    · intro h
      cases h
    · rintro ⟨h, -⟩
      cases h
  | cons c cs =>
    rw [readNatural_eq_ok_iff false (List.cons_ne_nil c cs) rfl, ← le_pred_pow]
    constructor
    · rintro ⟨h, -⟩
      have hall := continues_of_readDigits (by simp) h
      refine ⟨?_, readDigits_le (Nat.zero_le _) h⟩
      cases hall with
      | digit hc hcs =>
        rw [Nat.zero_mul, Nat.zero_add] at hcs
        exact .digits hc hcs
      | apart hspaced _ _ => cases hspaced
    · rintro ⟨h, hn⟩
      cases h with
      | digits hc hcs =>
        have hall := (continues_cons_iff hc).mpr hcs
        exact ⟨hall.readDigits hn, fun hmem => absurd hmem hall.no_underscore⟩

/-- **A number whose underscores are checked from its first digit on is a row of digits.** -/
theorem checked_iff {hex : Bool} {limit : Nat} (hplaces : Places base hex)
    (hfits : underscoresFit cs = underscoresFitFrom hex .digit digits) :
    readDigits base limit true 0 digits = .ok n ∧ ('_' ∈ digits → underscoresFit cs = true) ↔
      Continues base true 0 digits n ∧ n ≤ limit := by
  constructor
  · rintro ⟨h, hcheck⟩
    refine ⟨?_, readDigits_le (Nat.zero_le _) h⟩
    by_cases hmem : '_' ∈ digits
    · rw [hfits] at hcheck
      exact (continues_of_fits hplaces h).1 (hcheck hmem)
    · exact continues_of_readDigits (fun _ => hmem) h
  · rintro ⟨h, hn⟩
    rw [hfits]
    exact ⟨h.readDigits hn, fun _ => h.fits hplaces⟩

/-! ## 5. Literals -/

theorem dropSign_digit {c : Char} {d : Nat} (hc : IsDigit 10 c d) :
    dropSign (c :: cs) = c :: cs := by
  unfold dropSign
  split
  next hcs =>
    cases hcs
    cases hc.1
  next hcs =>
    cases hcs
    cases hc.1
  · rfl

theorem markedBase_decimal {c : Char} (hc : c ≠ '0') : markedBase (c :: cs) = (10, c :: cs) := by
  unfold markedBase
  split
  next hcs => exact absurd (List.cons.inj hcs).1 hc
  next hcs => exact absurd (List.cons.inj hcs).1 hc
  · rfl

theorem underscoresFit_decimal {c : Char} {d : Nat} (hne : c ≠ '0') (hc : IsDigit 10 c d) :
    underscoresFit (c :: cs) = underscoresFitFrom false .digit (c :: cs) := by
  have hplace := places_ten (Nat.le_refl 10) false c d hc
  rw [underscoresFit, dropSign_digit hc]
  split
  next hcs => exact absurd (List.cons.inj hcs).1 hne
  · rw [fits_digit hplace, fits_digit hplace]

theorem readNatural_decimal {c : Char} (hne : c ≠ '0') :
    readNatural true bits (c :: cs) = .ok n ↔ Literal (c :: cs) n ∧ n < 2 ^ bits := by
  rw [readNatural_eq_ok_iff true (List.cons_ne_nil c cs) (markedBase_decimal hne), ← le_pred_pow]
  by_cases hdigit : ∃ d, IsDigit 10 c d
  · obtain ⟨d, hd⟩ := hdigit
    rw [checked_iff (places_ten (Nat.le_refl 10) false) (underscoresFit_decimal hne hd),
      continues_cons_iff hd]
    refine and_congr_left fun _ => ?_
    constructor
    · exact .decimal hne hd
    · intro h
      cases h with
      | decimal _ hd' hcs =>
        cases hd.1.symm.trans hd'.1
        exact hcs
      | octal _ => exact absurd rfl hne
      | marked _ _ _ => exact absurd rfl hne
  · constructor
    · rintro ⟨h, hfits⟩
      by_cases hc : c = '_' ∧ true = true
      · obtain ⟨rfl, -⟩ := hc
        cases hfits List.mem_cons_self
      · obtain ⟨d, hd, -⟩ := readDigits_cons_ok hc h
        exact absurd ⟨d, hd⟩ hdigit
    · rintro ⟨h, -⟩
      cases h with
      | decimal _ hd _ => exact absurd ⟨_, hd⟩ hdigit
      | octal _ => exact absurd rfl hne
      | marked _ _ _ => exact absurd rfl hne

/-- What a mark says about the number behind it. -/
theorem marked_base {c : Char} (hc : (c, base) ∈ marks) (e : Char) (cs : List Char) :
    markedBase ('0' :: c :: e :: cs) = (base, e :: cs) ∧
      ∃ hex, Places base hex ∧
        underscoresFit ('0' :: c :: e :: cs) = underscoresFitFrom hex .digit (e :: cs) := by
  simp only [marks, List.mem_cons, Prod.mk.injEq, List.not_mem_nil, or_false] at hc
  rcases hc with ⟨rfl, rfl⟩ | ⟨rfl, rfl⟩ | ⟨rfl, rfl⟩ | ⟨rfl, rfl⟩ | ⟨rfl, rfl⟩ | ⟨rfl, rfl⟩
  · exact ⟨rfl, false, places_ten (by decide) _, rfl⟩
  · exact ⟨rfl, false, places_ten (by decide) _, rfl⟩
  · exact ⟨rfl, false, places_ten (by decide) _, rfl⟩
  · exact ⟨rfl, false, places_ten (by decide) _, rfl⟩
  · exact ⟨rfl, true, places_sixteen, rfl⟩
  · exact ⟨rfl, true, places_sixteen, rfl⟩

/-- The letter of a mark is no octal digit. -/
theorem not_continues_mark {c : Char} (hc : (c, base) ∈ marks) :
    ¬ Continues 8 true 0 (c :: cs) n := by
  have hall : ∀ p ∈ marks, p.1 ≠ '_' ∧ (digitValue p.1).all (8 ≤ ·) = true := by decide
  obtain ⟨hne, hlarge⟩ := hall _ hc
  intro h
  cases h with
  | digit hd _ =>
    rw [hd.1, Option.all_some, decide_eq_true_iff] at hlarge
    exact absurd hd.2 (Nat.not_lt.mpr hlarge)
  | apart _ _ _ => exact hne rfl

theorem marks_unique {c : Char} {b b' : Nat} (h : (c, b) ∈ marks) (h' : (c, b') ∈ marks) :
    b = b' := by
  have hall : ∀ p ∈ marks, ∀ q ∈ marks, p.1 = q.1 → p.2 = q.2 := by decide
  exact hall _ h _ h' rfl

/-- A mark with a number behind it. -/
theorem literal_marked_iff {c e : Char} (hc : (c, base) ∈ marks) :
    Literal ('0' :: c :: e :: cs) n ↔ Continues base true 0 (e :: cs) n := by
  constructor
  · intro h
    cases h with
    | decimal hne _ _ => exact absurd rfl hne
    | octal hcs => exact absurd hcs (not_continues_mark hc)
    | marked hc' _ hcs => rwa [marks_unique hc hc']
  · exact .marked hc (List.cons_ne_nil e cs)

theorem readNatural_marked {c e : Char} (hc : (c, base) ∈ marks) :
    readNatural true bits ('0' :: c :: e :: cs) = .ok n ↔
      Literal ('0' :: c :: e :: cs) n ∧ n < 2 ^ bits := by
  obtain ⟨hbase, hex, hplaces, hfits⟩ := marked_base hc e cs
  rw [readNatural_eq_ok_iff true (List.cons_ne_nil '0' (c :: e :: cs)) hbase, ← le_pred_pow,
    checked_iff hplaces hfits, literal_marked_iff hc]

/-- Nothing is marked by the letter `c`. -/
def Unmarked (c : Char) : Prop := ∀ base, (c, base) ∉ marks

theorem isLetter_of_unmarked {c : Char} (hc : Unmarked c) :
    isLetter 'b' c = false ∧ isLetter 'o' c = false ∧ isLetter 'x' c = false := by
  have hletter (letter : Char) (b : Nat) (hlower : (letter, b) ∈ marks)
      (hupper : (Char.ofNat (letter.toNat - 32), b) ∈ marks) : isLetter letter c = false := by
    rw [isLetter, Bool.or_eq_false_iff, decide_eq_false_iff_not, decide_eq_false_iff_not]
    constructor
    · rintro rfl
      exact hc b hlower
    · rintro rfl
      exact hc b hupper
  exact ⟨hletter 'b' 2 (by decide) (by decide), hletter 'o' 8 (by decide) (by decide),
    hletter 'x' 16 (by decide) (by decide)⟩

/-- Behind a zero without a mark the number goes on in base eight. -/
theorem unmarked_base (hcs : ∀ c ∈ cs.head?, Unmarked c) :
    markedBase ('0' :: cs) = (8, cs) ∧
      underscoresFit ('0' :: cs) = underscoresFitFrom false .digit cs := by
  have hzero : isPlace false '0' = true := rfl
  rcases cs with _ | ⟨c, cs⟩
  · exact ⟨rfl, rfl⟩
  obtain ⟨hb, ho, hx⟩ := isLetter_of_unmarked (hcs c rfl)
  constructor
  · cases cs with
    | nil => rfl
    | cons e cs => simp [markedBase, hb, ho, hx]
  · rw [underscoresFit, dropSign]
    · simp only [hb, ho, hx, Bool.or_false, Bool.false_eq_true, if_false]
      rw [fits_digit hzero]
    · simp
    · simp

theorem literal_unmarked_iff (hcs : ∀ c ∈ cs.head?, Unmarked c) :
    Literal ('0' :: cs) n ↔ Continues 8 true 0 cs n := by
  constructor
  · intro h
    cases h with
    | decimal hne _ _ => exact absurd rfl hne
    | octal hcs => exact hcs
    | marked hc _ _ => exact absurd hc (hcs _ rfl _)
  · exact .octal

theorem readNatural_unmarked (hcs : ∀ c ∈ cs.head?, Unmarked c) :
    readNatural true bits ('0' :: cs) = .ok n ↔ Literal ('0' :: cs) n ∧ n < 2 ^ bits := by
  obtain ⟨hbase, hfits⟩ := unmarked_base hcs
  rw [readNatural_eq_ok_iff true (List.cons_ne_nil _ _) hbase, ← le_pred_pow,
    checked_iff (places_ten (by decide) false) hfits, literal_unmarked_iff hcs]

/-- A mark with nothing behind it is no number. -/
theorem readNatural_bare {c : Char} (hc : (c, base) ∈ marks) :
    readNatural true bits ['0', c] = .ok n ↔ Literal ['0', c] n ∧ n < 2 ^ bits := by
  have hbase : markedBase ['0', c] = (8, [c]) := rfl
  rw [readNatural_eq_ok_iff true (List.cons_ne_nil '0' [c]) hbase]
  constructor
  · rintro ⟨h, -⟩
    have hne : '_' ∉ [c] := by
      have hall : ∀ p ∈ marks, '_' ∉ [p.1] := by decide
      exact hall _ hc
    exact absurd (continues_of_readDigits (fun _ => hne) h) (not_continues_mark hc)
  · rintro ⟨h, -⟩
    cases h with
    | decimal hne _ _ => exact absurd rfl hne
    | octal hcs => exact absurd hcs (not_continues_mark hc)
    | marked _ hcs _ => exact absurd rfl hcs

theorem readNatural_literal : readNatural true bits cs = .ok n ↔ Literal cs n ∧ n < 2 ^ bits := by
  rcases cs with _ | ⟨c, cs⟩
  · constructor
    · intro h
      cases h
    · rintro ⟨h, -⟩
      cases h
  by_cases hzero : c = '0'
  · subst hzero
    rcases cs with _ | ⟨c, cs⟩
    · exact readNatural_unmarked (by simp)
    by_cases hmark : ∃ base, (c, base) ∈ marks
    · obtain ⟨base, hc⟩ := hmark
      cases cs with
      | nil => exact readNatural_bare hc
      | cons e cs => exact readNatural_marked hc
    · refine readNatural_unmarked fun c' hc' base hmem => ?_
      cases hc'
      exact hmark ⟨base, hmem⟩
  · exact readNatural_decimal hzero

/-- **The readers of numbers accept the texts of their grammars.** -/
theorem readNatural_iff (marked : Bool) :
    readNatural marked bits cs = .ok n ↔ Unsigned marked cs n ∧ n < 2 ^ bits := by
  cases marked with
  | false => exact readNatural_plain
  | true => exact readNatural_literal

end

/-! ## 6. Integers -/

section

variable {marked : Bool} {bits : Nat} {cs : List Char}

/-- No number begins with a sign. -/
theorem Unsigned.head {n : Nat} (h : Unsigned marked cs n) :
    cs.head? ≠ some '+' ∧ cs.head? ≠ some '-' := by
  have hdigit {c : Char} {d : Nat} (hc : IsDigit 10 c d) (rest : List Char) :
      (c :: rest).head? ≠ some '+' ∧ (c :: rest).head? ≠ some '-' := by
    constructor
    · rintro ⟨⟩
      cases hc.1
    · rintro ⟨⟩
      cases hc.1
  cases marked with
  | false =>
    cases h with
    | digits hc _ => exact hdigit hc _
  | true =>
    cases h with
    | decimal _ hc _ => exact hdigit hc _
    | octal _ => simp
    | marked _ _ _ => simp

theorem dropSign_eq_self (hplus : cs.head? ≠ some '+') (hminus : cs.head? ≠ some '-') :
    dropSign cs = cs := by
  unfold dropSign
  split
  · exact absurd rfl hplus
  · exact absurd rfl hminus
  · rfl

theorem two_pow_pred (hbits : 0 < bits) : 2 ^ bits = 2 * 2 ^ (bits - 1) := by
  obtain ⟨b, rfl⟩ : ∃ b, bits = b + 1 := ⟨bits - 1, by omega⟩
  rw [Nat.add_sub_cancel, Nat.pow_succ, Nat.mul_comm]

/-- The text without its sign, if it has one, is a number. -/
theorem denotes_iff {v : Int} :
    Denotes marked cs v ↔ ∃ n : Nat, Unsigned marked (dropSign cs) n ∧
      v = if cs.head? = some '-' then -(n : Int) else n := by
  constructor
  · intro h
    cases h with
    | unsigned hn =>
      obtain ⟨hplus, hminus⟩ := hn.head
      rw [dropSign_eq_self hplus hminus]
      exact ⟨_, hn, (if_neg hminus).symm⟩
    | plus hn => exact ⟨_, hn, rfl⟩
    | minus hn => exact ⟨_, hn, rfl⟩
  · rintro ⟨n, hn, rfl⟩
    by_cases hplus : cs.head? = some '+'
    · obtain ⟨rest, rfl⟩ := List.head?_eq_some_iff.mp hplus
      exact .plus hn
    by_cases hminus : cs.head? = some '-'
    · obtain ⟨rest, rfl⟩ := List.head?_eq_some_iff.mp hminus
      exact .minus hn
    · rw [dropSign_eq_self hplus hminus] at hn
      rw [if_neg hminus]
      exact .unsigned hn

/-- **The readers of integers accept the texts of the grammar whose value is in range.** -/
theorem readInteger_eq_ok_iff (hbits : 0 < bits) (v : Int) :
    readInteger marked bits cs = .ok v ↔ Denotes marked cs v ∧ Fits bits v := by
  have hhalf : (2 : Nat) ^ bits = 2 * 2 ^ (bits - 1) := two_pow_pred hbits
  have hpow : Nat.pow 2 (bits - 1) = 2 ^ (bits - 1) := rfl
  have hpos : (0 : Int) < 2 ^ (bits - 1) := Int.pow_pos (by decide)
  have hcast : ((2 ^ (bits - 1) : Nat) : Int) = 2 ^ (bits - 1) := by simp
  rw [denotes_iff, readInteger, Fits]
  constructor
  · intro h
    cases hn : readNatural marked bits (dropSign cs) with
    | error r =>
      rw [hn] at h
      cases h
    | ok n =>
      rw [hn] at h
      dsimp only at h
      obtain ⟨hunsigned, -⟩ := (readNatural_iff marked).mp hn
      split at h
      next hminus =>
        split at h
        · cases h
        · cases h
          exact ⟨⟨n, hunsigned, by rw [if_pos hminus]⟩, by omega⟩
      next hminus =>
        split at h
        · cases h
        · cases h
          exact ⟨⟨n, hunsigned, by rw [if_neg hminus]⟩, by omega⟩
  · rintro ⟨⟨n, hunsigned, rfl⟩, hlow, hhigh⟩
    by_cases hminus : cs.head? = some '-'
    · rw [if_pos hminus] at hlow hhigh ⊢
      have hn : readNatural marked bits (dropSign cs) = .ok n :=
        (readNatural_iff marked).mpr ⟨hunsigned, by omega⟩
      rw [hn]
      dsimp only
      rw [if_pos hminus, if_neg (by omega)]
    · rw [if_neg hminus] at hlow hhigh ⊢
      have hn : readNatural marked bits (dropSign cs) = .ok n :=
        (readNatural_iff marked).mpr ⟨hunsigned, by omega⟩
      rw [hn]
      dsimp only
      rw [if_neg hminus, if_neg (by omega)]

end

end Concolic.Numeral
