import Concolic.Ieee.Printer
import Concolic.Proofs.Shortest
import Concolic.Proofs.SolverText
import Concolic.Smt.Script

/-
# Literals and bounds

The literal of a finite double is a decimal of the solver's language, and the number it stands for
is the shortest decimal of the double (`Term.number?_ofDouble`).  That is not always the double
itself, so a number may lie within the bounds of an input and still be cut off by the bounds that a
script asserts: this happens only at a bound whose literal lies inside (`admits_real_iff`).  The
bounds of integers are exact (`admits_int_iff`).
-/
namespace Concolic

/-! ## 1. Digits -/

namespace Smt

/-- The digits of a numeral: at least one, and only zero begins with a zero. -/
def IsNumeral (cs : List Char) : Prop :=
  cs ≠ [] ∧ cs.all Char.isDigit = true ∧ (numeral? cs).isSome = true

instance (cs : List Char) : Decidable (IsNumeral cs) := instDecidableAnd

/-- The number that a decimal stands for: a numeral, a point, and the digits after it. -/
def decimal? (cs : List Char) : Option ℚ :=
  let whole := cs.takeWhile Char.isDigit
  match cs.dropWhile Char.isDigit with
  | '.' :: frac =>
    if IsNumeral whole ∧ frac ≠ [] ∧ frac.all Char.isDigit = true then
      some (Nat.ofDigitChars 10 (whole ++ frac) 0 / 10 ^ frac.length)
    else none
  | _ => none

theorem decimal?_point {whole frac : List Char} (hwhole : IsNumeral whole) (hne : frac ≠ [])
    (hfrac : frac.all Char.isDigit = true) :
    decimal? (whole ++ '.' :: frac) =
      some ((Nat.ofDigitChars 10 (whole ++ frac) 0 : ℚ) / 10 ^ frac.length) := by
  have hall := List.all_eq_true.mp hwhole.2.1
  unfold decimal?
  dsimp only
  rw [List.takeWhile_append_of_pos hall, List.dropWhile_append_of_pos hall,
    List.takeWhile_cons_of_neg (by decide), List.dropWhile_cons_of_neg (by decide), List.append_nil]
  exact if_pos ⟨hwhole, hne, hfrac⟩

theorem isNumeral_of_head {cs : List Char} (hne : cs ≠ []) (hall : cs.all Char.isDigit = true)
    (hhead : cs.head? ≠ some '0') : IsNumeral cs := by
  refine ⟨hne, hall, ?_⟩
  unfold numeral?
  split
  · rfl
  · exact absurd rfl hhead
  · rfl

end Smt

namespace Ieee

open Smt

theorem ofDigitChars_zeros (k n : Nat) :
    Nat.ofDigitChars 10 (List.replicate k '0') n = n * 10 ^ k := by
  induction k generalizing n with
  | zero => rw [List.replicate_zero, Nat.ofDigitChars_nil, Nat.pow_zero, Nat.mul_one]
  | succ k ih =>
    rw [List.replicate_succ, Nat.ofDigitChars_cons, ih, Nat.sub_self, Nat.add_zero, Nat.pow_succ']
    ring

/-- Zeros at the end are powers of ten. -/
theorem ofDigitChars_append_zeros (ds : List Char) (k : Nat) :
    Nat.ofDigitChars 10 (ds ++ List.replicate k '0') 0 = Nat.ofDigitChars 10 ds 0 * 10 ^ k := by
  rw [Nat.ofDigitChars_append, ofDigitChars_zeros]

/-- Zeros in front do not count. -/
theorem ofDigitChars_zeros_append (ds : List Char) (k : Nat) :
    Nat.ofDigitChars 10 (List.replicate k '0' ++ ds) 0 = Nat.ofDigitChars 10 ds 0 := by
  rw [Nat.ofDigitChars_append, ofDigitChars_zeros, Nat.zero_mul]

theorem trimZeros_append (cs : List Char) :
    (trimZeros cs).1 ++ List.replicate (trimZeros cs).2 '0' = cs := by
  have hsplit := List.takeWhile_append_dropWhile (p := (· = '0')) (l := cs.reverse)
  have hzeros : cs.reverse.takeWhile (· = '0') =
      List.replicate (cs.reverse.takeWhile (· = '0')).length '0' :=
    List.eq_replicate_of_mem fun c hc => by
      simpa using List.all_eq_true.mp List.all_takeWhile c hc
  have hlength := congrArg List.length hsplit
  rw [List.length_append, List.length_reverse] at hlength
  unfold trimZeros
  dsimp only
  rw [List.length_reverse, ← hlength, Nat.add_sub_cancel]
  apply List.reverse_injective
  rw [List.reverse_append, List.reverse_reverse, List.reverse_replicate, ← hzeros]
  exact hsplit

theorem all_isDigit_zeros (k : Nat) : (List.replicate k '0').all Char.isDigit = true := by
  rw [List.all_replicate]
  split <;> rfl

/-- A text of digits gets a point and a zero after it. -/
theorem withPoint_of_digits {cs : List Char} (hall : cs.all Char.isDigit = true) :
    (withPoint (String.ofList cs)).toList = cs ++ ['.', '0'] := by
  have hpoint : ¬ cs.contains '.' = true := by
    rw [List.contains_iff_mem]
    exact fun h => absurd (List.all_eq_true.mp hall _ h) (by decide)
  rw [withPoint, String.toList_ofList, if_neg hpoint, String.toList_append, String.toList_ofList]
  rfl

theorem withPoint_of_point (cs ds : List Char) :
    (withPoint (String.ofList (cs ++ '.' :: ds))).toList = cs ++ '.' :: ds := by
  rw [withPoint, String.toList_ofList, if_pos (List.contains_iff_mem.mpr (by simp)),
    String.toList_ofList]

/-- The text is a decimal with the digits `ds` and maybe zeros before and after them, and the first
of `ds` has exponent `e`. -/
def Places (ds : List Char) (e : Int) (text : List Char) : Prop :=
  ∃ (whole frac : List Char) (k : Nat), text = whole ++ '.' :: frac ∧ IsNumeral whole ∧ frac ≠ [] ∧
    frac.all Char.isDigit = true ∧
    Nat.ofDigitChars 10 (whole ++ frac) 0 = Nat.ofDigitChars 10 ds 0 * 10 ^ k ∧
    e + 1 - ds.length = (k : Int) - frac.length

theorem Places.value {ds text : List Char} {e : Int} (h : Places ds e text) :
    decimal? text = some ((Nat.ofDigitChars 10 ds 0 : ℚ) * 10 ^ (e + 1 - ds.length)) := by
  obtain ⟨whole, frac, k, rfl, hwhole, hne, hfrac, hdigits, hplace⟩ := h
  rw [decimal?_point hwhole hne hfrac, hdigits, hplace, Nat.cast_mul, Nat.cast_pow, Nat.cast_ofNat,
    zpow_sub₀ (by norm_num), zpow_natCast, zpow_natCast, mul_div_assoc]

section

variable {ds : List Char}

/-- Zeros stand between the point and the digits. -/
theorem places_small (hne : ds ≠ []) (hall : ds.all Char.isDigit = true) (k : Nat) :
    Places ds (-k - 1) ('0' :: '.' :: (List.replicate k '0' ++ ds)) := by
  refine ⟨['0'], List.replicate k '0' ++ ds, 0, rfl, by decide,
    List.append_ne_nil_of_right_ne_nil _ hne, ?_, ?_, ?_⟩
  · rw [List.all_append, all_isDigit_zeros, hall]
    rfl
  · rw [← List.append_assoc, ← List.replicate_one, List.replicate_append_replicate,
      ofDigitChars_zeros_append, Nat.pow_zero, Nat.mul_one]
  · rw [List.length_append, List.length_replicate]
    omega

/-- All digits stand before the point. -/
theorem places_whole (hnumeral : IsNumeral ds) (hhead : ds.head? ≠ some '0') (k : Nat) :
    Places ds (ds.length + k - 1) (ds ++ List.replicate k '0' ++ ['.', '0']) := by
  obtain ⟨hne, hall, -⟩ := hnumeral
  refine ⟨ds ++ List.replicate k '0', ['0'], k + 1, rfl, ?_, by decide, by decide, ?_, ?_⟩
  · refine isNumeral_of_head (List.append_ne_nil_of_left_ne_nil hne _) ?_ ?_
    · rw [List.all_append, all_isDigit_zeros, hall]
      rfl
    · rwa [List.head?_append_of_ne_nil _ hne]
  · rw [List.append_assoc, ← List.replicate_one, List.replicate_append_replicate,
      ofDigitChars_append_zeros]
  · rw [List.length_singleton]
    omega

/-- The point stands among the digits. -/
theorem places_split (hall : ds.all Char.isDigit = true) (hhead : ds.head? ≠ some '0') {k : Nat}
    (hk : k + 1 < ds.length) : Places ds k (ds.take (k + 1) ++ '.' :: ds.drop (k + 1)) := by
  have hparts : (ds.take (k + 1)).all Char.isDigit = true ∧
      (ds.drop (k + 1)).all Char.isDigit = true := by
    rwa [← Bool.and_eq_true, ← List.all_append, List.take_append_drop]
  refine ⟨_, _, 0, rfl, isNumeral_of_head ?_ hparts.1 ?_, ?_, hparts.2, ?_, ?_⟩
  · rw [← List.length_pos_iff, List.length_take]
    omega
  · rwa [List.head?_take, if_neg (Nat.succ_ne_zero k)]
  · rw [← List.length_pos_iff, List.length_drop]
    omega
  · rw [List.take_append_drop, Nat.pow_zero, Nat.mul_one]
  · rw [List.length_drop]
    omega

/-- **Digits with a point.**  The text is a decimal, and the first digit has the place it should. -/
theorem places_pointed (e : Int) (hne : ds ≠ []) (hall : ds.all Char.isDigit = true)
    (hhead : ds.head? ≠ some '0') :
    Places ds e (withPoint (String.ofList (pointed ds e))).toList := by
  unfold pointed
  split
  · obtain ⟨k, rfl⟩ : ∃ k : Nat, e = -k - 1 := ⟨(-e - 1).toNat, by omega⟩
    rw [show (-(-(k : Int) - 1) - 1).toNat = k by omega]
    rw [show '0' :: '.' :: List.replicate k '0' ++ ds = ['0'] ++ '.' :: (List.replicate k '0' ++ ds)
      from rfl, withPoint_of_point]
    exact places_small hne hall k
  · obtain ⟨j, rfl⟩ : ∃ j : Nat, e = j := ⟨e.toNat, by omega⟩
    rw [Int.toNat_natCast]
    dsimp only
    split
    next hdrop =>
      have hlength : ds.length ≤ j + 1 := List.drop_eq_nil_iff.mp hdrop
      obtain ⟨k, hk⟩ : ∃ k, j + 1 = ds.length + k := ⟨j + 1 - ds.length, by omega⟩
      have hzeros : (ds ++ List.replicate k '0').all Char.isDigit = true := by
        rw [List.all_append, all_isDigit_zeros, hall]
        rfl
      have hplaces := places_whole (isNumeral_of_head hne hall hhead) hhead k
      rw [List.take_of_length_le hlength, hk, Nat.add_sub_cancel_left, withPoint_of_digits hzeros]
      rwa [show (j : Int) = ds.length + k - 1 by omega]
    next hdrop =>
      have hlength : j + 1 < ds.length := by
        rw [← Nat.not_le, ← List.drop_eq_nil_iff]
        exact hdrop
      rw [Nat.sub_eq_zero_of_le hlength.le, List.replicate_zero, List.append_nil,
        withPoint_of_point]
      exact places_split hall hhead hlength

end

/-- The digits of a decimal and the place of the first determine the decimal. -/
theorem scientific_value {x : Decimal} (hx : x.digits ≠ 0) :
    let (ds, e) := x.scientific
    ds ≠ [] ∧ ds.all Char.isDigit = true ∧ ds.head? ≠ some '0' ∧
      (Nat.ofDigitChars 10 ds 0 : ℚ) * 10 ^ (e + 1 - ds.length) = x.value := by
  have hsplit := trimZeros_append (Nat.toDigits 10 x.digits)
  have hdigits : (Nat.toDigits 10 x.digits).all Char.isDigit = true :=
    List.all_eq_true.mpr fun c hc => Nat.isDigit_of_mem_toDigits (by decide) (by decide) hc
  have hhead := toDigits_head_ne_zero (Nat.pos_of_ne_zero hx)
  have hvalue := Nat.ofDigitChars_toDigits (b := 10) (n := x.digits) (by decide) (by decide)
  unfold Decimal.scientific
  dsimp only
  generalize (trimZeros (Nat.toDigits 10 x.digits)).1 = ds at hsplit
  generalize (trimZeros (Nat.toDigits 10 x.digits)).2 = k at hsplit
  rw [← hsplit] at hdigits hhead hvalue ⊢
  rw [ofDigitChars_append_zeros] at hvalue
  have hne : ds ≠ [] := by
    rintro rfl
    exact hx (by rw [← hvalue, Nat.ofDigitChars_nil, Nat.zero_mul])
  rw [List.all_append, Bool.and_eq_true] at hdigits
  rw [List.head?_append_of_ne_nil _ hne] at hhead
  refine ⟨hne, hdigits.1, hhead, ?_⟩
  rw [Decimal.value, ← hvalue, Nat.cast_mul, Nat.cast_pow, Nat.cast_ofNat, mul_assoc,
    ← zpow_natCast, ← zpow_add₀ (by norm_num), List.length_append, List.length_replicate]
  congr 2
  omega

theorem shortest_digits_ne_zero {m : Nat} {q : Int} (h : binary64.Canonical m q) (hm : m ≠ 0) :
    (shortest m q).digits ≠ 0 := by
  have hpos : (0 : ℚ) < m * 2 ^ q :=
    mul_pos (by exact_mod_cast Nat.pos_of_ne_zero hm) (two_zpow_pos q)
  have hlt := lt_written h canonical_zero (by rwa [Nat.cast_zero, zero_mul])
  rw [Nat.cast_zero, zero_mul, written, if_neg hm, Decimal.value] at hlt
  intro hzero
  rw [hzero, Nat.cast_zero, zero_mul] at hlt
  exact hlt.false

/-- **All places of a double make a decimal,** which stands for the number that is written. -/
theorem decimal?_positional {m : Nat} {q : Int} (h : binary64.Canonical m q) :
    decimal? (withPoint (Double.positional m q)).toList = some (written m q) := by
  unfold Double.positional written
  split
  · rw [show (withPoint "0").toList = ['0'] ++ '.' :: ['0'] by decide,
      decimal?_point (by decide) (by decide) (by decide),
      show Nat.ofDigitChars 10 (['0'] ++ ['0']) 0 = 0 from rfl, Nat.cast_zero, zero_div]
  next hm =>
    obtain ⟨hne, hall, hhead, hvalue⟩ := scientific_value (shortest_digits_ne_zero h hm)
    rw [← hvalue]
    exact (places_pointed _ hne hall hhead).value

end Ieee

/-! ## 2. The truth of bounds -/

namespace Smt

/-- The number that a literal stands for, or an input of which `ρ` is the value. -/
def Term.number? (ρ : String → ℚ) : Term → Option ℚ
  | numeral n => some n
  | fraction s => decimal? s.toList
  | symbol s => some (ρ s)
  | app1 "-" a => (a.number? ρ).map (-·)
  | _ => none

/-- The truth of a comparison between numbers and of two truths together. -/
def Term.truth? (ρ : String → ℚ) : Term → Option Bool
  | app2 "and" a b => do return (← a.truth? ρ) && (← b.truth? ρ)
  | app2 "<=" a b => do return decide ((← a.number? ρ) ≤ (← b.number? ρ))
  | app2 ">=" a b => do return decide ((← b.number? ρ) ≤ (← a.number? ρ))
  | _ => none

variable {ρ : String → ℚ}

theorem Term.number?_negated (t : Term) : t.negated.number? ρ = (t.number? ρ).map (-·) := by
  rw [negated, number?]

theorem Term.number?_ofInt (v : Int) : (Term.ofInt v).number? ρ = some v := by
  unfold ofInt
  split
  next hneg =>
    rw [number?_negated, number?, Option.map_some]
    congr 1
    have : (v.natAbs : Int) = -v := by omega
    rw [← Int.cast_natCast, this, Int.cast_neg, neg_neg]
  next hnonneg =>
    rw [number?]
    congr 1
    have : (v.natAbs : Int) = v := by omega
    rw [← Int.cast_natCast, this]

/-- **The literal of a finite double** stands for the number that is written for it. -/
theorem Term.number?_ofDouble {b : Double} {w : ℚ} (hb : b.value? = some w) :
    ∃ t, Term.ofDouble b = some t ∧ ∀ ρ, t.number? ρ = some b.literal := by
  obtain ⟨neg, m, q, hview, -⟩ := Double.view_of_value? hb
  have hdecimal : ∀ ρ, (fraction (withPoint (Double.positional m q))).number? ρ =
      some (Ieee.written m q) := by
    intro ρ
    rw [number?, Ieee.decimal?_positional (Double.canonical_of_view hview).1]
  rw [Term.ofDouble, hview, Double.literal_of_view hview]
  refine ⟨_, rfl, fun ρ => ?_⟩
  split
  next h =>
    rw [Bool.and_eq_true] at h
    rw [h.1, number?_negated, hdecimal, Option.map_some]
    rfl
  next h =>
    rw [hdecimal]
    cases neg with
    | false => rfl
    | true =>
      -- Both zeros are written without a sign.
      have hm : m = 0 := by simpa using h
      rw [hm, Ieee.written_zero]
      exact congrArg some neg_zero.symm

theorem Term.ofDouble_of_not_finite {b : Double} (hb : b.value? = none) :
    Term.ofDouble b = none := by
  unfold Double.value? at hb
  unfold Term.ofDouble
  cases hview : b.view with
  | finite =>
    rw [hview] at hb
    cases hb
  | nan | infinite => rfl

/-- Everything that a script asserts about an input when it declares it is true of `r`. -/
def Admits (x : Variable) (r : ℚ) : Prop :=
  ∀ t, .assert t ∈ declaration x → t.truth? (fun _ => r) = some true

/-- **The bounds of an integer are asserted as they are.** -/
theorem admits_int_iff (x : IntVar) (r : ℚ) :
    Admits (.int x) r ↔ (x.min.toInt : ℚ) ≤ r ∧ r ≤ x.max.toInt := by
  have hdeclared : ∀ t, .assert t ∈ declaration (.int x) ↔
      t = .app2 "and" (.app2 ">=" (.symbol x.name) (.ofInt x.min.toInt))
        (.app2 "<=" (.symbol x.name) (.ofInt x.max.toInt)) := by
    intro t
    simp [declaration]
  unfold Admits
  simp only [hdeclared, forall_eq]
  simp [Term.truth?, Term.number?, Term.number?_ofInt]

/-- A bound is asserted if it has a literal and is not the extreme. -/
theorem mem_realBound {f name : String} {b extreme : Double} {t : Term} :
    .assert t ∈ realBound f name b extreme ↔
      b ≠ extreme ∧ ∃ u, Term.ofDouble b = some u ∧ t = .app2 f (.symbol name) u := by
  unfold realBound
  split
  next h => simp [h]
  next h =>
    cases Term.ofDouble b with
    | none => simp
    | some u => simp [h]

/-- What is asserted for a bound is true if its literal compares as `f` says. -/
theorem realBound_true_iff (f name : String) (b extreme : Double) (r : ℚ) {P : ℚ → Prop}
    (hf : ∀ u l, u.number? (fun _ => r) = some l →
      ((Term.app2 f (.symbol name) u).truth? (fun _ => r) = some true ↔ P l)) :
    (∀ t, .assert t ∈ realBound f name b extreme → t.truth? (fun _ => r) = some true) ↔
      (b ≠ extreme → ∀ w, b.value? = some w → P b.literal) := by
  constructor
  · intro h hne w hw
    obtain ⟨u, hu, hnumber⟩ := Term.number?_ofDouble hw
    exact (hf u _ (hnumber _)).mp (h _ (mem_realBound.mpr ⟨hne, u, hu, rfl⟩))
  · intro h t ht
    obtain ⟨hne, u, hu, rfl⟩ := mem_realBound.mp ht
    cases hb : b.value? with
    | none =>
      rw [Term.ofDouble_of_not_finite hb] at hu
      cases hu
    | some w =>
      obtain ⟨u', hu', hnumber⟩ := Term.number?_ofDouble hb
      cases hu.symm.trans hu'
      exact (hf u _ (hnumber _)).mpr (h hne w hb)

/-- **The bounds of a real are asserted as they are written.**  Of the numbers that are doubles,
only one that is equal to a bound can be on the wrong side of its literal. -/
theorem admits_real_iff (x : RealVar) {y : Double} {r : ℚ} (hy : y.value? = some r) :
    Admits (.real x) r ↔
      (x.min ≠ .largest true →
        ∀ w, x.min.value? = some w → w < r ∨ w = r ∧ x.min.literal ≤ w) ∧
      (x.max ≠ .largest false →
        ∀ w, x.max.value? = some w → r < w ∨ r = w ∧ w ≤ x.max.literal) := by
  have hlower := realBound_true_iff ">=" x.name x.min (.largest true) r (P := (· ≤ r))
    fun u l hl => by simp [Term.truth?, Term.number?, hl]
  have hupper := realBound_true_iff "<=" x.name x.max (.largest false) r (P := (r ≤ ·))
    fun u l hl => by simp [Term.truth?, Term.number?, hl]
  have hdeclared : ∀ t, .assert t ∈ declaration (.real x) ↔
      .assert t ∈ realBound ">=" x.name x.min (.largest true) ∨
        .assert t ∈ realBound "<=" x.name x.max (.largest false) := by
    intro t
    simp [declaration]
  unfold Admits
  simp only [hdeclared, or_imp, forall_and]
  rw [hlower, hupper]
  refine and_congr ?_ ?_
  · exact forall_congr' fun _ => forall_congr' fun w => forall_congr' fun hw =>
      Double.literal_le_iff hw hy
  · exact forall_congr' fun _ => forall_congr' fun w => forall_congr' fun hw =>
      Double.le_literal_iff hw hy

end Smt

end Concolic
