import Concolic.Numeral.Real
import Concolic.Proofs.Rounding

/-
# Doubles in order

A finite double stands for a rational number (`Double.value?`), and `less` compares these numbers
(`Double.less_iff`).  The members of a format lie between the largest one and its negative
(`Format.Canonical.le_greatest`); every single is a double (`Double.value?_single`).  So a
text that is read as a real gives a member of the format it is read with, an infinity or no number
(`Numeral.holds_of_parseReal`).
-/
namespace Concolic

open Ieee

/-! ## 1. Values -/

namespace Double

variable {x y : Double} {neg : Bool} {m : Nat} {q : Int} {v w : ℚ}

/-- The number that a finite double stands for. -/
def value? (x : Double) : Option ℚ :=
  match x.view with
  | .finite neg m q => some (signed neg (m * 2 ^ q))
  | _ => none

theorem value?_of_view (h : x.view = .finite neg m q) :
    x.value? = some (signed neg (m * 2 ^ q)) := by
  rw [value?, h]

theorem view_of_value? (h : x.value? = some v) :
    ∃ neg m q, x.view = .finite neg m q ∧ v = signed neg (m * 2 ^ q) := by
  unfold value? at h
  cases hx : x.view with
  | nan | infinite =>
    rw [hx] at h
    cases h
  | finite neg m q =>
    rw [hx] at h
    exact ⟨neg, m, q, rfl, (Option.some.inj h).symm⟩

/-- **Finite doubles are compared by their values.** -/
theorem less_iff (hx : x.value? = some v) (hy : y.value? = some w) : x.less y = true ↔ v < w := by
  obtain ⟨a, m, p, hxv, rfl⟩ := view_of_value? hx
  obtain ⟨b, n, q, hyv, rfl⟩ := view_of_value? hy
  rw [less, hxv, hyv]
  dsimp only
  rw [decide_eq_true_iff, ← scaledInt_mul (min_le_left p q), ← scaledInt_mul (min_le_right p q),
    mul_lt_mul_iff_left₀ (two_zpow_pos _), Int.cast_lt]

/-- Whether `x ≤ y`; never so for not-a-number. -/
def AtMost (x y : Double) : Prop := x.isNaN = false ∧ y.isNaN = false ∧ y.less x = false

instance (x y : Double) : Decidable (x.AtMost y) := instDecidableAnd

theorem isNaN_of_value? (h : x.value? = some v) : x.isNaN = false := by
  obtain ⟨a, m, p, hx, -⟩ := view_of_value? h
  rw [isNaN, hx]
  rfl

theorem atMost_iff (hx : x.value? = some v) (hy : y.value? = some w) : x.AtMost y ↔ v ≤ w := by
  have hless : y.less x = false ↔ v ≤ w := by
    rw [← Bool.not_eq_true, less_iff hy hx, not_lt]
  rw [AtMost, hless]
  exact ⟨fun h => h.2.2, fun h => ⟨isNaN_of_value? hx, isNaN_of_value? hy, h⟩⟩

theorem signed_le (hv : 0 ≤ v) (neg : Bool) : signed neg v ≤ v := by
  cases neg with
  | false => exact le_rfl
  | true => exact (neg_nonpos.mpr hv).trans hv

theorem le_signed (hv : 0 ≤ v) (neg : Bool) : -v ≤ signed neg v := by
  cases neg with
  | false => exact (neg_nonpos.mpr hv).trans hv
  | true => exact le_rfl

end Double

/-! ## 2. Members of a format -/

namespace Ieee

variable {f : Format} {m : Nat} {q : Int}

theorem magnitude_nonneg (m : Nat) (q : Int) : (0 : ℚ) ≤ m * 2 ^ q :=
  mul_nonneg (Nat.cast_nonneg m) (two_zpow_pos q).le

/-- The largest member of a format. -/
def Format.greatest (f : Format) : ℚ := (2 ^ f.precision - 1) * 2 ^ f.maxExponent

theorem Format.Canonical.le_greatest (h : f.Canonical m q) : (m : ℚ) * 2 ^ q ≤ f.greatest := by
  have hm : (m : ℚ) + 1 ≤ 2 ^ f.precision := by
    have hlt : m + 1 ≤ 2 ^ f.precision := h.lt
    exact_mod_cast hlt
  calc (m : ℚ) * 2 ^ q ≤ m * 2 ^ f.maxExponent :=
        mul_le_mul_of_nonneg_left (two_zpow_le_iff.mpr h.greatest) (Nat.cast_nonneg m)
    _ ≤ f.greatest := mul_le_mul_of_nonneg_right (by linarith) (two_zpow_pos _).le

/-- A number with few bits whose exponent is not too small has a canonical form. -/
theorem Format.exists_canonical (hf : f.minExponent ≤ f.maxExponent)
    (hm : m < pow2 f.precision) (hleast : f.minExponent + f.precision ≤ q)
    (hgreatest : q ≤ f.maxExponent) :
    ∃ n r, f.Canonical n r ∧ (n : ℚ) * 2 ^ r = m * 2 ^ q := by
  by_cases hzero : m = 0
  · refine ⟨0, f.minExponent, ⟨pow2_pos _, le_rfl, hf, .inl rfl⟩, ?_⟩
    rw [hzero, Nat.cast_zero, zero_mul, zero_mul]
  -- The significand is shifted until all its bits are used.
  have hlt : m.log2 < f.precision := (Nat.log2_lt hzero).mpr hm
  obtain ⟨k, hk⟩ : ∃ k, f.precision = m.log2 + 1 + k := ⟨f.precision - (m.log2 + 1), by omega⟩
  have hpow : pow2 f.precision = 2 ^ (m.log2 + 1) * 2 ^ k := by
    rw [← Nat.pow_add, ← hk]
    rfl
  refine ⟨m * 2 ^ k, q - k, ⟨?_, by omega, by omega, .inr ?_⟩, ?_⟩
  · rw [hpow]
    exact Nat.mul_lt_mul_of_pos_right Nat.lt_log2_self (Nat.two_pow_pos k)
  · rw [hpow, Nat.pow_succ', Nat.mul_assoc]
    exact Nat.mul_le_mul_left 2 (Nat.mul_le_mul_right _ (Nat.log2_self_le hzero))
  · rw [Nat.cast_mul, Nat.cast_pow, Nat.cast_ofNat, mul_assoc, ← zpow_natCast,
      ← zpow_add₀ (by norm_num)]
    congr 2
    omega

end Ieee

namespace Double

variable {x : Double} {neg : Bool} {m n d : Nat} {q : Int}

theorem value?_pack (h : binary64.Canonical m q) (neg : Bool) :
    (pack neg m q).value? = some (signed neg (m * 2 ^ q)) :=
  value?_of_view (view_pack h neg)

theorem value?_infinity (neg : Bool) : (infinity neg).value? = none := by
  cases neg <;> rfl

/-- **A single is a double.** -/
theorem value?_single (h : binary32.Canonical m q) (neg : Bool) :
    (ofRatio neg (m * pow2 q) (pow2 (-q))).value? = some (signed neg (m * 2 ^ q)) := by
  have hratio : ((m * pow2 q : Nat) : ℚ) / pow2 (-q) = m * 2 ^ q := by
    rw [Nat.cast_mul, mul_div_assoc, pow2_div]
  obtain ⟨hlt, hleast, hgreatest, -⟩ := h
  have hprecision : pow2 binary32.precision < pow2 binary64.precision := by decide
  have hmin : binary64.minExponent + binary64.precision ≤ binary32.minExponent := by decide
  have hmax : binary32.maxExponent ≤ binary64.maxExponent := by decide
  obtain ⟨n, r, hn, hvalue⟩ := Format.exists_canonical (f := binary64) (by decide)
    (hlt.trans hprecision) (hmin.trans hleast) (hgreatest.trans hmax)
  rw [ofRatio_of_canonical hn (pow2_pos _) (hratio.trans hvalue.symm), value?_pack hn, hvalue]

end Double

/-! ## 3. Reals that are read -/

namespace Numeral

/-- The format of a precision. -/
def Precision.format : Precision → Format
  | single => binary32
  | double => binary64

/-- A finite double of this precision is a member of the format. -/
def Precision.Holds (p : Precision) (x : Double) : Prop :=
  ∀ v, x.value? = some v → ∃ neg m q, p.format.Canonical m q ∧ v = Double.signed neg (m * 2 ^ q)

theorem Precision.Holds.le_greatest {p : Precision} {x : Double} {v : ℚ} (h : p.Holds x)
    (hv : x.value? = some v) : -p.format.greatest ≤ v ∧ v ≤ p.format.greatest := by
  obtain ⟨neg, m, q, hm, rfl⟩ := h v hv
  have hnonneg := magnitude_nonneg m q
  exact ⟨(neg_le_neg hm.le_greatest).trans (Double.le_signed hnonneg neg),
    (Double.signed_le hnonneg neg).trans hm.le_greatest⟩

theorem holds_infinity (p : Precision) (neg : Bool) : p.Holds (.infinity neg) := by
  intro v hv
  rw [Double.value?_infinity] at hv
  cases hv

theorem holds_nan (p : Precision) : p.Holds p.nan := by
  have hno : p.nan.value? = none := by cases p <;> rfl
  intro v hv
  rw [hno] at hv
  cases hv

/-- What is rounded to a precision is a member of its format or infinite. -/
theorem holds_round (p : Precision) (neg : Bool) (n : Nat) {d : Nat} (hd : 0 < d) :
    p.Holds (p.round neg n d) := by
  cases p with
  | single =>
    show Precision.Holds .single (Double.singleOfRatio neg n d)
    unfold Double.singleOfRatio
    cases h : binary32.nearest n d with
    | none => exact holds_infinity _ _
    | some mq =>
      obtain ⟨m, q⟩ := mq
      have hm := Format.canonical_of_nearest (by decide) (by decide) hd h
      intro v hv
      rw [Double.value?_single hm] at hv
      exact ⟨neg, m, q, hm, (Option.some.inj hv).symm⟩
  | double =>
    show Precision.Holds .double (Double.ofRatio neg n d)
    unfold Double.ofRatio
    cases h : binary64.nearest n d with
    | none => exact holds_infinity _ _
    | some mq =>
      obtain ⟨m, q⟩ := mq
      have hm := Format.canonical_of_nearest (by decide) (by decide) hd h
      intro v hv
      rw [Double.value?_pack hm] at hv
      exact ⟨neg, m, q, hm, (Option.some.inj hv).symm⟩

theorem holds_zero (p : Precision) (neg : Bool) : p.Holds (.zero neg) := by
  intro v hv
  rw [Double.value?_of_view (Double.view_zero neg), Nat.cast_zero, zero_mul] at hv
  refine ⟨neg, 0, p.format.minExponent, ?_, ?_⟩
  · cases p <;> exact ⟨by decide, le_rfl, by decide, .inl rfl⟩
  · rw [← Option.some.inj hv, Nat.cast_zero, zero_mul]

/-- The base of a number is two or ten. -/
theorem base_of_readNumber {cs : List Char} {neg : Bool} {m base : Nat} {e : Int}
    (h : readNumber cs = some (.exact neg m base e)) : base = 2 ∨ base = 10 := by
  unfold readNumber at h
  dsimp only at h
  split at h
  · split at h
    · obtain ⟨-, -, h⟩ := Option.bind_eq_some_iff.mp h
      obtain ⟨k, -, h⟩ := Option.bind_eq_some_iff.mp h
      cases h
      exact .inl rfl
    · cases h
  · split at h
    · obtain ⟨-, -, h⟩ := Option.bind_eq_some_iff.mp h
      cases h
      exact .inr rfl
    · obtain ⟨-, -, h⟩ := Option.bind_eq_some_iff.mp h
      obtain ⟨k, -, h⟩ := Option.bind_eq_some_iff.mp h
      cases h
      exact .inr rfl

theorem base_pos_of_readReal {cs : List Char} {neg : Bool} {m base : Nat} {e : Int}
    (h : readReal cs = some (.exact neg m base e)) : 0 < base := by
  unfold readReal at h
  split at h
  next t ht =>
    cases h
    unfold readSpecial at ht
    dsimp only at ht
    split at ht
    · cases ht
    · split at ht <;> cases ht
  · have := base_of_readNumber h
    omega

theorem holds_roundPower (p : Precision) (neg : Bool) (m : Nat) {base : Nat} (hbase : 0 < base)
    (e : Int) : p.Holds (p.roundPower neg m base e) := by
  unfold Precision.roundPower
  dsimp only
  split
  · exact holds_zero p neg
  · split
    · exact holds_infinity p neg
    · exact holds_round p neg _ (Nat.pow_pos hbase)

/-- **A text that is read as a real gives a number of the precision,** an infinity or no number. -/
theorem holds_of_parseReal {p : Precision} {s : String} {x : Double} (h : parseReal p s = .ok x) :
    p.Holds x := by
  unfold parseReal blame at h
  split at h
  · cases h
  · rw [← show p.nan = x from Except.ok.inj h]
    exact holds_nan p
  next neg _ =>
    rw [← show Double.infinity neg = x from Except.ok.inj h]
    exact holds_infinity p neg
  next neg m base e hread =>
    dsimp only at h
    split at h
    · cases h
      exact holds_roundPower p neg m (base_pos_of_readReal hread) e
    · cases h

end Numeral

end Concolic
