import Concolic.Ieee.Arithmetic
import Mathlib.Algebra.Order.Field.Power
import Mathlib.Tactic.Linarith
import Mathlib.Tactic.Ring

/-
# Rounding and patterns

Every member of a format has one canonical form `m * 2 ^ q`: the significand has all its bits unless
the exponent is the least (`Format.Canonical`).  `Format.nearest` answers with canonical forms only
(`Format.canonical_of_nearest`), and a quotient that is a member of the format is not changed by it
(`Format.nearest_of_eq`).  The patterns of the finite doubles are the canonical forms with a sign:
`view` and `pack` are inverse to each other.

So rounding a finite double gives that double again (`Double.ofRatio_of_view`).  Two laws of
arithmetic follow for every double but the exceptions they name: one times `x` is `x`, and zero plus
`x` is `x` unless `x` is the negative zero.
-/
namespace Concolic.Ieee

/-! ## 1. Powers -/

/-- A power with a negative exponent is the quotient of two natural numbers. -/
theorem pow_div_pow (b : Nat) (q : Int) :
    ((Nat.pow b q.toNat : Nat) : ℚ) / (Nat.pow b (-q).toNat : Nat) = (b : ℚ) ^ q := by
  show ((b ^ q.toNat : Nat) : ℚ) / (b ^ (-q).toNat : Nat) = (b : ℚ) ^ q
  rw [Nat.cast_pow, Nat.cast_pow]
  rcases Int.le_total 0 q with hq | hq
  · obtain ⟨n, rfl⟩ := Int.eq_ofNat_of_zero_le hq
    rw [Int.toNat_natCast, Int.toNat_eq_zero.mpr (by omega), pow_zero, div_one, zpow_natCast]
  · obtain ⟨n, hn⟩ := Int.eq_ofNat_of_zero_le (show 0 ≤ -q by omega)
    obtain rfl : q = -(n : Int) := by omega
    rw [neg_neg, Int.toNat_natCast, Int.toNat_eq_zero.mpr (by omega), pow_zero, one_div, zpow_neg,
      zpow_natCast]

variable {n d m : Nat} {q e : Int}

/-- The comparison of a quotient with `m * b ^ q` that needs no fractions. -/
theorem mul_pow_le_iff {b : Nat} (hb : 0 < b) (hd : 0 < d) (m : Nat) (q : Int) :
    m * (d * Nat.pow b q.toNat) ≤ n * Nat.pow b (-q).toNat ↔ (m : ℚ) * (b : ℚ) ^ q ≤ n / d := by
  have hd' : (0 : ℚ) < d := by exact_mod_cast hd
  have hp : (0 : ℚ) < (Nat.pow b (-q).toNat : Nat) := by exact_mod_cast Nat.pow_pos hb
  rw [← pow_div_pow b q, ← mul_div_assoc, div_le_div_iff₀ hp hd', ← @Nat.cast_le ℚ, Nat.cast_mul,
    Nat.cast_mul, Nat.cast_mul, mul_comm (d : ℚ), mul_assoc]

theorem pow2_pos (q : Int) : 0 < pow2 q := Nat.two_pow_pos q.toNat

theorem pow2_div (q : Int) : (pow2 q : ℚ) / pow2 (-q) = 2 ^ q := pow_div_pow 2 q

theorem mul_le_iff (hd : 0 < d) (m : Nat) (q : Int) :
    m * (d * pow2 q) ≤ n * pow2 (-q) ↔ (m : ℚ) * 2 ^ q ≤ n / d :=
  mul_pow_le_iff (by decide) hd m q

theorem eq_mul_iff (hd : 0 < d) (m : Nat) (q : Int) :
    n * pow2 (-q) = m * (d * pow2 q) ↔ (n : ℚ) / d = m * 2 ^ q := by
  have hd' : (d : ℚ) ≠ 0 := by exact_mod_cast hd.ne'
  have hp : (pow2 (-q) : ℚ) ≠ 0 := by exact_mod_cast (pow2_pos (-q)).ne'
  rw [← pow2_div q, ← mul_div_assoc, div_eq_div_iff hd' hp, ← @Nat.cast_inj ℚ, Nat.cast_mul,
    Nat.cast_mul, Nat.cast_mul, mul_comm (d : ℚ), mul_assoc]

theorem two_zpow_le_iff {a b : Int} : (2 : ℚ) ^ a ≤ 2 ^ b ↔ a ≤ b :=
  zpow_le_zpow_iff_right₀ (by norm_num)

theorem two_zpow_lt_iff {a b : Int} : (2 : ℚ) ^ a < 2 ^ b ↔ a < b :=
  zpow_lt_zpow_iff_right₀ (by norm_num)

theorem two_zpow_pos (q : Int) : (0 : ℚ) < 2 ^ q := zpow_pos (by norm_num) q

theorem pow2_of_nonneg (hq : 0 ≤ q) : (pow2 q : ℚ) = 2 ^ q := by
  rw [← pow2_div q, show pow2 (-q) = 1 by rw [pow2, Int.toNat_eq_zero.mpr (by omega)],
    Nat.cast_one, div_one]

/-- `floorLog2` is the exponent of the greatest power of two that is not above the quotient. -/
theorem floorLog2_spec (hn : n ≠ 0) (hd : 0 < d) :
    (2 : ℚ) ^ floorLog2 n d ≤ n / d ∧ (n : ℚ) / d < 2 ^ (floorLog2 n d + 1) := by
  have hd' : (0 : ℚ) < d := by exact_mod_cast hd
  have hn1 : (2 : ℚ) ^ (n.log2 : Int) ≤ n := by
    rw [zpow_natCast]; exact_mod_cast Nat.log2_self_le hn
  have hn2 : (n : ℚ) < 2 ^ ((n.log2 : Int) + 1) := by
    have h : n < 2 ^ (n.log2 + 1) := Nat.lt_log2_self
    exact_mod_cast h
  have hd1 : (2 : ℚ) ^ (d.log2 : Int) ≤ d := by
    rw [zpow_natCast]; exact_mod_cast Nat.log2_self_le hd.ne'
  have hd2 : (d : ℚ) < 2 ^ ((d.log2 : Int) + 1) := by
    have h : d < 2 ^ (d.log2 + 1) := Nat.lt_log2_self
    exact_mod_cast h
  -- The difference of the logarithms is off by one at most, and never too small.
  have hlow : (2 : ℚ) ^ ((n.log2 : Int) - d.log2 - 1) ≤ n / d := by
    rw [le_div_iff₀ hd']
    calc (2 : ℚ) ^ ((n.log2 : Int) - d.log2 - 1) * d
        ≤ 2 ^ ((n.log2 : Int) - d.log2 - 1) * 2 ^ ((d.log2 : Int) + 1) :=
          mul_le_mul_of_nonneg_left hd2.le (two_zpow_pos _).le
      _ = 2 ^ (n.log2 : Int) := by
          rw [← zpow_add₀ (by norm_num)]
          congr 1
          omega
      _ ≤ n := hn1
  have hhigh : (n : ℚ) / d < 2 ^ ((n.log2 : Int) - d.log2 + 1) := by
    rw [div_lt_iff₀ hd']
    calc (n : ℚ) < 2 ^ ((n.log2 : Int) + 1) := hn2
      _ = 2 ^ ((n.log2 : Int) - d.log2 + 1) * 2 ^ (d.log2 : Int) := by
          rw [← zpow_add₀ (by norm_num)]
          congr 1
          omega
      _ ≤ 2 ^ ((n.log2 : Int) - d.log2 + 1) * d :=
          mul_le_mul_of_nonneg_left hd1 (two_zpow_pos _).le
  have hcut := mul_le_iff (n := n) hd 1 ((n.log2 : Int) - d.log2)
  rw [one_mul, Nat.cast_one, one_mul] at hcut
  unfold floorLog2
  dsimp only
  split
  next h => exact ⟨hcut.mp h, hhigh⟩
  next h =>
    refine ⟨hlow, ?_⟩
    rw [sub_add_cancel]
    exact not_le.mp fun hle => h (hcut.mpr hle)

/-! ## 2. Rounding to an integer -/

theorem roundQuotient_mul (m : Nat) (hd : 0 < d) : roundQuotient (m * d) d = m := by
  unfold roundQuotient
  dsimp only
  rw [Nat.mul_mod_left, Nat.mul_div_cancel m hd, if_pos (Or.inl (by omega))]

theorem le_roundQuotient (h : m * d ≤ n) (hd : 0 < d) : m ≤ roundQuotient n d := by
  have hq : m ≤ n / d := (Nat.le_div_iff_mul_le hd).mpr h
  unfold roundQuotient
  dsimp only
  split <;> omega

theorem roundQuotient_le (h : n ≤ m * d) (hd : 0 < d) : roundQuotient n d ≤ m := by
  unfold roundQuotient
  dsimp only
  rcases Nat.lt_or_ge (n / d) m with hlt | hge
  · split <;> omega
  · have hn : n = m * d := Nat.le_antisymm h ((Nat.le_div_iff_mul_le hd).mp hge)
    rw [hn, Nat.mul_mod_left, Nat.mul_div_cancel m hd, if_pos (Or.inl (by omega))]

theorem roundScaled_of_eq (hd : 0 < d) (h : (n : ℚ) / d = m * 2 ^ q) : roundScaled n d q = m := by
  rw [roundScaled, (eq_mul_iff hd m q).mpr h]
  exact roundQuotient_mul m (Nat.mul_pos hd (pow2_pos q))

theorem le_roundScaled (hd : 0 < d) (h : (m : ℚ) * 2 ^ q ≤ n / d) : m ≤ roundScaled n d q :=
  le_roundQuotient ((mul_le_iff hd m q).mpr h) (Nat.mul_pos hd (pow2_pos q))

theorem roundScaled_le (hd : 0 < d) (h : (n : ℚ) / d < m * 2 ^ q) : roundScaled n d q ≤ m := by
  refine roundQuotient_le ?_ (Nat.mul_pos hd (pow2_pos q))
  by_contra hlt
  exact absurd ((mul_le_iff hd m q).mp (by omega)) (not_le.mpr h)

/-! ## 3. Rounding to a format -/

/-- The form in which a format holds `m * 2 ^ q`. -/
structure Format.Canonical (f : Format) (m : Nat) (q : Int) : Prop where
  lt : m < pow2 f.precision
  least : f.minExponent ≤ q
  greatest : q ≤ f.maxExponent
  normal : q = f.minExponent ∨ pow2 f.precision ≤ 2 * m

variable {f : Format}

/-- The nearest member of a positive quotient: a significand that got a bit too many is halved. -/
theorem Format.nearest_eq (hn : n ≠ 0)
    (hq : max f.minExponent (floorLog2 n d - (f.precision - 1)) = q) (hm : roundScaled n d q = m) :
    f.nearest n d =
      if m = pow2 f.precision then if f.maxExponent < q + 1 then none else some (m / 2, q + 1)
      else if f.maxExponent < q then none else some (m, q) := by
  unfold nearest
  rw [if_neg hn]
  dsimp only
  rw [hq, hm]
  split <;> rfl

/-- **A member of the format is its own nearest member.** -/
theorem Format.nearest_of_eq (hm : f.Canonical m q) (hd : 0 < d)
    (h : (n : ℚ) / d = m * 2 ^ q) : f.nearest n d = some (m, q) := by
  have hd' : (d : ℚ) ≠ 0 := by exact_mod_cast hd.ne'
  have hp : (m : ℚ) < 2 ^ (f.precision : Int) := by
    rw [← pow2_of_nonneg (by omega)]; exact_mod_cast hm.lt
  by_cases hn : n = 0
  · -- Zero has one canonical form only.
    rw [nearest, if_pos hn]
    rw [hn, Nat.cast_zero, zero_div, eq_comm, mul_eq_zero, or_iff_left (two_zpow_pos q).ne'] at h
    obtain rfl : m = 0 := by exact_mod_cast h
    rcases hm.normal with rfl | hnormal
    · rfl
    · exact absurd (pow2_pos f.precision) (by omega)
  · obtain ⟨hlow, hhigh⟩ := floorLog2_spec hn hd
    rw [h] at hlow hhigh
    have hupper : floorLog2 n d < q + f.precision := by
      rw [← two_zpow_lt_iff, zpow_add₀ (by norm_num), mul_comm]
      exact lt_of_le_of_lt hlow (mul_lt_mul_of_pos_right hp (two_zpow_pos q))
    have hexponent : max f.minExponent (floorLog2 n d - (f.precision - 1)) = q := by
      rcases hm.normal with rfl | hnormal
      · omega
      · have hhalf : (2 : ℚ) ^ (f.precision : Int) ≤ 2 * m := by
          rw [← pow2_of_nonneg (by omega)]; exact_mod_cast hnormal
        have hlower : q + f.precision < floorLog2 n d + 1 + 1 := by
          rw [← two_zpow_lt_iff, zpow_add₀ (by norm_num), zpow_add₀ (by norm_num) (_ + 1), zpow_one]
          calc (2 : ℚ) ^ q * 2 ^ (f.precision : Int) ≤ 2 ^ q * (2 * m) :=
                mul_le_mul_of_nonneg_left hhalf (two_zpow_pos q).le
            _ = m * 2 ^ q * 2 := by ring
            _ < 2 ^ (floorLog2 n d + 1) * 2 := mul_lt_mul_of_pos_right hhigh (by norm_num)
        have := hm.least
        omega
    rw [nearest_eq hn hexponent (roundScaled_of_eq hd h), if_neg hm.lt.ne,
      if_neg (not_lt.mpr hm.greatest)]

/-- **The nearest member is found in its canonical form.** -/
theorem Format.canonical_of_nearest (hp : 0 < f.precision) (hf : f.minExponent ≤ f.maxExponent)
    (hd : 0 < d) (h : f.nearest n d = some (m, q)) : f.Canonical m q := by
  obtain ⟨p, hprecision⟩ : ∃ p, f.precision = p + 1 := ⟨f.precision - 1, by omega⟩
  have hdouble : pow2 f.precision = 2 * pow2 (p : Int) := by
    rw [hprecision, pow2, pow2, Int.toNat_natCast, Int.toNat_natCast]
    exact Nat.pow_succ'
  by_cases hn : n = 0
  · rw [nearest, if_pos hn] at h
    cases h
    exact ⟨pow2_pos _, le_rfl, hf, .inl rfl⟩
  obtain ⟨hlow, hhigh⟩ := floorLog2_spec hn hd
  generalize hq₀ : max f.minExponent (floorLog2 n d - (f.precision - 1)) = q₀
  generalize hm₀ : roundScaled n d q₀ = m₀
  rw [nearest_eq hn hq₀ hm₀] at h
  have hupper : m₀ ≤ pow2 f.precision := by
    rw [← hm₀]
    refine roundScaled_le hd (lt_of_lt_of_le hhigh ?_)
    rw [pow2_of_nonneg (by omega), ← zpow_add₀ (by norm_num), two_zpow_le_iff]
    omega
  have hlower : q₀ = f.minExponent ∨ pow2 (p : Int) ≤ m₀ := by
    by_cases hmin : q₀ = f.minExponent
    · exact .inl hmin
    · refine .inr ?_
      rw [← hm₀]
      refine le_roundScaled hd (le_trans ?_ hlow)
      rw [pow2_of_nonneg (by omega), ← zpow_add₀ (by norm_num), two_zpow_le_iff]
      omega
  by_cases hcarry : m₀ = pow2 f.precision
  · rw [if_pos hcarry] at h
    split at h
    · cases h
    next hgreatest =>
      cases h
      have := pow2_pos (p : Int)
      exact ⟨by omega, by omega, by omega, .inr (by omega)⟩
  · rw [if_neg hcarry] at h
    split at h
    · cases h
    next hgreatest =>
      cases h
      exact ⟨by omega, by omega, by omega, hlower.imp_right fun h => by omega⟩

end Concolic.Ieee

namespace Concolic.Double

open Ieee

/-! ## 4. Patterns -/

variable {x : Double} {neg a : Bool} {m n d : Nat} {q : Int}

theorem pow2_52 : pow2 52 = 4503599627370496 := rfl

theorem pow2_63 : pow2 63 = 9223372036854775808 := rfl

theorem signBit_true : signBit true = 9223372036854775808 := rfl

theorem signBit_false : signBit false = 0 := rfl

theorem toNat_ofFields (hm : m < pow2 63) (neg : Bool) :
    (ofFields neg m).bits.toNat = signBit neg + m := by
  rw [pow2_63] at hm
  rw [ofFields, UInt64.toNat_ofNat', Nat.mod_eq_of_lt]
  cases neg with
  | false => rw [signBit_false]; omega
  | true => rw [signBit_true]; omega

theorem isNegative_ofFields (hm : m < pow2 63) (neg : Bool) :
    (ofFields neg m).isNegative = neg := by
  rw [isNegative, toNat_ofFields hm]
  rw [pow2_63] at hm ⊢
  cases neg with
  | false => exact decide_eq_false (by rw [signBit_false]; omega)
  | true => exact decide_eq_true (by rw [signBit_true]; omega)

theorem magnitude_ofFields (hm : m < pow2 63) (neg : Bool) :
    (ofFields neg m).bits.toNat % pow2 63 = m := by
  rw [toNat_ofFields hm]
  rw [pow2_63] at hm ⊢
  cases neg with
  | false => rw [signBit_false]; omega
  | true => rw [signBit_true]; omega

/-- A pattern consists of its sign and its magnitude. -/
theorem ofFields_self (x : Double) : ofFields x.isNegative (x.bits.toNat % pow2 63) = x := by
  have hlt := x.bits.toNat_lt
  have hbits : signBit x.isNegative + x.bits.toNat % pow2 63 = x.bits.toNat := by
    rw [isNegative, pow2_63]
    by_cases hsign : 9223372036854775808 ≤ x.bits.toNat
    · rw [decide_eq_true hsign, signBit_true]
      omega
    · rw [decide_eq_false hsign, signBit_false]
      omega
  rw [ofFields, hbits, UInt64.ofNat_toNat]

/-- **The number that the pattern of a finite double stands for is in canonical form,** and the form
determines the pattern. -/
theorem canonical_of_view (h : x.view = .finite neg m q) :
    binary64.Canonical m q ∧ pack neg m q = x := by
  have hprecision : pow2 binary64.precision = 9007199254740992 := rfl
  have hself := ofFields_self x
  unfold view at h
  dsimp only at h
  have hmagnitude : x.bits.toNat % pow2 63 < 9223372036854775808 := Nat.mod_lt _ (pow2_pos 63)
  generalize x.bits.toNat % pow2 63 = k at h hself hmagnitude
  rw [pow2_52] at h
  split at h
  · split at h <;> cases h
  next hfinite =>
    split at h
    next hsubnormal =>
      obtain ⟨rfl, rfl, rfl⟩ := View.finite.inj h
      refine ⟨⟨by omega, le_rfl, by decide, .inl rfl⟩, ?_⟩
      rw [pack, if_pos (by rw [pow2_52]; omega), show k % 4503599627370496 = k by omega, hself]
    next hnormal =>
      obtain ⟨rfl, rfl, rfl⟩ := View.finite.inj h
      have hexponent : k / 4503599627370496 ≤ 2046 := by omega
      generalize he : k / 4503599627370496 = e at *
      refine ⟨⟨by omega, ?_, ?_, .inr (by omega)⟩, ?_⟩
      · show (-1074 : Int) ≤ _
        omega
      · show _ ≤ (971 : Int)
        omega
      · rw [pack, pow2_52, if_neg (by omega),
          show ((e : Int) - 1075 + 1075).toNat * 4503599627370496 +
            (4503599627370496 + k % 4503599627370496 - 4503599627370496) = k by omega, hself]

/-- The pattern that is made of a canonical form stands for it. -/
theorem view_pack (h : binary64.Canonical m q) (neg : Bool) :
    (pack neg m q).view = .finite neg m q := by
  have hprecision : pow2 binary64.precision = 9007199254740992 := rfl
  obtain ⟨hlt, hleast, hgreatest, hnormal⟩ := h
  rw [show binary64.minExponent = -1074 from rfl] at hleast hnormal
  rw [show binary64.maxExponent = 971 from rfl] at hgreatest
  rw [hprecision] at hlt hnormal
  unfold pack view
  rw [pow2_52]
  by_cases hm : m < 4503599627370496
  · have hfit : m < pow2 63 := by rw [pow2_63]; omega
    obtain rfl : q = -1074 := hnormal.resolve_right (by omega)
    rw [if_pos hm, magnitude_ofFields hfit, isNegative_ofFields hfit, if_neg (by omega),
      if_pos (by omega), Nat.mod_eq_of_lt hm]
  · obtain ⟨e, he⟩ := Int.eq_ofNat_of_zero_le (show 0 ≤ q + 1075 by omega)
    have hfit : (q + 1075).toNat * 4503599627370496 + (m - 4503599627370496) < pow2 63 := by
      rw [pow2_63]; omega
    rw [he, Int.toNat_natCast] at hfit ⊢
    have hexponent : (e * 4503599627370496 + (m - 4503599627370496)) / 4503599627370496 = e := by
      omega
    have hfraction : (e * 4503599627370496 + (m - 4503599627370496)) % 4503599627370496 =
        m - 4503599627370496 := by
      omega
    rw [if_neg hm, magnitude_ofFields hfit, isNegative_ofFields hfit]
    dsimp only
    rw [hexponent, hfraction, if_neg (by omega), if_neg (by omega), Nat.add_sub_cancel' (by omega),
      show (e : Int) - 1075 = q by omega]

theorem ofRatio_of_canonical (h : binary64.Canonical m q) (hd : 0 < d)
    (heq : (n : ℚ) / d = m * 2 ^ q) (neg : Bool) : ofRatio neg n d = pack neg m q := by
  rw [ofRatio, Format.nearest_of_eq h hd heq]

/-- **A double is rounded to itself.** -/
theorem ofRatio_of_view (h : x.view = .finite neg m q) (hd : 0 < d)
    (heq : (n : ℚ) / d = m * 2 ^ q) : ofRatio neg n d = x := by
  obtain ⟨hm, hpack⟩ := canonical_of_view h
  rw [ofRatio_of_canonical hm hd heq, hpack]

theorem eq_infinity_of_view (h : x.view = .infinite neg) : x = infinity neg := by
  have hself := ofFields_self x
  unfold view at h
  dsimp only at h
  generalize x.bits.toNat % pow2 63 = k at h hself
  rw [pow2_52] at h
  split at h
  next hexponent =>
    split at h
    next hfraction =>
      cases h
      rw [infinity, ← hself, show k = 0x7FF0000000000000 by omega]
      rw [isNegative_ofFields (by decide)]
    · cases h
  · split at h <;> cases h

theorem view_zero (neg : Bool) : (zero neg).view = .finite neg 0 (-1074) := by
  cases neg <;> decide

theorem eq_zero_of_view (h : x.view = .finite neg 0 q) : x = zero neg :=
  (canonical_of_view h).2.symm

theorem view_one : one.view = .finite false (pow2 52) (-52) := by decide

/-! ## 5. Neutral elements -/

/-- The same double; one not-a-number is as good as another. -/
def Same (x y : Double) : Prop := x = y ∨ x.isNaN = true ∧ y.isNaN = true

instance (x y : Double) : Decidable (x.Same y) := instDecidableOr

theorem Same.refl (x : Double) : x.Same x := .inl rfl

theorem Same.symm {x y : Double} (h : x.Same y) : y.Same x :=
  h.imp Eq.symm And.symm

theorem Same.trans {x y z : Double} (h : x.Same y) (h' : y.Same z) : x.Same z := by
  rcases h with rfl | ⟨hx, hy⟩
  · exact h'
  · rcases h' with rfl | ⟨-, hz⟩
    · exact .inr ⟨hx, hy⟩
    · exact .inr ⟨hx, hz⟩

theorem isNaN_of_view (h : x.view = .nan) : x.isNaN = true := decide_eq_true h

/-- The sum does not depend on the order of the operands. -/
theorem addWith_comm (round : Rounder) (x y : Double) :
    (addWith round x y).Same (addWith round y x) := by
  unfold addWith
  cases hx : x.view with
  | nan =>
    cases hy : y.view with
    | nan => exact .inr ⟨isNaN_of_view hx, isNaN_of_view hy⟩
    | infinite | finite => exact .refl x
  | infinite a =>
    cases hy : y.view with
    | nan => exact .refl y
    | finite => exact .refl x
    | infinite b =>
      refine .inl ?_
      dsimp only
      by_cases hab : a = b
      · rw [if_pos hab, if_pos hab.symm, eq_infinity_of_view hx, eq_infinity_of_view hy, hab]
      · rw [if_neg hab, if_neg (Ne.symm hab)]
  | finite a m p =>
    cases hy : y.view with
    | nan | infinite => exact .refl y
    | finite b n q =>
      refine .inl ?_
      dsimp only
      rw [min_comm, Bool.and_comm, Int.add_comm]

/-- The product does not depend on the order of the operands. -/
theorem mulWith_comm (round : Rounder) (x y : Double) :
    (mulWith round x y).Same (mulWith round y x) := by
  unfold mulWith
  cases hx : x.view with
  | nan =>
    cases hy : y.view with
    | nan => exact .inr ⟨isNaN_of_view hx, isNaN_of_view hy⟩
    | infinite | finite => exact .refl x
  | infinite a =>
    cases hy : y.view with
    | nan => exact .refl y
    | infinite b | finite b n q =>
      refine .inl ?_
      dsimp only
      rw [bne_comm]
  | finite a m p =>
    cases hy : y.view with
    | nan => exact .refl y
    | infinite b =>
      refine .inl ?_
      dsimp only
      rw [bne_comm]
    | finite b n q =>
      refine .inl ?_
      dsimp only
      rw [bne_comm, Nat.mul_comm m, Int.add_comm p]

/-- A magnitude with a sign. -/
def signed (neg : Bool) (v : ℚ) : ℚ := if neg then -v else v

theorem scaledInt_mul {unit : Int} (h : unit ≤ q) (neg : Bool) (m : Nat) :
    (scaledInt neg m q unit : ℚ) * 2 ^ unit = signed neg (m * 2 ^ q) := by
  have hscaled : ((m * pow2 (q - unit) : Nat) : ℚ) * 2 ^ unit = m * 2 ^ q := by
    rw [Nat.cast_mul, pow2_of_nonneg (by omega), mul_assoc, ← zpow_add₀ (by norm_num),
      Int.sub_add_cancel]
  unfold scaledInt signed
  dsimp only
  cases neg with
  | false => rw [if_neg Bool.false_ne_true, if_neg Bool.false_ne_true, Int.cast_natCast, hscaled]
  | true => rw [if_pos rfl, if_pos rfl, Int.cast_neg, Int.cast_natCast, neg_mul, hscaled]

/-- An exact integer result that is a double is rounded to that double. -/
theorem roundInt_of_view {k : Int} {unit : Int} (h : x.view = .finite a m q) (hm : m ≠ 0)
    (hk : (k : ℚ) * 2 ^ unit = signed a (m * 2 ^ q)) (zeroNeg : Bool) :
    roundInt ofRatio zeroNeg k unit = x := by
  have hpos : (0 : ℚ) < m * 2 ^ q :=
    mul_pos (by exact_mod_cast Nat.pos_of_ne_zero hm) (two_zpow_pos q)
  have hunit := two_zpow_pos unit
  have hsign : k ≠ 0 ∧ decide (k < 0) = a := by
    cases a with
    | false =>
      rw [signed, if_neg Bool.false_ne_true] at hk
      have : (0 : ℚ) < k := pos_of_mul_pos_left (hk ▸ hpos) hunit.le
      have : 0 < k := by exact_mod_cast this
      exact ⟨by omega, decide_eq_false (by omega)⟩
    | true =>
      rw [signed, if_pos rfl] at hk
      have : (k : ℚ) < 0 := neg_of_mul_neg_left (by rw [hk]; linarith) hunit.le
      have : k < 0 := by exact_mod_cast this
      exact ⟨by omega, decide_eq_true (by omega)⟩
  obtain ⟨hzero, hneg⟩ := hsign
  rw [roundInt, if_neg hzero, hneg]
  refine ofRatio_of_view h (pow2_pos _) ?_
  have habs : ((k.natAbs : Nat) : ℚ) = |(k : ℚ)| := by
    rw [← Int.cast_natCast, Int.natCast_natAbs, Int.cast_abs]
  rw [Nat.cast_mul, mul_div_assoc, pow2_div, habs, ← abs_of_pos hunit, ← abs_mul, hk]
  cases a with
  | false => exact abs_of_pos hpos
  | true => rw [signed, if_pos rfl, abs_neg, abs_of_pos hpos]

/-- **Zero plus `x` is `x`,** unless `x` is the negative zero. -/
theorem zero_addWith (hx : x ≠ zero true) : (addWith ofRatio (zero false) x).Same x := by
  unfold addWith
  rw [view_zero]
  cases h : x.view with
  | nan | infinite => exact .refl x
  | finite a m q =>
    obtain ⟨⟨-, hleast, -, -⟩, -⟩ := canonical_of_view h
    have hunit : min (-1074) q = -1074 := min_eq_left hleast
    have hzero : scaledInt false 0 (-1074) (-1074) = 0 := rfl
    dsimp only
    rw [hunit, hzero, Int.zero_add, Bool.false_and]
    refine .inl ?_
    by_cases hm : m = 0
    · subst hm
      cases a with
      | true => exact absurd (eq_zero_of_view h) hx
      | false =>
        rw [eq_zero_of_view h, scaledInt, Nat.zero_mul]
        rfl
    · exact roundInt_of_view h hm (scaledInt_mul hleast a m) false

/-- The sum of the two zeros is the positive one. -/
theorem zero_addWith_zero : addWith ofRatio (zero false) (zero true) = zero false := by
  unfold addWith
  rw [view_zero, view_zero]
  rfl

/-- **One times `x` is `x`.** -/
theorem one_mulWith (x : Double) : (mulWith ofRatio one x).Same x := by
  unfold mulWith
  rw [view_one]
  cases h : x.view with
  | nan => exact .refl x
  | infinite a =>
    refine .inl ?_
    dsimp only
    rw [if_neg (by decide), Bool.false_bne, eq_infinity_of_view h]
  | finite a m q =>
    refine .inl ?_
    dsimp only
    rw [Bool.false_bne]
    refine ofRatio_of_view h (pow2_pos _) ?_
    rw [Nat.cast_mul, Nat.cast_mul, mul_div_assoc, pow2_div, pow2_of_nonneg (by decide),
      mul_comm _ (m : ℚ), mul_assoc, ← zpow_add₀ (by norm_num)]
    congr 2
    omega

end Concolic.Double
