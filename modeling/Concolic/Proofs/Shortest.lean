import Concolic.Ieee.Printer
import Concolic.Proofs.DoubleOrder
import Mathlib.Algebra.Order.Field.Basic
import Mathlib.Tactic.FieldSimp

/-
# Shortest decimals

The decimal that `shortest` finds for a double rounds to that double (`roundsTo_shortest`).  The
search begins at a grid on which the double is at least one step from zero, and the seventeenth grid
from there is fine enough: half a step is less than half the way to the next double.

So the decimal is closer to the double than to any other, and the others are on the same side of
both (`Double.literal_between`).
-/
namespace Concolic

namespace Ieee

/-! ## 1. The interval around a double -/

variable {m n d : Nat} {q e : Int}

theorem pow10_pos (e : Int) : 0 < pow10 e := Nat.pow_pos (by decide)

theorem pow10_div (e : Int) : (pow10 e : ℚ) / pow10 (-e) = 10 ^ e := pow_div_pow 10 e

theorem ten_zpow_pos (e : Int) : (0 : ℚ) < 10 ^ e := zpow_pos (by norm_num) e

/-- The number that a decimal stands for. -/
def Decimal.value (x : Decimal) : ℚ := x.digits * 10 ^ x.exponent

/-- How many quarters of a step the interval around `m * 2 ^ q` reaches down. -/
def quarters (m : Nat) (q : Int) : Nat := if narrowBelow m q then 1 else 2

theorem unit_pos (q e : Int) : (0 : ℚ) < pow2 (2 - q) * pow10 (-e) :=
  mul_pos (by exact_mod_cast pow2_pos _) (by exact_mod_cast pow10_pos _)

/-- In the common unit, quarter steps and decimals are whole. -/
theorem quarters_in_units (k : Nat) (q e : Int) :
    ((k * (pow2 (q - 2) * pow10 (-e)) : Nat) : ℚ) =
      k * 2 ^ (q - 2) * (pow2 (2 - q) * pow10 (-e)) := by
  have h2 : (pow2 (2 - q) : ℚ) ≠ 0 := by exact_mod_cast (pow2_pos _).ne'
  rw [← pow2_div, neg_sub]
  push_cast
  field_simp

theorem decimal_in_units (d : Nat) (q e : Int) :
    ((d * pow10 e * pow2 (2 - q) : Nat) : ℚ) = d * 10 ^ e * (pow2 (2 - q) * pow10 (-e)) := by
  have h10 : (pow10 (-e) : ℚ) ≠ 0 := by exact_mod_cast (pow10_pos _).ne'
  rw [← pow10_div]
  push_cast
  field_simp

/-- The comparison of a decimal with a number of quarter steps that needs no fractions. -/
theorem quarter_le_iff (k d : Nat) (q e : Int) :
    k * (pow2 (q - 2) * pow10 (-e)) ≤ d * pow10 e * pow2 (2 - q) ↔
      (k : ℚ) * 2 ^ (q - 2) ≤ d * 10 ^ e := by
  rw [← @Nat.cast_le ℚ, quarters_in_units, decimal_in_units, mul_le_mul_iff_left₀ (unit_pos q e)]

theorem le_quarter_iff (k d : Nat) (q e : Int) :
    d * pow10 e * pow2 (2 - q) ≤ k * (pow2 (q - 2) * pow10 (-e)) ↔
      (d : ℚ) * 10 ^ e ≤ k * 2 ^ (q - 2) := by
  rw [← @Nat.cast_le ℚ, quarters_in_units, decimal_in_units, mul_le_mul_iff_left₀ (unit_pos q e)]

/-- What rounds to a double is in its interval. -/
theorem roundsTo_le (h : roundsTo m q d e = true) :
    ((4 * m - quarters m q : Nat) : ℚ) * 2 ^ (q - 2) ≤ d * 10 ^ e ∧
      (d : ℚ) * 10 ^ e ≤ (4 * m + 2 : Nat) * 2 ^ (q - 2) := by
  rw [← quarter_le_iff, ← le_quarter_iff]
  unfold roundsTo at h
  dsimp only at h
  split at h <;> simp only [Bool.and_eq_true, decide_eq_true_iff] at h
  · exact h
  · exact ⟨h.1.le, h.2.le⟩

/-- What is inside the interval of a double rounds to it. -/
theorem roundsTo_of_lt (hlow : ((4 * m - quarters m q : Nat) : ℚ) * 2 ^ (q - 2) < d * 10 ^ e)
    (hhigh : (d : ℚ) * 10 ^ e < (4 * m + 2 : Nat) * 2 ^ (q - 2)) : roundsTo m q d e = true := by
  rw [← not_le, ← le_quarter_iff, not_le] at hlow
  rw [← not_le, ← quarter_le_iff, not_le] at hhigh
  unfold roundsTo
  dsimp only
  split <;> simp only [Bool.and_eq_true, decide_eq_true_iff]
  · exact ⟨hlow.le, hhigh.le⟩
  · exact ⟨hlow, hhigh⟩

/-! ## 2. The search -/

/-- A quotient in steps of a grid. -/
theorem ratio_eq_steps (n : Nat) (hd : 0 < d) (e : Int) :
    (n : ℚ) / d = (n * pow10 (-e) : Nat) / (d * pow10 e : Nat) * 10 ^ e := by
  have hd' : (d : ℚ) ≠ 0 := by exact_mod_cast hd.ne'
  have he : (pow10 e : ℚ) ≠ 0 := by exact_mod_cast (pow10_pos e).ne'
  have he' : (pow10 (-e) : ℚ) ≠ 0 := by exact_mod_cast (pow10_pos (-e)).ne'
  rw [← pow10_div e, Nat.cast_mul, Nat.cast_mul]
  field_simp

/-- The first neighbour on a grid is at most half a step away. -/
theorem gridNeighbours_near (n : Nat) (hd : 0 < d) (e : Int) :
    ∃ c ∈ gridNeighbours n d e, 2 * |(c : ℚ) * 10 ^ e - n / d| ≤ 10 ^ e := by
  have hD : 0 < d * pow10 e := Nat.mul_pos hd (pow10_pos e)
  rw [ratio_eq_steps n hd e]
  unfold gridNeighbours
  dsimp only
  generalize n * pow10 (-e) = N
  generalize d * pow10 e = D at hD
  have hD' : (0 : ℚ) < D := by exact_mod_cast hD
  have hsplit : (N : ℚ) = D * (N / D : Nat) + (N % D : Nat) := by
    exact_mod_cast (Nat.div_add_mod N D).symm
  have hmod := Nat.mod_lt N hD
  have hhalf : ∀ c : Nat, 2 * |(c : ℚ) * D - N| ≤ D →
      2 * |(c : ℚ) * 10 ^ e - N / D * 10 ^ e| ≤ 10 ^ e := by
    intro c hc
    have hstep : (c : ℚ) - N / D = (c * D - N) / D := by field_simp
    rw [← sub_mul, abs_mul, abs_of_pos (ten_zpow_pos e), hstep, abs_div, abs_of_pos hD',
      ← mul_assoc, mul_div_assoc']
    exact mul_le_of_le_one_left (ten_zpow_pos e).le ((div_le_one hD').mpr hc)
  split
  next hdown =>
    refine ⟨N / D, List.mem_cons_self, hhalf _ ?_⟩
    have hr : 2 * (N % D) ≤ D := by
      simp only [Bool.or_eq_true, Bool.and_eq_true, decide_eq_true_iff] at hdown
      omega
    have hr' : (2 : ℚ) * (N % D : Nat) ≤ D := by exact_mod_cast hr
    rw [hsplit, mul_comm (D : ℚ), sub_add_cancel_left, abs_neg, Nat.abs_cast]
    exact hr'
  next hup =>
    refine ⟨N / D + 1, List.mem_cons_self, hhalf _ ?_⟩
    have hr : D ≤ 2 * (N % D) := by
      simp only [Bool.or_eq_true, Bool.and_eq_true, decide_eq_true_iff] at hup
      omega
    have hr' : (D : ℚ) ≤ 2 * (N % D : Nat) := by exact_mod_cast hr
    have hmod' : ((N % D : Nat) : ℚ) ≤ D := by exact_mod_cast hmod.le
    rw [hsplit, Nat.cast_add, Nat.cast_one, abs_of_nonneg (by linarith)]
    linarith

/-- A search that would succeed on its last grid finds a decimal that rounds to the double. -/
theorem roundsTo_shortestFrom (k : Nat)
    (h : ∃ c ∈ gridNeighbours n d (e - k), roundsTo m q c (e - k) = true) :
    roundsTo m q (shortestFrom m q n d (k + 1) e).digits
      (shortestFrom m q n d (k + 1) e).exponent = true := by
  induction k generalizing e with
  | zero =>
    obtain ⟨c, hc, hround⟩ := h
    rw [Int.natCast_zero, Int.sub_zero] at hc hround
    unfold shortestFrom
    cases hfind : (gridNeighbours n d e).find? fun x => roundsTo m q x e with
    | some x =>
      have hx := List.find?_some hfind
      exact hx
    | none => exact absurd hround (List.find?_eq_none.mp hfind c hc)
  | succ k ih =>
    unfold shortestFrom
    cases hfind : (gridNeighbours n d e).find? fun x => roundsTo m q x e with
    | some x =>
      have hx := List.find?_some hfind
      exact hx
    | none =>
      refine ih ?_
      rw [show e - 1 - (k : Int) = e - (k + 1 : Nat) by omega]
      exact h

/-- The search for the logarithm goes upward as long as the power is not above the quotient. -/
theorem ten_zpow_floorLog10From_le (hd : 0 < d) (fuel : Nat) (h : (10 : ℚ) ^ e ≤ n / d) :
    (10 : ℚ) ^ floorLog10From n d fuel e ≤ n / d := by
  induction fuel generalizing e with
  | zero => exact h
  | succ fuel ih =>
    unfold floorLog10From
    split
    next hle =>
      refine ih ?_
      have hstep := (mul_pow_le_iff (b := 10) (by decide) hd 1 (e + 1)).mp (by rwa [one_mul])
      rwa [Nat.cast_one, one_mul] at hstep
    · exact h

/-- The guess for the logarithm is not too large. -/
theorem ten_zpow_guess_le {k : Int} (hleast : -20000 ≤ k) (hgreatest : k ≤ 20000) :
    (10 : ℚ) ^ (k * 1233 / 4096 - 1) ≤ 2 ^ k := by
  generalize hg : k * 1233 / 4096 - 1 = g
  -- The logarithm of two lies between `59 / 196` and `28 / 93`.
  rcases Int.le_total 0 k with hk | hk
  · rw [← pow_le_pow_iff_left₀ (ten_zpow_pos g).le (two_zpow_pos k).le (n := 196) (by decide),
      ← zpow_natCast, ← zpow_natCast, ← zpow_mul, ← zpow_mul]
    calc (10 : ℚ) ^ (g * (196 : Nat)) ≤ 10 ^ ((59 : Nat) * k) :=
          zpow_le_zpow_right₀ (by norm_num) (by omega)
      _ = (10 ^ 59) ^ k := by rw [zpow_mul, zpow_natCast]
      _ ≤ (2 ^ 196) ^ k := zpow_le_zpow_left₀ hk (by norm_num) (by norm_num)
      _ = 2 ^ (k * (196 : Nat)) := by rw [mul_comm, zpow_mul, zpow_natCast]
  · obtain ⟨j, rfl⟩ : ∃ j, k = -j := ⟨-k, by omega⟩
    rw [← pow_le_pow_iff_left₀ (ten_zpow_pos g).le (two_zpow_pos (-j)).le (n := 93) (by decide),
      ← zpow_natCast, ← zpow_natCast, ← zpow_mul, ← zpow_mul]
    calc (10 : ℚ) ^ (g * (93 : Nat)) ≤ 10 ^ (-((28 : Nat) * j)) :=
          zpow_le_zpow_right₀ (by norm_num) (by omega)
      _ = ((10 ^ 28) ^ j)⁻¹ := by rw [zpow_neg, zpow_mul, zpow_natCast]
      _ ≤ ((2 ^ 93) ^ j)⁻¹ :=
          inv_anti₀ (zpow_pos (by norm_num) j)
            (zpow_le_zpow_left₀ (by omega) (by norm_num) (by norm_num))
      _ = 2 ^ (-j * (93 : Nat)) := by rw [neg_mul, zpow_neg, mul_comm, zpow_mul, zpow_natCast]

/-- A canonical form of a double as a quotient. -/
theorem shortest_ratio (m : Nat) (q : Int) :
    ((m * pow2 q : Nat) : ℚ) / pow2 (-q) = m * 2 ^ q := by
  rw [Nat.cast_mul, mul_div_assoc, pow2_div]

/-- Half a step of the seventeenth grid is less than the way down to the end of the interval. -/
theorem mul_two_lt_quarters (h : binary64.Canonical m q) :
    (m : ℚ) * 2 < quarters m q * 10 ^ 16 := by
  have hbound : m * 2 < quarters m q * 10 ^ 16 := by
    unfold quarters
    split
    next hnarrow =>
      simp only [narrowBelow, Bool.and_eq_true, decide_eq_true_iff] at hnarrow
      rw [hnarrow.1]
      decide
    · have hlt : m < 9007199254740992 := h.lt
      omega
  exact_mod_cast hbound

theorem quarters_le (m : Nat) (q : Int) : 1 ≤ quarters m q ∧ quarters m q ≤ 2 := by
  unfold quarters
  split <;> omega

theorem two_zpow_eq_quarters (q : Int) : (2 : ℚ) ^ q = 4 * 2 ^ (q - 2) := by
  rw [show q = (2 : Int) + (q - 2) by omega, zpow_add₀ (by norm_num)]
  norm_num

/-- A decimal that is closer than the ends of the interval rounds to the double. -/
theorem roundsTo_of_near (hm : m ≠ 0)
    (h : |(d : ℚ) * 10 ^ e - m * 2 ^ q| < quarters m q * 2 ^ (q - 2)) :
    roundsTo m q d e = true := by
  obtain ⟨hone, htwo⟩ := quarters_le m q
  have hpos := two_zpow_pos (q - 2)
  have htwo' : (quarters m q : ℚ) * 2 ^ (q - 2) ≤ 2 * 2 ^ (q - 2) :=
    mul_le_mul_of_nonneg_right (by exact_mod_cast htwo) hpos.le
  rw [two_zpow_eq_quarters q, abs_lt] at h
  refine roundsTo_of_lt ?_ ?_
  · rw [Nat.cast_sub (by omega), Nat.cast_mul, Nat.cast_ofNat, sub_mul]
    linarith
  · rw [Nat.cast_add, Nat.cast_mul, Nat.cast_ofNat, Nat.cast_ofNat, add_mul]
    linarith

/-- **The shortest decimal of a double rounds to it.** -/
theorem roundsTo_shortest (h : binary64.Canonical m q) (hm : m ≠ 0) :
    roundsTo m q (shortest m q).digits (shortest m q).exponent = true := by
  have hratio := shortest_ratio m q
  have hn : m * pow2 q ≠ 0 := Nat.mul_ne_zero hm (pow2_pos q).ne'
  obtain ⟨hlow, hhigh⟩ := floorLog2_spec hn (pow2_pos (-q))
  unfold shortest
  dsimp only
  generalize floorLog2 (m * pow2 q) (pow2 (-q)) = k at hlow hhigh
  have hrange : -20000 ≤ k ∧ k ≤ 20000 := by
    obtain ⟨hlt, hleast, hgreatest, -⟩ := h
    rw [show binary64.minExponent = -1074 from rfl] at hleast
    rw [show binary64.maxExponent = 971 from rfl] at hgreatest
    have hm' : (1 : ℚ) ≤ m := by exact_mod_cast Nat.one_le_iff_ne_zero.mpr hm
    have hlt' : (m : ℚ) < 2 ^ (53 : Int) := by exact_mod_cast hlt
    rw [hratio] at hlow hhigh
    have habove : q < k + 1 :=
      two_zpow_lt_iff.mp ((le_mul_of_one_le_left (two_zpow_pos q).le hm').trans_lt hhigh)
    have hbelow : k < 53 + q := by
      rw [← two_zpow_lt_iff, zpow_add₀ (by norm_num)]
      exact hlow.trans_lt (mul_lt_mul_of_pos_right hlt' (two_zpow_pos q))
    omega
  have hstart := ten_zpow_floorLog10From_le (pow2_pos (-q)) 3
    ((ten_zpow_guess_le hrange.1 hrange.2).trans hlow)
  rw [hratio] at hstart
  generalize floorLog10From (m * pow2 q) (pow2 (-q)) 3 (k * 1233 / 4096 - 1) = e at hstart
  refine roundsTo_shortestFrom 16 ?_
  obtain ⟨c, hc, hnear⟩ := gridNeighbours_near (m * pow2 q) (pow2_pos (-q)) (e - (16 : Nat))
  refine ⟨c, hc, roundsTo_of_near hm ?_⟩
  rw [hratio] at hnear
  have hstep : (10 : ℚ) ^ (e - (16 : Nat)) * 10 ^ 16 = 10 ^ e := by
    rw [zpow_sub₀ (by norm_num), zpow_natCast, div_mul_cancel₀ _ (by norm_num)]
  have hpos := two_zpow_pos (q - 2)
  have hfine := mul_lt_mul_of_pos_right (mul_two_lt_quarters h) hpos
  rw [two_zpow_eq_quarters q] at hstart hnear ⊢
  linarith

/-! ## 3. The decimal among the doubles -/

/-- The next finer range ends at the neighbour below or farther down. -/
theorem add_quarters_le (hq : binary64.minExponent < q) (hm : 9007199254740992 ≤ 2 * m) :
    18014398509481982 + 2 * quarters m q ≤ 4 * m := by
  unfold quarters
  split
  · omega
  next hwide =>
    have hne : m ≠ 4503599627370496 := by
      rintro rfl
      refine hwide ?_
      rw [narrowBelow, Bool.and_eq_true, decide_eq_true_iff, decide_eq_true_iff]
      exact ⟨rfl, hq⟩
    omega

/-- **No double lies strictly between a double and its neighbours.** -/
theorem gap {r : Int} (hm : binary64.Canonical m q) (hn : binary64.Canonical n r)
    (hne : (n : ℚ) * 2 ^ r ≠ m * 2 ^ q) :
    (n : ℚ) * 2 ^ r + 2 * (quarters m q * 2 ^ (q - 2)) ≤ m * 2 ^ q ∨
      (m : ℚ) * 2 ^ q + 2 ^ q ≤ n * 2 ^ r := by
  have hpos := two_zpow_pos (q - 2)
  have hquarters : (quarters m q : ℚ) ≤ 2 := by exact_mod_cast (quarters_le m q).2
  have hstep : (quarters m q : ℚ) * 2 ^ (q - 2) ≤ 2 * 2 ^ (q - 2) :=
    mul_le_mul_of_nonneg_right hquarters hpos.le
  rcases Int.lt_or_le r q with hlt | hge
  · -- The other double is in a finer range, which ends just below.
    left
    have hn' : (n : ℚ) ≤ 9007199254740991 := by
      have hbound : n < 9007199254740992 := hn.lt
      exact_mod_cast Nat.le_of_lt_succ hbound
    have hbelow : (n : ℚ) * 2 ^ r ≤ 9007199254740991 * (2 * 2 ^ (q - 2)) := by
      rw [← zpow_one_add₀ (by norm_num), show 1 + (q - 2) = q - 1 by omega]
      exact mul_le_mul hn' (two_zpow_le_iff.mpr (by omega)) (two_zpow_pos r).le (by norm_num)
    have hleast : binary64.minExponent < q := Int.lt_of_le_of_lt hn.least hlt
    have hnormal : 9007199254740992 ≤ 2 * m := hm.normal.resolve_left (Int.ne_of_gt hleast)
    have hfine : (18014398509481982 : ℚ) + 2 * quarters m q ≤ 4 * m := by
      exact_mod_cast add_quarters_le hleast hnormal
    have hscaled := mul_le_mul_of_nonneg_right hfine hpos.le
    rw [two_zpow_eq_quarters q]
    linarith
  · -- The other double is a multiple of the step.
    obtain ⟨k, hk⟩ : ∃ k : Nat, (n : ℚ) * 2 ^ r = k * 2 ^ q := by
      refine ⟨n * pow2 (r - q), ?_⟩
      rw [Nat.cast_mul, pow2_of_nonneg (by omega), mul_assoc, ← zpow_add₀ (by norm_num),
        Int.sub_add_cancel]
    rw [hk] at hne ⊢
    have hkm : k ≠ m := by
      rintro rfl
      exact hne rfl
    rcases Nat.lt_or_gt_of_ne hkm with hlt | hgt
    · left
      have hle : (k : ℚ) + 1 ≤ m := by exact_mod_cast hlt
      have hscaled := mul_le_mul_of_nonneg_right hle (two_zpow_pos q).le
      rw [two_zpow_eq_quarters q] at hscaled ⊢
      linarith
    · right
      have hle : (m : ℚ) + 1 ≤ k := by exact_mod_cast hgt
      have hscaled := mul_le_mul_of_nonneg_right hle (two_zpow_pos q).le
      linarith

/-- The number that is written for `m * 2 ^ q`. -/
def written (m : Nat) (q : Int) : ℚ := if m = 0 then 0 else (shortest m q).value

/-- What is written for a double is less than half the way to its neighbours off. -/
theorem written_near (h : binary64.Canonical m q) :
    (m : ℚ) * 2 ^ q ≤ written m q + quarters m q * 2 ^ (q - 2) ∧
      written m q ≤ m * 2 ^ q + 2 * 2 ^ (q - 2) := by
  have hpos := two_zpow_pos (q - 2)
  have hquarters : (0 : ℚ) ≤ quarters m q * 2 ^ (q - 2) :=
    mul_nonneg (Nat.cast_nonneg _) hpos.le
  unfold written
  split
  next hm =>
    have hzero : (m : ℚ) * 2 ^ q = 0 := by rw [hm, Nat.cast_zero, zero_mul]
    constructor <;> linarith
  next hm =>
    obtain ⟨hone, htwo⟩ := quarters_le m q
    obtain ⟨hlow, hhigh⟩ := roundsTo_le (roundsTo_shortest h hm)
    rw [Nat.cast_sub (by omega), Nat.cast_mul, Nat.cast_ofNat, sub_mul] at hlow
    rw [Nat.cast_add, Nat.cast_mul, Nat.cast_ofNat, Nat.cast_ofNat, add_mul] at hhigh
    rw [two_zpow_eq_quarters q, Decimal.value]
    constructor <;> linarith

theorem written_lt {r : Int} (hm : binary64.Canonical m q) (hn : binary64.Canonical n r)
    (h : (m : ℚ) * 2 ^ q < n * 2 ^ r) : written m q < n * 2 ^ r := by
  have hpos := two_zpow_pos (q - 2)
  obtain ⟨-, hnear⟩ := written_near hm
  rcases gap hm hn h.ne' with hbelow | habove
  · have hquarters : (0 : ℚ) ≤ quarters m q * 2 ^ (q - 2) :=
      mul_nonneg (Nat.cast_nonneg _) hpos.le
    linarith
  · rw [two_zpow_eq_quarters q] at habove hnear
    linarith

theorem lt_written {r : Int} (hm : binary64.Canonical m q) (hn : binary64.Canonical n r)
    (h : (n : ℚ) * 2 ^ r < m * 2 ^ q) : (n : ℚ) * 2 ^ r < written m q := by
  have hpos := two_zpow_pos (q - 2)
  have hone : (1 : ℚ) ≤ quarters m q := by exact_mod_cast (quarters_le m q).1
  have hquarters := mul_pos (one_pos.trans_le hone) hpos
  obtain ⟨hnear, -⟩ := written_near hm
  rcases gap hm hn h.ne with hbelow | habove
  · linarith
  · have := two_zpow_pos q
    linarith

theorem written_zero (q : Int) : written 0 q = 0 := if_pos rfl

theorem canonical_zero : binary64.Canonical 0 (-1074) :=
  ⟨by decide, le_rfl, by decide, .inl rfl⟩

theorem written_nonneg (h : binary64.Canonical m q) : 0 ≤ written m q := by
  rcases (magnitude_nonneg m q).eq_or_lt with hzero | hpos
  · have hm : m = 0 := by
      rcases mul_eq_zero.mp hzero.symm with hm | hq
      · exact_mod_cast hm
      · exact absurd hq (two_zpow_pos q).ne'
    rw [hm, written_zero]
  · have hlt := lt_written h canonical_zero (by rwa [Nat.cast_zero, zero_mul])
    rw [Nat.cast_zero, zero_mul] at hlt
    exact hlt.le

end Ieee

namespace Double

open Ieee

variable {x y : Double} {v w : ℚ}

/-- The number that is written for a finite double. -/
def literal (x : Double) : ℚ :=
  match x.view with
  | .finite neg m q => signed neg (written m q)
  | _ => 0

theorem literal_of_view {neg : Bool} {m : Nat} {q : Int} (h : x.view = .finite neg m q) :
    x.literal = signed neg (written m q) := by
  rw [literal, h]

/-- **What is written for a double is on the same side of another double as the double itself.** -/
theorem literal_between (hx : x.value? = some v) (hy : y.value? = some w) :
    (v < w → x.literal < w) ∧ (w < v → w < x.literal) := by
  obtain ⟨a, m, q, hxv, rfl⟩ := view_of_value? hx
  obtain ⟨b, n, r, hyv, rfl⟩ := view_of_value? hy
  have hm := (canonical_of_view hxv).1
  have hn := (canonical_of_view hyv).1
  have hlt := written_lt hm hn
  have hgt := lt_written hm hn
  have hM := magnitude_nonneg m q
  have hN := magnitude_nonneg n r
  have hW := written_nonneg hm
  rw [literal_of_view hxv]
  generalize (m : ℚ) * 2 ^ q = M at *
  generalize (n : ℚ) * 2 ^ r = N at *
  generalize written m q = W at *
  -- Numbers of different sign keep their order unless both are zero.
  have happart : 0 < M + N → 0 < W + N := by
    intro h
    rcases le_or_gt M N with hle | hmore
    · linarith
    · linarith [hgt hmore]
  cases a with
  | false =>
    cases b with
    | false => exact ⟨hlt, hgt⟩
    | true =>
      show (M < -N → W < -N) ∧ (-N < M → -N < W)
      exact ⟨fun h => by linarith, fun h => by linarith [happart (by linarith)]⟩
  | true =>
    cases b with
    | false =>
      show (-M < N → -W < N) ∧ (N < -M → N < -W)
      exact ⟨fun h => by linarith [happart (by linarith)], fun h => by linarith⟩
    | true =>
      exact ⟨fun h => neg_lt_neg (hgt (neg_lt_neg_iff.mp h)),
        fun h => neg_lt_neg (hlt (neg_lt_neg_iff.mp h))⟩

/-- Only a number that is equal to a bound can be cut off by the way the bound is written. -/
theorem literal_le_iff (hx : x.value? = some v) (hy : y.value? = some w) :
    x.literal ≤ w ↔ v < w ∨ v = w ∧ x.literal ≤ v := by
  obtain ⟨hlt, hgt⟩ := literal_between hx hy
  constructor
  · intro h
    rcases lt_trichotomy v w with hvw | rfl | hwv
    · exact .inl hvw
    · exact .inr ⟨rfl, h⟩
    · exact absurd (hgt hwv) (not_lt.mpr h)
  · rintro (hvw | ⟨rfl, h⟩)
    · exact (hlt hvw).le
    · exact h

theorem le_literal_iff (hx : x.value? = some v) (hy : y.value? = some w) :
    w ≤ x.literal ↔ w < v ∨ w = v ∧ v ≤ x.literal := by
  obtain ⟨hlt, hgt⟩ := literal_between hx hy
  constructor
  · intro h
    rcases lt_trichotomy w v with hwv | rfl | hvw
    · exact .inl hwv
    · exact .inr ⟨rfl, h⟩
    · exact absurd (hlt hvw) (not_lt.mpr h)
  · rintro (hwv | ⟨rfl, h⟩)
    · exact (hgt hwv).le
    · exact h

end Double

end Concolic
