import Concolic.Proofs.Plain
import Mathlib.Data.Int.Basic

/-
# Words as numbers

The machine computes with 32-bit and 64-bit words, the plain machine with integers that it cuts to
size.  This file proves that the two agree: reading the result of a word operation as a signed
number gives what the plain machine computes from the numbers that its operands stand for.

Each operation is treated once, on bit patterns of any width; ints and longs are two instances.
-/
namespace Concolic

open Plain

/-! ## 1. Bit patterns -/

/-- A pattern read as a signed number leaves the remainders that its bits leave. -/
theorem toInt_emod_toNat {w d : Nat} (x : BitVec w) (hd : d ∣ 2 ^ w) :
    (x.toInt % d).toNat = x.toNat % d := by
  have hmod : (2 ^ w : Nat) % d = 0 := Nat.mod_eq_zero_of_dvd hd
  have h : x.toInt % d = (x.toNat : Int) % d := by
    rw [BitVec.toInt_eq_toNat_cond]
    split
    · rfl
    · rw [Int.sub_emod, ← Int.natCast_emod (2 ^ w) d, hmod]
      simp
  rw [h, ← Int.natCast_emod, Int.toNat_natCast]

theorem bits_toInt {w : Nat} (x : BitVec w) : bits w x.toInt = x.toNat := by
  have h := toInt_emod_toNat x (Nat.dvd_refl (2 ^ w))
  rw [Nat.mod_eq_of_lt x.isLt] at h
  simpa [bits] using h

/-- Below a positive modulus, the signed remainder changes nothing. -/
theorem smod_of_lt {w : Nat} {x y : BitVec w} (hy : y.msb = false) (h : x.toNat < y.toNat) :
    x.smod y = x := by
  have hx : x.msb = false := by
    rw [BitVec.msb_eq_false_iff_two_mul_lt] at hy ⊢
    omega
  rw [BitVec.smod_eq, hx, hy]
  apply BitVec.eq_of_toNat_eq
  simp [Nat.mod_eq_of_lt h]

theorem distance_lt {w : Nat} (hw : 0 < w) (n : Int) : distance w n < w := by
  unfold distance
  have := Int.emod_lt_of_pos n (by omega : (0 : Int) < w)
  have := Int.emod_nonneg n (by omega : (w : Int) ≠ 0)
  omega

theorem toInt_shl {w : Nat} (x : BitVec w) (d : Nat) :
    (x <<< d).toInt = wrap w (x.toInt * 2 ^ d) := by
  unfold wrap
  rw [BitVec.toInt_shiftLeft, Nat.shiftLeft_eq, BitVec.toInt_eq_toNat_bmod x, Int.bmod_mul_bmod]
  simp

theorem toInt_shr {w : Nat} (x : BitVec w) (d : Nat) :
    (x.sshiftRight d).toInt = x.toInt / 2 ^ d := by
  rw [BitVec.toInt_sshiftRight, Int.shiftRight_eq_div_pow]
  simp

theorem toInt_ushr {w : Nat} (x : BitVec w) (d : Nat) :
    (x >>> d).toInt = wrap w (bits w x.toInt / 2 ^ d : Nat) := by
  rw [bits_toInt, BitVec.toInt_eq_toNat_bmod, BitVec.toNat_ushiftRight, Nat.shiftRight_eq_div_pow]
  rfl

/-! ## 2. Operations on two words -/

/-- The operation on patterns of any width. -/
def WordOp.onBits {w : Nat} : WordOp → BitVec w → BitVec w → BitVec w
  | add, x, y => x + y
  | sub, x, y => x - y
  | mul, x, y => x * y
  | and, x, y => x &&& y
  | or, x, y => x ||| y
  | xor, x, y => x ^^^ y

theorem WordOp.toInt_onBits {w : Nat} (op : WordOp) (x y : BitVec w) :
    (op.onBits x y).toInt = wordOp w op x.toInt y.toInt := by
  cases op with
  | add => exact BitVec.toInt_add x y
  | sub => exact BitVec.toInt_sub
  | mul => exact BitVec.toInt_mul x y
  | and =>
    rw [wordOp, bits_toInt, bits_toInt]
    exact BitVec.toInt_and x y
  | or =>
    rw [wordOp, bits_toInt, bits_toInt]
    exact BitVec.toInt_or x y
  | xor =>
    rw [wordOp, bits_toInt, bits_toInt]
    exact BitVec.toInt_xor x y

theorem WordOp.toInt_onInt (op : WordOp) (a b : Int32) :
    (op.onInt a b).toInt = wordOp 32 op a.toInt b.toInt := by
  have h : (op.onInt a b).toBitVec = op.onBits a.toBitVec b.toBitVec := by cases op <;> rfl
  rw [← Int32.toInt_toBitVec, h, toInt_onBits]
  rfl

theorem WordOp.toInt_onLong (op : WordOp) (a b : Int64) :
    (op.onLong a b).toInt = wordOp 64 op a.toInt b.toInt := by
  have h : (op.onLong a b).toBitVec = op.onBits a.toBitVec b.toBitVec := by cases op <;> rfl
  rw [← Int64.toInt_toBitVec, h, toInt_onBits]
  rfl

/-! ## 3. Shifts -/

/-- The shift of a pattern of any width. -/
def ShiftOp.onBits {w : Nat} : ShiftOp → BitVec w → Nat → BitVec w
  | shl, x, d => x <<< d
  | shr, x, d => x.sshiftRight d
  | ushr, x, d => x >>> d

theorem ShiftOp.toInt_onBits {w : Nat} (op : ShiftOp) (x : BitVec w) (n : Int) :
    (op.onBits x (distance w n)).toInt = shiftOp w op x.toInt n := by
  cases op with
  | shl => exact toInt_shl x _
  | shr => exact toInt_shr x _
  | ushr => exact toInt_ushr x _

/-- The low five bits of a distance. -/
theorem toNat_mask32 (n : Int32) : (n &&& 31).toBitVec.toNat = distance 32 n.toInt := by
  have h : (n &&& 31).toBitVec.toNat = n.toBitVec.toNat % 32 := by
    rw [Int32.toBitVec_and, BitVec.toNat_and]
    exact Nat.and_two_pow_sub_one_eq_mod n.toBitVec.toNat 5
  rw [h, ← toInt_emod_toNat n.toBitVec (by decide : 32 ∣ 2 ^ 32)]
  rfl

/-- The low six bits of a distance. -/
theorem toNat_mask64 (n : Int64) : (n &&& 63).toBitVec.toNat = distance 64 n.toInt := by
  have h : (n &&& 63).toBitVec.toNat = n.toBitVec.toNat % 64 := by
    rw [Int64.toBitVec_and, BitVec.toNat_and]
    exact Nat.and_two_pow_sub_one_eq_mod n.toBitVec.toNat 6
  rw [h, ← toInt_emod_toNat n.toBitVec (by decide : 64 ∣ 2 ^ 64)]
  rfl

/-- A shift of words takes the remainder of its distance once more.  After the mask that changes
nothing. -/
theorem masked_distance {w : Nat} {m : BitVec w} {n : Int} (size : BitVec w) (hw : 0 < w)
    (hm : m.toNat = distance w n) (hsize : size.toNat = w) (hmsb : size.msb = false) :
    (m.smod size).toNat = distance w n ∧ (m % size).toNat = distance w n := by
  have hlt : m.toNat < size.toNat := by
    rw [hm, hsize]
    exact distance_lt hw n
  refine ⟨?_, ?_⟩
  · rw [smod_of_lt hmsb hlt, hm]
  · rw [BitVec.toNat_umod, Nat.mod_eq_of_lt hlt, hm]

theorem ShiftOp.toInt_onInt (op : ShiftOp) (a n : Int32) :
    (op.onInt a n).toInt = shiftOp 32 op a.toInt n.toInt := by
  obtain ⟨hsmod, hmod⟩ := masked_distance 32 (by decide) (toNat_mask32 n) rfl (by decide)
  have h : (op.onInt a n).toBitVec = op.onBits a.toBitVec (distance 32 n.toInt) := by
    cases op with
    | shl => rw [← hsmod]; rfl
    | shr => rw [← hsmod]; rfl
    | ushr => rw [← hmod]; rfl
  rw [← Int32.toInt_toBitVec, h, toInt_onBits]
  rfl

theorem ShiftOp.toInt_onLong (op : ShiftOp) (a n : Int64) :
    (op.onLong a n).toInt = shiftOp 64 op a.toInt n.toInt := by
  obtain ⟨hsmod, hmod⟩ := masked_distance 64 (by decide) (toNat_mask64 n) rfl (by decide)
  have h : (op.onLong a n).toBitVec = op.onBits a.toBitVec (distance 64 n.toInt) := by
    cases op with
    | shl => rw [← hsmod]; rfl
    | shr => rw [← hsmod]; rfl
    | ushr => rw [← hmod]; rfl
  rw [← Int64.toInt_toBitVec, h, toInt_onBits]
  rfl

/-! ## 4. Division, comparison and cutting -/

theorem DivOp.toInt_onInt (op : DivOp) (a b : Int32) :
    (op.onInt a b).toInt = divOp 32 op a.toInt b.toInt := by
  cases op with
  | div => exact Int32.toInt_div a b
  | rem => exact Int32.toInt_mod a b

theorem DivOp.toInt_onLong (op : DivOp) (a b : Int64) :
    (op.onLong a b).toInt = divOp 64 op a.toInt b.toInt := by
  cases op with
  | div => exact Int64.toInt_div a b
  | rem => exact Int64.toInt_mod a b

theorem DivOp.onInt_zero (op : DivOp) (d : Int32) : op.onInt 0 d = 0 := by
  cases op with
  | div => exact Int32.zero_div
  | rem => exact Int32.zero_mod

theorem DivOp.onLong_zero (op : DivOp) (d : Int64) : op.onLong 0 d = 0 := by
  cases op with
  | div => exact Int64.zero_div
  | rem => exact Int64.zero_mod

theorem toInt_threeWayInt (a b : Int64) : (threeWayInt a b).toInt = (a.toInt - b.toInt).sign := by
  simp only [threeWayInt, Int64.lt_iff_toInt_lt]
  split
  · rw [Int.sign_eq_neg_one_of_neg (by omega)]
    rfl
  · split
    · rw [Int.sign_eq_one_of_pos (by omega)]
      rfl
    · rw [show a.toInt - b.toInt = 0 by omega]
      rfl

/-- A three-way comparison gives an int. -/
theorem threeWayInt_cases (a b : Int64) :
    threeWayInt a b = -1 ∨ threeWayInt a b = 0 ∨ threeWayInt a b = 1 := by
  unfold threeWayInt
  split
  · exact Or.inl rfl
  · split
    · exact Or.inr (Or.inr rfl)
    · exact Or.inr (Or.inl rfl)

/-! ## 5. Words that are ints -/

/-- Whether a 64-bit word is the value of a 32-bit one. -/
def IsInt (v : Int64) : Prop := -2 ^ 31 ≤ v.toInt ∧ v.toInt < 2 ^ 31

instance (v : Int64) : Decidable (IsInt v) := inferInstanceAs (Decidable (_ ∧ _))

theorem isInt_toInt64 (a : Int32) : IsInt a.toInt64 := by
  have := a.le_toInt
  have := a.toInt_lt
  rw [IsInt, Int32.toInt_toInt64]
  omega

theorem IsInt.toInt_toInt32 {v : Int64} (h : IsInt v) : v.toInt32.toInt = v.toInt := by
  obtain ⟨hlo, hhi⟩ := h
  rw [Int64.toInt_toInt32]
  exact Int.bmod_eq_of_le (by omega) (by omega)

/-- Cutting an int loses nothing. -/
theorem IsInt.toInt64_toInt32 {v : Int64} (h : IsInt v) : v.toInt32.toInt64 = v := by
  apply Int64.toInt.inj
  rw [Int32.toInt_toInt64, h.toInt_toInt32]

theorem isInt_threeWayInt (a b : Int64) : IsInt (threeWayInt a b) := by
  rcases threeWayInt_cases a b with h | h | h <;> rw [h] <;> decide

end Concolic
