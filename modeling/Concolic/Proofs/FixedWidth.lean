import Concolic.Proofs.Normal

/-
# Folding keeps the meaning

An expression says how a value is computed from the inputs.  Here it is computed with words of `w`
bits in two's complement, `eval`: sums, differences, products and negation wrap around, division
cuts toward zero and is undefined by zero, a shift uses the low bits of its distance.  Ints are the
case `w = 32` and longs the case `w = 64`.

Every node also carries the value it had on this run.  An expression is `Consistent` at `w` bits if
at every node that value is, up to a multiple of `2 ^ w`, what the operator makes of the values of
the children.

The builder of binary nodes replaces operands without inputs by constants, moves constants to the
left, drops neutral elements and gathers the constants of nested sums, which it adds with 64 bits
whatever `w` is.  `folds_of_consistent` says that nothing of this can be seen at `w` bits: what the
builder answers with is consistent, has the value that the builder was told, and evaluates to the
same word on all inputs on which the operation is defined.
-/
namespace Concolic

variable {w : Nat}

/-! ## 1. Words -/

/-- A 64-bit word cut to `w` bits. -/
def residue (w : Nat) (v : Int64) : BitVec w := v.toBitVec.setWidth w

/-- **Two words have the same residue exactly if they differ by a multiple of `2 ^ w`.** -/
theorem residue_eq_iff (hw : w ≤ 64) {a b : Int64} :
    residue w a = residue w b ↔ a.toInt % (2 ^ w : Nat) = b.toInt % (2 ^ w : Nat) := by
  have hdvd : 2 ^ w ∣ 2 ^ 64 := Nat.pow_dvd_pow 2 hw
  have hpos : ((2 ^ w : Nat) : Int) ≠ 0 := by
    exact_mod_cast Nat.ne_of_gt (Nat.two_pow_pos w)
  have hnat : ∀ v : Int64, (residue w v).toNat = (v.toInt % (2 ^ w : Nat)).toNat := by
    intro v
    rw [residue, BitVec.toNat_setWidth, ← toInt_emod_toNat v.toBitVec hdvd]
    rfl
  constructor
  · intro h
    have hcast := congrArg (Int.ofNat ∘ BitVec.toNat) h
    simp only [Function.comp, hnat, Int.ofNat_eq_natCast] at hcast
    rwa [Int.toNat_of_nonneg (Int.emod_nonneg _ hpos),
      Int.toNat_of_nonneg (Int.emod_nonneg _ hpos)] at hcast
  · intro h
    apply BitVec.eq_of_toNat_eq
    rw [hnat, hnat, h]

theorem residue_add (hw : w ≤ 64) (a b : Int64) :
    residue w (a + b) = residue w a + residue w b := by
  simp only [residue, Int64.toBitVec_add, BitVec.setWidth_add _ _ hw]

@[simp] theorem residue_zero : residue w 0 = 0#w := by
  simp [residue]

@[simp] theorem residue_one : residue w 1 = 1#w := by
  apply BitVec.eq_of_toNat_eq
  simp [residue]

/-- -1, 0 or 1 as `a` is less than, equal to or greater than `b`, read as signed numbers. -/
def threeWayWord (a b : BitVec w) : BitVec w :=
  if a.slt b then -1 else if b.slt a then 1 else 0

/-- What an operator makes of two words.  There is no quotient and no remainder by zero. -/
def Operator.onWords : Operator → BitVec w → BitVec w → Option (BitVec w)
  | add, a, b => some (a + b)
  | sub, a, b => some (a - b)
  | mul, a, b => some (a * b)
  | div, a, b => if b = 0 then none else some (a.sdiv b)
  | rem, a, b => if b = 0 then none else some (a.srem b)
  | and, a, b => some (a &&& b)
  | or, a, b => some (a ||| b)
  | xor, a, b => some (a ^^^ b)
  | shl, a, n => some (a <<< (n.toNat % w))
  | shr, a, n => some (a.sshiftRight (n.toNat % w))
  | ushr, a, n => some (a >>> (n.toNat % w))
  | _, _, _ => none

/-- What an operator makes of one word.  A word cut to 32 bits keeps its sign. -/
def Operator.onWord : Operator → BitVec w → Option (BitVec w)
  | neg, a => some (-a)
  | narrow, a => some ((a.setWidth 32).signExtend w)
  | _, _ => none

namespace IntExpr

/-! ## 2. Meaning -/

/-- The value of an expression in words of `w` bits, where the input `x` has the value `ρ x`.
Expressions with reals in them have none. -/
def eval (ρ : IntVar → BitVec w) : IntExpr → Option (BitVec w)
  | const v => some (residue w v)
  | var x => some (ρ x)
  | binary l op r _ => do op.onWords (← l.eval ρ) (← r.eval ρ)
  | unary op x _ => do op.onWord (← x.eval ρ)
  | compare l r _ => do return threeWayWord (← l.eval ρ) (← r.eval ρ)
  | compareReal .. => none
  | ofReal .. => none

/-- At every node, the value seen is the one that the operator makes of the values seen at its
children. -/
def Consistent (w : Nat) : IntExpr → Prop
  | const _ => True
  | var _ => True
  | binary l op r c =>
    l.Consistent w ∧ r.Consistent w ∧
      op.onWords (residue w l.concrete) (residue w r.concrete) = some (residue w c)
  | unary op x c => x.Consistent w ∧ op.onWord (residue w x.concrete) = some (residue w c)
  | compare l r c =>
    l.Consistent w ∧ r.Consistent w ∧
      threeWayWord (residue w l.concrete) (residue w r.concrete) = residue w c
  | compareReal .. => False
  | ofReal .. => False

section

variable {ρ : IntVar → BitVec w} {l r e : IntExpr} {op : Operator} {c : Int64} {v : BitVec w}

theorem eval_binary_eq_some :
    (binary l op r c).eval ρ = some v ↔
      ∃ a b, l.eval ρ = some a ∧ r.eval ρ = some b ∧ op.onWords a b = some v := by
  simp [eval, Option.bind_eq_some_iff]

/-- **On the inputs of this run, a consistent expression has the value that was seen.** -/
theorem Consistent.eval_concrete {e : IntExpr} (he : e.Consistent w) :
    e.eval (fun x => residue w x.concrete) = some (residue w e.concrete) := by
  induction e with
  | const v => rfl
  | var x => rfl
  | binary l op r c ihl ihr =>
    obtain ⟨hl, hr, hc⟩ := he
    simpa [eval, concrete, ihl hl, ihr hr] using hc
  | unary op x c ih =>
    obtain ⟨hx, hc⟩ := he
    simpa [eval, concrete, ih hx] using hc
  | compare l r c ihl ihr =>
    obtain ⟨hl, hr, hc⟩ := he
    simpa [eval, concrete, ihl hl, ihr hr] using congrArg some hc
  | compareReal => exact he.elim
  | ofReal => exact he.elim

/-- An expression without inputs has the same value on all inputs. -/
theorem eval_eq_of_not_symbolic {e : IntExpr} (h : e.isSymbolic = false)
    (ρ ρ' : IntVar → BitVec w) : e.eval ρ = e.eval ρ' := by
  induction e with
  | const v => rfl
  | var x => simp [isSymbolic] at h
  | binary l op r c ihl ihr =>
    simp only [isSymbolic, Bool.or_eq_false_iff] at h
    simp only [eval, ihl h.1, ihr h.2]
  | unary op x c ih =>
    simp only [isSymbolic] at h
    simp only [eval, ih h]
  | compare l r c ihl ihr =>
    simp only [isSymbolic, Bool.or_eq_false_iff] at h
    simp only [eval, ihl h.1, ihr h.2]
  | compareReal => rfl
  | ofReal => rfl

/-! ## 3. Settled operands -/

theorem Consistent.settle (he : e.Consistent w) : e.settle.Consistent w := by
  rcases settle_cases e with h | h
  · rwa [h]
  · rw [h]
    trivial

/-- Replacing an operand without inputs by a constant keeps its value. -/
theorem Consistent.eval_settle (he : e.Consistent w) (ρ : IntVar → BitVec w) :
    e.settle.eval ρ = e.eval ρ := by
  unfold IntExpr.settle
  split
  · rfl
  next hsym =>
    have hclosed : e.isSymbolic = false := by simpa using hsym
    rw [eval_eq_of_not_symbolic hclosed ρ, he.eval_concrete]
    rfl

end

/-! ## 4. What the builders answer with -/

/-- `e` may stand for the node `l op r` with value `c`. -/
structure Folds (w : Nat) (l : IntExpr) (op : Operator) (r : IntExpr) (c : Int64) (e : IntExpr) :
    Prop where
  consistent : e.Consistent w
  concrete : residue w e.concrete = residue w c
  eval : ∀ (ρ : IntVar → BitVec w) (v : BitVec w),
    (binary l op r c).eval ρ = some v → e.eval ρ = some v

section

variable {l r e x : IntExpr} {op : Operator} {c k j d : Int64}

/-- The node itself. -/
theorem Folds.node (h : (binary l op r c).Consistent w) : Folds w l op r c (binary l op r c) :=
  ⟨h, rfl, fun _ _ hv => hv⟩

/-- Two constants are folded to the value that was seen. -/
theorem Folds.consts (h : (binary (const k) op (const j) c).Consistent w) :
    Folds w (const k) op (const j) c (const c) := by
  refine ⟨trivial, rfl, fun ρ v hv => ?_⟩
  obtain ⟨a, b, ha, hb, hv⟩ := eval_binary_eq_some.mp hv
  cases ha
  cases hb
  exact h.2.2.symm.trans hv

/-- Operands that may change places. -/
theorem Folds.comm (hop : ∀ a b : BitVec w, op.onWords a b = op.onWords b a)
    (h : Folds w l op r c e) : Folds w r op l c e := by
  refine ⟨h.consistent, h.concrete, fun ρ v hv => h.eval ρ v ?_⟩
  obtain ⟨a, b, ha, hb, hv⟩ := eval_binary_eq_some.mp hv
  exact eval_binary_eq_some.mpr ⟨b, a, hb, ha, (hop b a).trans hv⟩

theorem Consistent.comm (hop : ∀ a b : BitVec w, op.onWords a b = op.onWords b a)
    (h : (binary l op r c).Consistent w) : (binary r op l c).Consistent w :=
  ⟨h.2.1, h.1, (hop _ _).trans h.2.2⟩

/-- An operand that the other one leaves as it is. -/
theorem Folds.operand (hk : ∀ b : BitVec w, op.onWords (residue w k) b = some b)
    (h : (binary (const k) op e c).Consistent w) : Folds w (const k) op e c e := by
  refine ⟨h.2.1, Option.some.inj ((hk _).symm.trans h.2.2), fun ρ v hv => ?_⟩
  obtain ⟨a, b, ha, hb, hv⟩ := eval_binary_eq_some.mp hv
  cases ha
  rw [hb, ← hv]
  exact (hk b).symm

/-- **The constants of nested sums may be added up.**  They are added with 64 bits, but at `w` bits
that is the same. -/
theorem Folds.gather (hw : w ≤ 64) (h : Folds w (const (k + j)) .add x c e) :
    Folds w (const k) .add (binary (const j) .add x d) c e := by
  refine ⟨h.consistent, h.concrete, fun ρ v hv => h.eval ρ v ?_⟩
  obtain ⟨a, b, ha, hb, hv⟩ := eval_binary_eq_some.mp hv
  obtain ⟨a', y, ha', hy, hb⟩ := eval_binary_eq_some.mp hb
  cases ha
  cases ha'
  cases hb
  cases hv
  refine eval_binary_eq_some.mpr ⟨_, y, rfl, hy, ?_⟩
  rw [Operator.onWords, residue_add hw, BitVec.add_assoc]

/-- The value of a sum with gathered constants. -/
theorem Consistent.gather (hw : w ≤ 64)
    (h : (binary (const k) .add (binary (const j) .add x d) c).Consistent w) :
    (binary (const (k + j)) .add x c).Consistent w := by
  obtain ⟨-, ⟨-, hx, hd⟩, hc⟩ := h
  refine ⟨trivial, hx, ?_⟩
  simp only [Operator.onWords, IntExpr.concrete, Option.some.injEq] at hc hd ⊢
  rw [← hc, ← hd, residue_add hw, BitVec.add_assoc]

/-! ## 5. The builders -/

theorem addConst_folds (hw : w ≤ 64) (h : (binary (const k) .add e c).Consistent w) :
    Folds w (const k) .add e c (addConst c k e) := by
  fun_induction addConst c k e with
  | case1 e =>
    refine Folds.operand (fun b => ?_) h
    rw [residue_zero, Operator.onWords, BitVec.zero_add]
  | case2 k hk j => exact Folds.consts h
  | case3 k hk j x d ih => exact (ih (h.gather hw)).gather hw
  | case4 k hk e => exact Folds.node h

theorem onWords_add_comm (a b : BitVec w) :
    Operator.onWords .add a b = Operator.onWords .add b a := by
  rw [Operator.onWords, Operator.onWords, BitVec.add_comm]

theorem onWords_mul_comm (a b : BitVec w) :
    Operator.onWords .mul a b = Operator.onWords .mul b a := by
  rw [Operator.onWords, Operator.onWords, BitVec.mul_comm]

theorem sum_folds (hw : w ≤ 64) (h : (binary l .add r c).Consistent w) :
    Folds w l .add r c (sum l r c) := by
  rcases sum_cases l r c with ⟨k, rfl, hs⟩ | ⟨k, rfl, -, hs⟩ | ⟨-, -, hs⟩
  · rw [hs]
    exact addConst_folds hw h
  · rw [hs]
    exact (addConst_folds hw (h.comm onWords_add_comm)).comm onWords_add_comm
  · rw [hs]
    exact Folds.node h

/-- Zero times anything is zero, also where the other operand is not defined. -/
theorem Folds.zero_mul (h : (binary (const 0) .mul e c).Consistent w) :
    Folds w (const 0) .mul e c (const 0) := by
  have hzero : ∀ b : BitVec w, Operator.onWords .mul (residue w 0) b = some (residue w 0) := by
    intro b
    rw [residue_zero, Operator.onWords, BitVec.zero_mul]
  refine ⟨trivial, Option.some.inj ((hzero _).symm.trans h.2.2), fun ρ v hv => ?_⟩
  obtain ⟨a, b, ha, hb, hv⟩ := eval_binary_eq_some.mp hv
  cases ha
  exact (hzero b).symm.trans hv

theorem mulConst_folds (h : (binary (const k) .mul e c).Consistent w) :
    Folds w (const k) .mul e c (mulConst c k e) := by
  unfold mulConst
  split
  next hk =>
    subst hk
    exact Folds.zero_mul h
  split
  next hk =>
    subst hk
    refine Folds.operand (fun b => ?_) h
    rw [residue_one, Operator.onWords, BitVec.one_mul]
  split
  next hconst =>
    obtain ⟨v, rfl⟩ := (isConst_cases e).resolve_right (by simp [hconst])
    exact Folds.consts h
  · exact Folds.node h

theorem product_folds (h : (binary l .mul r c).Consistent w) :
    Folds w l .mul r c (product l r c) := by
  unfold product
  split
  · exact mulConst_folds h
  · exact (mulConst_folds (h.comm onWords_mul_comm)).comm onWords_mul_comm
  · exact Folds.node h

/-- Zero divided by anything but zero is zero. -/
theorem onWords_zero_div {op : Operator} (hop : op = .div ∨ op = .rem) {b v : BitVec w}
    (h : op.onWords (residue w 0) b = some v) : v = residue w 0 := by
  rw [residue_zero] at h ⊢
  rcases hop with rfl | rfl
  all_goals
    simp only [Operator.onWords] at h
    split at h
    · cases h
    · cases h
      simp

theorem quotient_folds (hop : op = .div ∨ op = .rem) (h : (binary l op r c).Consistent w) :
    Folds w l op r c (quotient op l r c) := by
  unfold quotient
  split
  next k =>
    split
    next hk =>
      subst hk
      refine ⟨trivial, (onWords_zero_div hop h.2.2).symm, fun ρ v hv => ?_⟩
      obtain ⟨a, b, ha, hb, hv⟩ := eval_binary_eq_some.mp hv
      cases ha
      rw [onWords_zero_div hop hv]
      rfl
    split
    next hconst =>
      obtain ⟨v, rfl⟩ := (isConst_cases r).resolve_right (by simp [hconst])
      exact Folds.consts h
    · exact Folds.node h
  · exact Folds.node h

theorem plain_folds (h : (binary l op r c).Consistent w) : Folds w l op r c (plain op l r c) := by
  unfold plain
  split
  next hconst =>
    rw [Bool.and_eq_true] at hconst
    obtain ⟨k, rfl⟩ := (isConst_cases l).resolve_right (by simp [hconst.1])
    obtain ⟨j, rfl⟩ := (isConst_cases r).resolve_right (by simp [hconst.2])
    exact Folds.consts h
  · exact Folds.node h

/-- What is folded from settled operands may stand for the operation on the operands themselves. -/
theorem Folds.of_settle (hl : l.Consistent w) (hr : r.Consistent w)
    (h : Folds w l.settle op r.settle c e) : Folds w l op r c e := by
  refine ⟨h.consistent, h.concrete, fun ρ v hv => h.eval ρ v ?_⟩
  rwa [IntExpr.eval, hl.eval_settle, hr.eval_settle]

theorem Consistent.node_settle (h : (binary l op r c).Consistent w) :
    (binary l.settle op r.settle c).Consistent w := by
  obtain ⟨hl, hr, hc⟩ := h
  refine ⟨hl.settle, hr.settle, ?_⟩
  rwa [concrete_settle, concrete_settle]

theorem combine_folds (hw : w ≤ 64) (h : (binary l op r c).Consistent w) :
    Folds w l op r c (l.combine op r c) := by
  have hs := h.node_settle
  apply Folds.of_settle h.1 h.2.1
  unfold combine
  split
  · exact sum_folds hw hs
  · exact product_folds hs
  · exact quotient_folds (Or.inl rfl) hs
  · exact quotient_folds (Or.inr rfl) hs
  · exact plain_folds hs

/-- An operator that gives words a value is one of two operands. -/
theorem isBinary_of_onWords {a b v : BitVec w} (h : op.onWords a b = some v) :
    (op.isArithmetic || op.isBitwise) = true := by
  cases op with
  | neg => cases h
  | narrow => cases h
  | other n => cases h
  | _ => rfl

/-- **Folding keeps the meaning.**  Let the operands be consistent at `w` bits, and let the builder
be told the word that the operator makes of their values.  Then it answers with a consistent
expression that has the value it was told, and wherever the operation on the operands is defined,
that expression is defined and has the same value. -/
theorem folds_of_consistent (hw : w ≤ 64) (hl : l.Consistent w) (hr : r.Consistent w)
    (hc : op.onWords (residue w l.concrete) (residue w r.concrete) = some (residue w c)) :
    ∃ e, binary? (some l) op (some r) c = .ok e ∧ e.Consistent w ∧
      residue w e.concrete = residue w c ∧
      ∀ (ρ : IntVar → BitVec w) (v : BitVec w),
        (binary l op r c).eval ρ = some v → e.eval ρ = some v := by
  have hfolds : Folds w l op r c (l.combine op r c) := combine_folds hw ⟨hl, hr, hc⟩
  refine ⟨l.combine op r c, ?_, hfolds.consistent, hfolds.concrete, hfolds.eval⟩
  rw [binary?, if_pos (isBinary_of_onWords hc)]

/-- A sum with a constant, of an int input with the value 5. -/
def sumWithInput : IntExpr :=
  binary (const 1) .add (var ⟨"x", 5, -2147483648, 2147483647⟩) 6

/-- The largest int is added to the sum, and the value wraps around. -/
theorem largest_folds :
    sumWithInput.Consistent 32 ∧
    Operator.onWords .add (residue 32 2147483647) (residue 32 sumWithInput.concrete) =
      some (residue 32 (-2147483643)) ∧
    ∃ e, binary? (some (const 2147483647)) .add (some sumWithInput) (-2147483643) = .ok e ∧
      e.Consistent 32 ∧ residue 32 e.concrete = residue 32 (-2147483643) ∧
      ∀ (ρ : IntVar → BitVec 32) (v : BitVec 32),
        (binary (const 2147483647) .add sumWithInput (-2147483643)).eval ρ = some v →
          e.eval ρ = some v := by
  have hsum : sumWithInput.Consistent 32 := ⟨trivial, trivial, by decide⟩
  have hc : Operator.onWords .add (residue 32 2147483647) (residue 32 sumWithInput.concrete) =
      some (residue 32 (-2147483643)) := by decide
  exact ⟨hsum, hc, folds_of_consistent (by decide) trivial hsum hc⟩

/-- The constants are gathered in one that is no int. -/
example : binary? (some (const 2147483647)) .add (some sumWithInput) (-2147483643) =
    .ok (binary (const 2147483648) .add (var ⟨"x", 5, -2147483648, 2147483647⟩) (-2147483643)) := by
  decide

end

end IntExpr

end Concolic
