import Concolic.Machine.Instruction
import Concolic.Proofs.Rounding

/-
# Folded reals

`RealExpr.combine` is given the concrete value of its result, but where it answers with one of its
operands the value is that of the operand.  This is so if the other operand has no inputs and is
neutral: zero for sums and one for products (`combine_cases`).

One is neutral for every double.  Zero is not: the sum of the two zeros is the positive zero, and
the operand that is left over is the negative one.  `binary_keeps_concrete_iff` says that this is
the only case in which the concrete value is lost.
-/
namespace Concolic.RealExpr

/-! ## 1. What is folded -/

/-- The operand `k` has no inputs and is neutral; `x`, beside it, has inputs. -/
structure Vanishes (k : RealExpr) (op : Operator) (x : RealExpr) : Prop where
  settled : k.isSymbolic = false
  neutral : isNeutral op k.concrete = true
  symbolic : x.isSymbolic = true

theorem settle_of_symbolic {e : RealExpr} (h : e.isSymbolic = true) : e.settle = e := by
  rw [settle, if_pos h]

theorem settle_of_settled {e : RealExpr} (h : e.isSymbolic = false) :
    e.settle = const e.concrete := by
  rw [settle, h, if_neg Bool.false_ne_true]

theorem isConst_of_symbolic {e : RealExpr} (h : e.isSymbolic = true) : e.isConst = false := by
  cases e with
  | const v => cases h
  | _ => rfl

theorem isCommutative_of_isNeutral {op : Operator} {k : Double} (h : isNeutral op k = true) :
    op.isCommutative = true := by
  cases op with
  | add | mul => rfl
  | _ => cases h

/-- A constant on the left of an expression with inputs. -/
theorem withConst_of_symbolic {e : RealExpr} (he : e.isSymbolic = true) (k : Double) (op : Operator)
    (c : Double) :
    withConst k op e c = if isNeutral op k then e else binary (const k) op e c := by
  rw [withConst, isConst_of_symbolic he, if_neg Bool.false_ne_true]

theorem combine_left {l : RealExpr} (hl : l.isSymbolic = false) (op : Operator) (r : RealExpr)
    (c : Double) : combine l op r c = withConst l.concrete op r.settle c := by
  rw [combine, settle_of_settled hl]

theorem combine_right {l r : RealExpr} (hl : l.isSymbolic = true) (hr : r.isSymbolic = false)
    (op : Operator) (c : Double) :
    combine l op r c = if op.isCommutative then withConst r.concrete op l c
      else binary l op (const r.concrete) c := by
  rw [combine, settle_of_symbolic hl, settle_of_settled hr]
  cases l with
  | const v => cases hl
  | _ => rfl

theorem combine_symbolic {l r : RealExpr} (hl : l.isSymbolic = true) (hr : r.isSymbolic = true)
    (op : Operator) (c : Double) : combine l op r c = binary l op r c := by
  rw [combine, settle_of_symbolic hl, settle_of_symbolic hr]
  cases l with
  | const v => cases hl
  | _ =>
    cases r with
    | const v => cases hr
    | _ => rfl

/-- **The result is an operand beside which the other vanishes,** or it has the concrete value that
was given. -/
theorem combine_cases (l r : RealExpr) (op : Operator) (c : Double) :
    l.Vanishes op r ∧ combine l op r c = r ∨ r.Vanishes op l ∧ combine l op r c = l ∨
      ¬ l.Vanishes op r ∧ ¬ r.Vanishes op l ∧ (combine l op r c).concrete = c := by
  have hsettled : ∀ {k x : RealExpr}, x.isSymbolic = false → ¬ k.Vanishes op x :=
    fun hx h => Bool.false_ne_true (hx.symm.trans h.symbolic)
  have hsymbolic : ∀ {k x : RealExpr}, k.isSymbolic = true → ¬ k.Vanishes op x :=
    fun hk h => Bool.false_ne_true (h.settled.symm.trans hk)
  have hother : ∀ {k x : RealExpr}, isNeutral op k.concrete = false → ¬ k.Vanishes op x :=
    fun hk h => Bool.false_ne_true (hk.symm.trans h.neutral)
  cases hl : l.isSymbolic with
  | false =>
    rw [combine_left hl]
    cases hr : r.isSymbolic with
    | false =>
      rw [settle_of_settled hr]
      exact .inr (.inr ⟨hsettled hr, hsettled hl, rfl⟩)
    | true =>
      rw [settle_of_symbolic hr, withConst_of_symbolic hr]
      cases hk : isNeutral op l.concrete with
      | true => exact .inl ⟨⟨hl, hk, hr⟩, rfl⟩
      | false => exact .inr (.inr ⟨hother hk, hsettled hl, rfl⟩)
  | true =>
    refine .inr ?_
    cases hr : r.isSymbolic with
    | false =>
      rw [combine_right hl hr, withConst_of_symbolic hl]
      cases hk : isNeutral op r.concrete with
      | true =>
        rw [isCommutative_of_isNeutral hk]
        exact .inl ⟨⟨hr, hk, hl⟩, rfl⟩
      | false =>
        refine .inr ⟨hsymbolic hl, hother hk, ?_⟩
        cases op.isCommutative <;> rfl
    | true =>
      rw [combine_symbolic hl hr]
      exact .inr ⟨hsymbolic hl, hsymbolic hr, rfl⟩

/-! ## 2. What is lost -/

/-- The positive zero, without inputs, beside the negative zero, with inputs. -/
structure ZeroBeside (k x : RealExpr) : Prop where
  settled : k.isSymbolic = false
  positive : k.concrete = .zero false
  symbolic : x.isSymbolic = true
  negative : x.concrete = .zero true

/-- The operation is the sum of the two zeros and only the negative one has inputs. -/
def LosesSign (op : RealOp) (l r : RealExpr) : Prop :=
  op = .add ∧ (l.ZeroBeside r ∨ r.ZeroBeside l)

/-- What is neutral leaves the other operand as it is, except for the sum of the zeros. -/
theorem Vanishes.onDouble {k x : RealExpr} {op : RealOp} (h : k.Vanishes op.operator x) :
    op = .add ∧ k.ZeroBeside x ∧ op.onDouble k.concrete x.concrete = .zero false ∨
      ¬ (op = .add ∧ k.ZeroBeside x) ∧ (op.onDouble k.concrete x.concrete).Same x.concrete := by
  cases op with
  | add =>
    have hk : k.concrete = .zero false := of_decide_eq_true h.neutral
    rw [hk]
    by_cases hx : x.concrete = .zero true
    · rw [hx]
      exact .inl ⟨rfl, ⟨h.settled, hk, h.symbolic, hx⟩, Double.zero_addWith_zero⟩
    · exact .inr ⟨fun hzero => hx hzero.2.negative, Double.zero_addWith hx⟩
  | mul =>
    have hk : k.concrete = .one := of_decide_eq_true h.neutral
    rw [hk]
    refine .inr ⟨?_, Double.one_mulWith _⟩
    rintro ⟨hadd, -⟩
    cases hadd
  | sub | div | rem => cases h.neutral

theorem ZeroBeside.vanishes {k x : RealExpr} (h : k.ZeroBeside x) : k.Vanishes .add x :=
  ⟨h.settled, decide_eq_true h.positive, h.symbolic⟩

theorem onDouble_comm {op : RealOp} (h : op.operator.isCommutative = true) (x y : Double) :
    (op.onDouble x y).Same (op.onDouble y x) := by
  cases op with
  | add => exact Double.addWith_comm _ x y
  | mul => exact Double.mulWith_comm _ x y
  | sub | div | rem => cases h

/-- An operand beside which the other vanishes has the concrete value of the result, except for the
sum of the zeros. -/
theorem Vanishes.keeps {k x : RealExpr} {op : RealOp} {c : Double} (h : k.Vanishes op.operator x)
    (hc : c.Same (op.onDouble k.concrete x.concrete)) :
    (x.concrete.Same c ↔ ¬ (op = .add ∧ k.ZeroBeside x)) ∧
      (op = .add ∧ k.ZeroBeside x → x.concrete = .zero true ∧ c = .zero false) := by
  rcases h.onDouble with ⟨hadd, hzero, hsum⟩ | ⟨hnone, hsame⟩
  · rw [hsum] at hc
    have hc' : c = .zero false := hc.resolve_right fun hnan => absurd hnan.2 (by decide)
    refine ⟨iff_of_false ?_ (not_not_intro ⟨hadd, hzero⟩), fun _ => ⟨hzero.negative, hc'⟩⟩
    rw [hzero.negative, hc']
    decide
  · exact ⟨iff_of_true (hc.trans hsame).symm hnone, fun h => absurd h hnone⟩

/-- Beside an operand with inputs only the other one can be the zero without. -/
theorem losesSign_iff {l r : RealExpr} {op : RealOp} (hr : r.isSymbolic = true) :
    LosesSign op l r ↔ op = .add ∧ l.ZeroBeside r := by
  have hnot : ¬ r.ZeroBeside l := fun h => Bool.false_ne_true (h.settled.symm.trans hr)
  rw [LosesSign, or_iff_left hnot]

theorem losesSign_comm {l r : RealExpr} {op : RealOp} : LosesSign op l r ↔ LosesSign op r l := by
  rw [LosesSign, LosesSign, or_comm]

/-- **Folded reals keep their concrete value but for the sign of a zero.**  Let `c` be the result of
the operation on the concrete values, any not-a-number being as good as another.  The expression
that is built has the concrete value `c`, unless the operation is the sum of a positive zero without
inputs and a negative zero with inputs; then the result is the positive zero and the expression has
the negative one. -/
theorem binary_keeps_concrete_iff (l r : RealExpr) (op : RealOp) (c : Double)
    (hc : c.Same (op.onDouble l.concrete r.concrete)) :
    ∃ e, binary? (some l) op.operator (some r) c = .ok e ∧
      (e.concrete.Same c ↔ ¬ LosesSign op l r) ∧
      (LosesSign op l r → e.concrete = .zero true ∧ c = .zero false) := by
  have hop : op.operator.isArithmetic = true := by cases op <;> rfl
  refine ⟨combine l op.operator r c, by rw [binary?, if_pos hop], ?_⟩
  rcases combine_cases l r op.operator c with ⟨hl, he⟩ | ⟨hr, he⟩ | ⟨hl, hr, he⟩
  · rw [he, losesSign_iff hl.symbolic]
    exact hl.keeps hc
  · rw [he, losesSign_comm, losesSign_iff hr.symbolic]
    exact hr.keeps (hc.trans (onDouble_comm (isCommutative_of_isNeutral hr.neutral) _ _))
  · have hnone : ¬ LosesSign op l r := by
      rintro ⟨rfl, hzero | hzero⟩
      · exact hl hzero.vanishes
      · exact hr hzero.vanishes
    rw [he]
    exact ⟨iff_of_true (.refl c) hnone, fun h => absurd h hnone⟩

/-- An input that is the negative zero. -/
def negativeZero : RealExpr := .var ⟨"x", .zero true, .largest true, .largest false⟩

/-- An input that is the negative zero is left over from its sum with the positive one. -/
theorem zero_plus_negativeZero :
    (Double.zero false).Same (RealOp.onDouble .add (.zero false) negativeZero.concrete) ∧
      ∃ e, binary? (some (.const (.zero false))) .add (some negativeZero) (.zero false) = .ok e ∧
        ¬ e.concrete.Same (.zero false) ∧ e.concrete = .zero true := by
  have hsum : (Double.zero false).Same (RealOp.onDouble .add (.zero false) negativeZero.concrete) :=
    .inl Double.zero_addWith_zero.symm
  have hloses : LosesSign .add (.const (.zero false)) negativeZero :=
    ⟨rfl, .inl ⟨rfl, rfl, rfl, rfl⟩⟩
  obtain ⟨e, he, hiff, hlost⟩ :=
    binary_keeps_concrete_iff (.const (.zero false)) negativeZero .add (.zero false) hsum
  exact ⟨hsum, e, he, fun hsame => hiff.mp hsame hloses, (hlost hloses).1⟩

/-- The machine keeps the negative zero where the sum is the positive one. -/
theorem doubleOp_add_negativeZero :
    ∃ m : Machine,
      m.frames.map Frame.stack = [[.fp64 (.const (.zero false)), .fp64 negativeZero]] ∧
      ((Instruction.doubleOp .add).exec m).2.frames.map Frame.stack = [[.fp64 negativeZero]] ∧
      RealOp.onDouble .add negativeZero.concrete (.zero false) = .zero false ∧
      ¬ negativeZero.concrete.Same (.zero false) := by
  refine ⟨{ Machine.new none with frames := [⟨⟨"A", "f", "(D)V"⟩,
    [.fp64 (.const (.zero false)), .fp64 negativeZero], ⟨[]⟩, false⟩] }, rfl, ?_, ?_, ?_⟩
  · rfl
  · decide
  · decide

end Concolic.RealExpr
