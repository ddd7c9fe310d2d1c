import Concolic.Proofs.Contents
import Concolic.Proofs.Folding

/-
# The truth of normal forms

A three-way comparison is -1, 0 or 1, and the machine compares it with thresholds.  The normal form
of such a constraint relates the compared operands themselves.  It goes by the sign of the
threshold, as if that were one of -1, 0 and 1: for `cmp x y <= 1` it states `x <= y`, which is `cmp
x y <= 0`.  `Relation.threshold` is the threshold that it takes for the one that is there.  With the
comparison on the right it negates the threshold before.

So the normal form of a constraint has the truth of another constraint, the one `Constraint.read`
makes with that threshold (`holds_normalize`).  This needs that comparisons tell the truth:
`IntExpr.Honest`, which the builders keep.
-/
namespace Concolic

/-! ## 1. Relations and comparisons -/

/-- The threshold that a normal form takes for `k`. -/
def Relation.threshold (ρ : Relation) (k : Int64) : Int64 :=
  match ρ with
  | eq | ne => threeWayInt k 0
  | lt | ge => if 0 < k then 1 else 0
  | le | gt => if k < 0 then -1 else 0

theorem threeWayInt_lt_zero {a b : Int64} : threeWayInt a b < 0 ↔ a < b := by
  rw [Int64.lt_iff_toInt_lt, Int64.lt_iff_toInt_lt, toInt_threeWayInt]
  change Int.sign _ < 0 ↔ _
  rw [Int.sign_neg_iff]
  omega

theorem threeWayInt_eq_zero {a b : Int64} : threeWayInt a b = 0 ↔ a = b := by
  rw [← Int64.toInt_inj, ← Int64.toInt_inj, toInt_threeWayInt]
  change Int.sign _ = 0 ↔ _
  rw [Int.sign_eq_zero_iff_zero]
  omega

theorem zero_lt_threeWayInt {a b : Int64} : 0 < threeWayInt a b ↔ b < a := by
  rw [Int64.lt_iff_toInt_lt, Int64.lt_iff_toInt_lt, toInt_threeWayInt]
  change 0 < Int.sign _ ↔ _
  rw [Int.sign_pos_iff]
  omega

namespace Relation

/-- Two words are related as their comparison is to zero. -/
theorem holds_threeWayInt (ρ : Relation) (a b : Int64) :
    ρ.holds (threeWayInt a b) 0 = ρ.holds a b := by
  cases ρ with
  | eq => simp only [holds, threeWayInt_eq_zero]
  | ne => simp only [holds, ne_eq, threeWayInt_eq_zero]
  | lt => simp only [holds, threeWayInt_lt_zero]
  | le => simp only [holds, ← Int64.not_lt, zero_lt_threeWayInt]
  | gt => simp only [holds, zero_lt_threeWayInt]
  | ge => simp only [holds, ← Int64.not_lt, threeWayInt_lt_zero]

theorem holds_swap (ρ : Relation) (a b : Int64) : ρ.swap.holds a b = ρ.holds b a := by
  cases ρ <;> simp [swap, holds, eq_comm]

theorem ofThreshold_sign (ρ : Relation) (k : Int64) :
    ρ.ofThreshold (threeWayInt k 0) = ρ.ofThreshold k := by
  cases ρ <;> simp only [ofThreshold, threeWayInt_lt_zero, threeWayInt_eq_zero, ← Int64.not_lt,
    zero_lt_threeWayInt]

theorem threshold_sign (ρ : Relation) (k : Int64) :
    ρ.threshold (threeWayInt k 0) = ρ.threshold k := by
  cases ρ with
  | eq | ne => rcases threeWayInt_cases k 0 with h | h | h <;> simp only [threshold, h] <;> rfl
  | _ => simp only [threshold, threeWayInt_lt_zero, zero_lt_threeWayInt]

/-- **The direct relation is the given one with another threshold.** -/
theorem holds_ofThreshold (ρ : Relation) (k a b : Int64) :
    (ρ.ofThreshold k).holds a b = ρ.holds (threeWayInt a b) (ρ.threshold k) := by
  rw [← holds_threeWayInt, ← ofThreshold_sign, ← threshold_sign]
  -- only the signs of the comparison and of the threshold matter
  rcases threeWayInt_cases a b with ht | ht | ht <;>
    rcases threeWayInt_cases k 0 with hk | hk | hk <;>
    rw [ht, hk] <;> cases ρ <;> decide

end Relation

/-! ## 2. Honest comparisons -/

namespace IntExpr

/-- The comparisons in an expression that a builder may take out of it have the values they should
have. -/
def Honest : IntExpr → Prop
  | binary l _ r _ => l.Honest ∧ r.Honest
  | compare l r t => t = threeWayInt l.concrete r.concrete
  | _ => True

theorem Honest.settle {e : IntExpr} (h : e.Honest) : e.settle.Honest := by
  rcases settle_cases e with he | he
  · rwa [he]
  · rw [he]
    trivial

theorem Honest.addConst {e : IntExpr} (h : e.Honest) (c k : Int64) : (addConst c k e).Honest := by
  fun_induction IntExpr.addConst c k e with
  | case1 => exact h
  | case2 => trivial
  | case3 k _ j x _ ih => exact ih h.2
  | case4 => exact ⟨trivial, h⟩

theorem Honest.sum {l r : IntExpr} (hl : l.Honest) (hr : r.Honest) (c : Int64) :
    (sum l r c).Honest := by
  rcases sum_cases l r c with ⟨k, -, h⟩ | ⟨k, -, -, h⟩ | ⟨-, -, h⟩
  · rw [h]
    exact hr.addConst c k
  · rw [h]
    exact hl.addConst c k
  · rw [h]
    exact ⟨hl, hr⟩

theorem Honest.mulConst {e : IntExpr} (h : e.Honest) (c k : Int64) : (mulConst c k e).Honest := by
  unfold IntExpr.mulConst
  split
  · trivial
  · split
    · exact h
    · split
      · trivial
      · exact ⟨trivial, h⟩

theorem Honest.product {l r : IntExpr} (hl : l.Honest) (hr : r.Honest) (c : Int64) :
    (product l r c).Honest := by
  unfold IntExpr.product
  split
  · exact hr.mulConst _ _
  · exact hl.mulConst _ _
  · exact ⟨hl, hr⟩

theorem Honest.quotient {l r : IntExpr} (hl : l.Honest) (hr : r.Honest) (op : Operator)
    (c : Int64) : (quotient op l r c).Honest := by
  unfold IntExpr.quotient
  split
  · split
    · trivial
    · split
      · trivial
      · exact ⟨hl, hr⟩
  · exact ⟨hl, hr⟩

theorem Honest.plain {l r : IntExpr} (hl : l.Honest) (hr : r.Honest) (op : Operator)
    (c : Int64) : (plain op l r c).Honest := by
  unfold IntExpr.plain
  split
  · trivial
  · exact ⟨hl, hr⟩

/-- **The builders keep comparisons honest.** -/
theorem closed_honest : Closed Honest where
  const _ := trivial
  combine hl hr op c := by
    unfold combine
    split
    · exact hl.settle.sum hr.settle c
    · exact hl.settle.product hr.settle c
    · exact hl.settle.quotient hr.settle _ c
    · exact hl.settle.quotient hr.settle _ c
    · exact hl.settle.plain hr.settle _ c
  apply _ op c := by
    unfold apply
    split <;> trivial
  threeWay {l r} _ _ := by
    unfold threeWay
    dsimp only
    split
    · trivial
    · change _ = threeWayInt l.settle.concrete r.settle.concrete
      rw [concrete_settle, concrete_settle]
  threeWayReal l r c := by
    unfold threeWayReal
    dsimp only
    split <;> trivial
  castReal x c := by
    unfold castReal
    split <;> trivial

end IntExpr

/-! ## 3. Constraints -/

namespace Constraint

/-- Whether a constraint between integers holds of their concrete values. -/
def holds : Constraint → Bool
  | int l (.rel ρ) r => ρ.holds l.concrete r.concrete
  | _ => false

/-- The constraint with the threshold that its normal form goes by. -/
def read : Constraint → Constraint
  | int (.compare l r t) (.rel ρ) (.const k) =>
    relate (.compare l r t) ρ (.const (ρ.threshold k))
  | int (.const k) (.rel ρ) (.compare l r t) =>
    relate (.const (ρ.swap.threshold (-k))) ρ (.compare l r t)
  | c => c

/-- **The normal form holds exactly if the constraint does with the threshold that it goes by.** -/
theorem holds_normalize {l r : IntExpr} {ρ : Relation} (hl : l.Honest) (hr : r.Honest)
    {l' : IntExpr} {cmp : Comparator} {r' : IntExpr}
    (h : (relate l ρ r).normalize = .ok (.int l' cmp r')) :
    (int l' cmp r').holds = (relate l ρ r).read.holds := by
  cases r with
  | const k =>
    cases l with
    | compare a b t =>
      cases h
      have ht : t = threeWayInt l'.concrete r'.concrete := hl
      subst ht
      exact ρ.holds_ofThreshold k _ _
    | _ => cases h <;> rfl
  | compare a b t =>
    cases l with
    | const k =>
      cases h
      have ht : t = threeWayInt l'.concrete r'.concrete := hr
      subst ht
      exact (ρ.swap.holds_ofThreshold (-k) _ _).trans (ρ.holds_swap _ _)
    | _ =>
      cases h
      rfl
  | _ => cases l <;> cases h <;> rfl

end Constraint

end Concolic
