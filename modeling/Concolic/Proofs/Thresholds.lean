import Concolic.Proofs.Outcomes

/-
# Thresholds that normal forms get right

A three-way comparison of `x` and `y` is -1, 0 or 1, as `x` is less than, equal to or greater than
`y`.  A constraint between it and a threshold becomes a direct relation of `x` and `y`, which should
hold of the same values.  Does it?

With the comparison on the left, exactly if the threshold is one that a direct relation can stand
for: -1, 0 or 1 for an equation, but not 1 in `cmp x y <= 1`, which always holds.  With the
comparison on the right, exactly if the threshold is zero: the relation is swapped, which would be
enough, and the threshold is negated too.

Right or wrong, the normal form goes along with negation.  Whoever wants the other outcome of
a branch may negate what was recorded: it is what would have been recorded of the negated branch
(`normal_form_of_negation`).
-/
namespace Concolic

/-! ## 1. Relations to a sign -/

namespace Relation

theorem relates_swap (ρ : Relation) (a b : Int) : ρ.swap.Relates a b ↔ ρ.Relates b a := by
  cases ρ <;> simp [swap, Relates, eq_comm]

/-- Two integers are related as the sign of their difference is to zero. -/
theorem relates_sign (ρ : Relation) (a b : Int) : ρ.Relates (a - b).sign 0 ↔ ρ.Relates a b := by
  have hlt : (a - b).sign < 0 ↔ a < b := by
    rw [Int.sign_neg_iff]
    omega
  have hgt : 0 < (a - b).sign ↔ b < a := by
    rw [Int.sign_pos_iff]
    omega
  cases ρ <;> simp only [Relates] <;> omega

/-- The direct relation of two integers is the given one between the sign of their difference and
another threshold. -/
theorem relates_ofThreshold (ρ : Relation) (k : Int64) (a b : Int) :
    (ρ.ofThreshold k).Relates a b ↔ ρ.Relates (a - b).sign (ρ.threshold k).toInt := by
  -- the sign fits a word, and of words this is known
  obtain ⟨w, hw⟩ : ∃ w : Int64, w.toInt = (a - b).sign := by
    rcases Int.sign_trichotomy (a - b) with h | h | h
    · exact ⟨1, h.symm⟩
    · exact ⟨0, h.symm⟩
    · exact ⟨-1, h.symm⟩
  have hself : (threeWayInt w 0).toInt = (a - b).sign := by
    rw [toInt_threeWayInt, hw, Int64.toInt_zero, Int.sub_zero, Int.sign_sign]
  calc (ρ.ofThreshold k).Relates a b
    _ ↔ (ρ.ofThreshold k).Relates w.toInt (0 : Int64).toInt := by
      rw [← relates_sign, hw]
      rfl
    _ ↔ ρ.Relates (threeWayInt w 0).toInt (ρ.threshold k).toInt := by
      rw [← holds_iff, ← holds_iff, holds_ofThreshold]
    _ ↔ ρ.Relates (a - b).sign (ρ.threshold k).toInt := by rw [hself]

/-- The thresholds that a direct relation can stand for. -/
def thresholds : Relation → List Int64
  | eq | ne => [-1, 0, 1]
  | lt | ge => [0, 1]
  | le | gt => [-1, 0]

theorem threshold_mem (ρ : Relation) (k : Int64) : ρ.threshold k ∈ ρ.thresholds := by
  cases ρ with
  | eq | ne =>
    rcases threeWayInt_cases k 0 with h | h | h <;> simp [threshold, thresholds, h]
  | _ =>
    simp only [threshold]
    split <;> decide

/-- What holds of the thresholds from -1 to 1 that a relation has, one by one. -/
theorem forall_thresholds {P : Int64 → Prop} {ρ : Relation}
    (hneg : -1 ∈ ρ.thresholds → P (-1)) (hzero : P 0) (hpos : 1 ∈ ρ.thresholds → P 1) {j : Int64}
    (hj : j ∈ ρ.thresholds) : P j := by
  have hcases : j = -1 ∨ j = 0 ∨ j = 1 := by
    cases ρ <;> simp only [thresholds, List.mem_cons, List.not_mem_nil, or_false] at hj <;> tauto
  rcases hcases with rfl | rfl | rfl
  · exact hneg hj
  · exact hzero
  · exact hpos hj

theorem threshold_eq_self_iff (ρ : Relation) (k : Int64) :
    ρ.threshold k = k ↔ k ∈ ρ.thresholds := by
  constructor
  · intro h
    rw [← h]
    exact ρ.threshold_mem k
  · intro h
    refine forall_thresholds (P := fun j => ρ.threshold j = j) ?_ ?_ ?_ h <;> cases ρ <;> decide

/-- The negated threshold is taken for the given one only if it is zero. -/
theorem threshold_neg_eq_self_iff (ρ : Relation) (k : Int64) : ρ.threshold (-k) = k ↔ k = 0 := by
  constructor
  · intro h
    have hmem : k ∈ ρ.thresholds := by
      rw [← h]
      exact ρ.threshold_mem (-k)
    refine forall_thresholds (P := fun j => ρ.threshold (-j) = j → j = 0) ?_ ?_ ?_ hmem h <;>
      cases ρ <;> decide
  · intro h
    rw [h]
    cases ρ <;> decide

/-- **Signs tell thresholds apart.**  If every sign is related alike to `k` and to a threshold that
a direct relation can stand for, the two are the same. -/
theorem eq_of_relates_sign {ρ : Relation} {k t : Int64} (ht : t ∈ ρ.thresholds)
    (h : ∀ a b : Int, ρ.Relates (a - b).sign k.toInt ↔ ρ.Relates (a - b).sign t.toInt) : k = t := by
  have hless : ρ.Relates (-1) k.toInt ↔ ρ.Relates (-1) t.toInt := h 0 1
  have hequal : ρ.Relates 0 k.toInt ↔ ρ.Relates 0 t.toInt := h 0 0
  have hgreater : ρ.Relates 1 k.toInt ↔ ρ.Relates 1 t.toInt := h 1 0
  have hvalue : t.toInt = 0 ∨ t.toInt = -1 ∧ ρ ≠ lt ∧ ρ ≠ ge ∨ t.toInt = 1 ∧ ρ ≠ le ∧ ρ ≠ gt := by
    refine forall_thresholds (P := fun j => j.toInt = 0 ∨ j.toInt = -1 ∧ ρ ≠ lt ∧ ρ ≠ ge ∨
      j.toInt = 1 ∧ ρ ≠ le ∧ ρ ≠ gt) ?_ ?_ ?_ ht <;> cases ρ <;> decide
  rw [← Int64.toInt_inj]
  cases ρ <;> simp only [Relates] at hless hequal hgreater <;> simp at hvalue <;> omega

/-- The direct relation for `j` means a relation to the threshold `k` exactly if it takes `j` for
`k`. -/
theorem relates_iff_ofThreshold (ρ : Relation) (j k : Int64) :
    (∀ a b : Int, ρ.Relates (a - b).sign k.toInt ↔ (ρ.ofThreshold j).Relates a b) ↔
      ρ.threshold j = k := by
  simp only [relates_ofThreshold]
  constructor
  · intro h
    exact (eq_of_relates_sign (ρ.threshold_mem j) h).symm
  · intro h a b
    rw [h]

end Relation

/-! ## 2. Constraints on a comparison -/

/-- What a three-way comparison compares. -/
inductive Compared
  | ints (l r : IntExpr)
  | reals (l r : RealExpr)

namespace Compared

/-- The comparison, which had the value `v`. -/
def node (v : Int64) : Compared → IntExpr
  | ints l r => .compare l r v
  | reals l r => .compareReal l r v

/-- The direct relation of what is compared. -/
def related (ρ : Relation) : Compared → Constraint
  | ints l r => .relate l ρ r
  | reals l r => .real l (.rel ρ) r

end Compared

/-- A constraint between a three-way comparison, with its value on this run, and a threshold. -/
inductive Thresholded
  | onLeft (x : Compared) (v : Int64) (ρ : Relation) (k : Int64)
  | onRight (k : Int64) (ρ : Relation) (x : Compared) (v : Int64)

namespace Thresholded

def constraint : Thresholded → Constraint
  | onLeft x v ρ k => .relate (x.node v) ρ (.const k)
  | onRight k ρ x v => .relate (.const k) ρ (x.node v)

/-- Whether the constraint holds if `a` and `b` are compared. -/
def Holds (a b : Int) : Thresholded → Prop
  | onLeft _ _ ρ k => ρ.Relates (a - b).sign k.toInt
  | onRight k ρ _ _ => ρ.Relates k.toInt (a - b).sign

instance (a b : Int) : (t : Thresholded) → Decidable (t.Holds a b)
  | onLeft _ _ ρ k => inferInstanceAs (Decidable (ρ.Relates (a - b).sign k.toInt))
  | onRight k ρ _ _ => inferInstanceAs (Decidable (ρ.Relates k.toInt (a - b).sign))

/-- The normal form: what is compared, in a direct relation. -/
def direct : Thresholded → Compared × Relation
  | onLeft x _ ρ k => (x, ρ.ofThreshold k)
  | onRight k ρ x _ => (x, ρ.swap.ofThreshold (-k))

/-- The thresholds that the normal form gets right. -/
def Exact : Thresholded → Prop
  | onLeft _ _ ρ k => k ∈ ρ.thresholds
  | onRight k _ _ _ => k = 0

theorem normalize_constraint (t : Thresholded) :
    t.constraint.normalize = .ok (t.direct.1.related t.direct.2) := by
  cases t with
  | onLeft x v ρ k => cases x <;> rfl
  | onRight k ρ x v => cases x <;> rfl

theorem holds_iff_direct (t : Thresholded) :
    (∀ a b, t.Holds a b ↔ t.direct.2.Relates a b) ↔ t.Exact := by
  cases t with
  | onLeft x v ρ k => exact (ρ.relates_iff_ofThreshold k k).trans (ρ.threshold_eq_self_iff k)
  | onRight k ρ x v =>
    simp only [Holds, ← ρ.relates_swap]
    exact (ρ.swap.relates_iff_ofThreshold (-k) k).trans (ρ.swap.threshold_neg_eq_self_iff k)

/-- Constraints of another shape are their own normal forms. -/
theorem normalize_of_other {c : Constraint}
    (h : ∀ (t : Thresholded) (cmp : Comparator), c ≠ t.constraint.withComparator cmp) :
    c.normalize = .ok c := by
  unfold Constraint.normalize
  split
  next lhs cmp k =>
    cases lhs with
    | compare l r v => exact absurd rfl (h (.onLeft (.ints l r) v .eq k) cmp)
    | compareReal l r v => exact absurd rfl (h (.onLeft (.reals l r) v .eq k) cmp)
    | _ => rfl
  next k cmp rhs _ =>
    cases rhs with
    | compare l r v => exact absurd rfl (h (.onRight k .eq (.ints l r) v) cmp)
    | compareReal l r v => exact absurd rfl (h (.onRight k .eq (.reals l r) v) cmp)
    | _ => rfl
  · rfl

end Thresholded

/-- **When normal forms keep the meaning.**  A constraint between a three-way comparison and a
threshold becomes a relation of what is compared, the operands in their order.  The two hold of the
same values of the operands exactly if the threshold is one that the normal form gets right.  Any
other constraint stays as it is. -/
theorem normal_form_means_same_iff (t : Thresholded) (c : Constraint) :
    t.constraint.normalize = .ok (t.direct.1.related t.direct.2) ∧
    ((∀ a b, t.Holds a b ↔ t.direct.2.Relates a b) ↔ t.Exact) ∧
    ((∀ (t : Thresholded) (cmp : Comparator), c ≠ t.constraint.withComparator cmp) →
      c.normalize = .ok c) :=
  ⟨t.normalize_constraint, t.holds_iff_direct, Thresholded.normalize_of_other⟩

namespace Thresholded

def smaller : IntExpr := .var ⟨"x", 1, -10, 10⟩

def larger : IntExpr := .var ⟨"y", 2, -10, 10⟩

/-- `-1 == cmp x y`, which says that `x` is less than `y`. -/
def lessOnRight : Thresholded := .onRight (-1) .eq (.ints smaller larger) (-1)

/-- `cmp x y <= 1`, which says nothing. -/
def vacuous : Thresholded := .onLeft (.ints smaller larger) (-1) .le 1

/-- A comparison on the right gets another meaning; a relation to a constant stays. -/
theorem lessOnRight_means_other :
    lessOnRight.constraint.normalize = .ok (.relate smaller .gt larger) ∧
    (¬ ∀ a b, lessOnRight.Holds a b ↔ Relation.gt.Relates a b) ∧
    (∀ (t : Thresholded) (cmp : Comparator),
      Constraint.relate smaller .lt (.const 0) ≠ t.constraint.withComparator cmp) ∧
    (Constraint.relate smaller .lt (.const 0)).normalize =
      .ok (.relate smaller .lt (.const 0)) := by
  have hother : ∀ (t : Thresholded) (cmp : Comparator),
      Constraint.relate smaller .lt (.const 0) ≠ t.constraint.withComparator cmp := by
    intro t cmp h
    cases t with
    | onLeft x v ρ k => cases x <;> cases h
    | onRight k ρ x v => cases x <;> cases h
  have hinexact : ¬ lessOnRight.Exact := show ¬ (-1 : Int64) = 0 by decide
  obtain ⟨hnormal, hmeans, hstays⟩ :=
    normal_form_means_same_iff lessOnRight (.relate smaller .lt (.const 0))
  exact ⟨hnormal, fun h => hinexact (hmeans.1 h), hother, hstays hother⟩

/-- **Normal forms that mean something else.**  `-1 == cmp x y` becomes `x > y`, and `cmp x y <= 1`
becomes `x <= y`. -/
theorem lessOnRight_reversed :
    lessOnRight.constraint.normalize = .ok (.relate smaller .gt larger) ∧
      lessOnRight.Holds 1 2 ∧ ¬ Relation.gt.Relates 1 2 ∧
    vacuous.constraint.normalize = .ok (.relate smaller .le larger) ∧
      vacuous.Holds 2 1 ∧ ¬ Relation.le.Relates 2 1 := by
  refine ⟨rfl, ?_, ?_, rfl, ?_, ?_⟩
  · decide
  · decide
  · decide
  · decide

end Thresholded

/-! ## 3. Negated constraints -/

namespace Relation

theorem swap_negate (ρ : Relation) : ρ.negate.swap = ρ.swap.negate := by
  cases ρ <;> rfl

/-- The direct relation of the negation, whatever the threshold. -/
theorem ofThreshold_negate (ρ : Relation) (k : Int64) :
    ρ.negate.ofThreshold k = (ρ.ofThreshold k).negate := by
  -- only the sign of the threshold matters
  rw [← ofThreshold_sign, ← ρ.ofThreshold_sign]
  rcases threeWayInt_cases k 0 with hk | hk | hk <;> rw [hk] <;> cases ρ <;> decide

end Relation

theorem Compared.negate_related (ρ : Relation) (x : Compared) :
    (x.related ρ).negate = .ok (x.related ρ.negate) := by
  cases x <;> rfl

namespace Thresholded

/-- The same comparison and threshold in the opposite relation. -/
def negate : Thresholded → Thresholded
  | onLeft x v ρ k => onLeft x v ρ.negate k
  | onRight k ρ x v => onRight k ρ.negate x v

theorem negate_constraint (t : Thresholded) : t.constraint.negate = .ok t.negate.constraint := by
  cases t <;> rfl

theorem direct_negate (t : Thresholded) : t.negate.direct = (t.direct.1, t.direct.2.negate) := by
  cases t with
  | onLeft x v ρ k => rw [negate, direct, ρ.ofThreshold_negate k, direct]
  | onRight k ρ x v =>
    rw [negate, direct, ρ.swap_negate, ρ.swap.ofThreshold_negate (-k), direct]

/-- A valid constraint of the shape is one of these. -/
theorem eq_constraint_of_valid {c : Constraint} (hc : c.Valid) {t : Thresholded} {cmp : Comparator}
    (h : c = t.constraint.withComparator cmp) : ∃ t' : Thresholded, c = t'.constraint := by
  obtain ⟨ρ, hρ⟩ := hc
  subst h
  cases t with
  | onLeft x v σ k =>
    obtain rfl : cmp = .rel ρ := hρ
    exact ⟨.onLeft x v ρ k, rfl⟩
  | onRight k σ x v =>
    obtain rfl : cmp = .rel ρ := hρ
    exact ⟨.onRight k ρ x v, rfl⟩

end Thresholded

namespace Constraint

theorem negate_of_comparator {c : Constraint} {ρ : Relation} (h : c.comparator = .rel ρ) :
    c.negate = .ok (c.withComparator (.rel ρ.negate)) := by
  rw [negate, h]
  rfl

theorem withComparator_withComparator (c : Constraint) (cmp cmp' : Comparator) :
    (c.withComparator cmp).withComparator cmp' = c.withComparator cmp' := by
  cases c <;> rfl

theorem withComparator_self (c : Constraint) : c.withComparator c.comparator = c := by
  cases c <;> rfl

/-- **Normal forms go along with negation.**  A comparison keeps its threshold when it is negated,
and the direct relations are negated with it; any other constraint is its own normal form, and so
is its negation. -/
theorem normalize_negated {c : Constraint} (hc : c.Valid) :
    ∃ opposite kept other, c.negate = .ok opposite ∧ c.normalize = .ok kept ∧
      kept.negate = .ok other ∧ opposite.normalize = .ok other := by
  by_cases hshape : ∃ (t : Thresholded) (cmp : Comparator), c = t.constraint.withComparator cmp
  · obtain ⟨t, cmp, ht⟩ := hshape
    obtain ⟨t, rfl⟩ := Thresholded.eq_constraint_of_valid hc ht
    refine ⟨_, _, _, t.negate_constraint, t.normalize_constraint, Compared.negate_related _ _, ?_⟩
    rw [t.negate.normalize_constraint, t.direct_negate]
  · have hother : ∀ (t : Thresholded) (cmp : Comparator), c ≠ t.constraint.withComparator cmp :=
      fun t cmp h => hshape ⟨t, cmp, h⟩
    obtain ⟨ρ, hρ⟩ := hc
    have hnegate := negate_of_comparator hρ
    refine ⟨_, c, _, hnegate, Thresholded.normalize_of_other hother, hnegate, ?_⟩
    refine Thresholded.normalize_of_other fun t cmp h => ?_
    -- to put the comparator back leaves the shape
    have hback : c = t.constraint.withComparator c.comparator := by
      rw [← withComparator_withComparator, ← h, withComparator_withComparator, withComparator_self]
    exact hother t _ hback

end Constraint

/-- **The normal form of a negation is the negation of the normal form.**  Both are there for every
constraint with a relation between its sides.  So a branch that is recorded and then negated reads
as the negated branch would have been recorded: everything else of the decision is the same. -/
theorem normal_form_of_negation {c : Constraint} (hc : c.Valid) :
    ∃ opposite kept other, c.negate = .ok opposite ∧ c.normalize = .ok kept ∧
      kept.negate = .ok other ∧ opposite.normalize = .ok other ∧
      ∀ (pc : PathCondition) (className methodName : String) (branch : Int),
        ∃ d, d.constraint = kept ∧
          pc.report (.branch c className methodName branch) = .ok (pc.decide d, some d) ∧
          pc.report (.branch opposite className methodName branch) =
            .ok (pc.decide { d with constraint := other },
              some { d with constraint := other }) := by
  obtain ⟨opposite, kept, other, hnegate, hkept, hother, hopposite⟩ :=
    Constraint.normalize_negated hc
  refine ⟨opposite, kept, other, hnegate, hkept, hother, hopposite, ?_⟩
  intro pc className methodName branch
  refine ⟨⟨.branch, className, methodName, branch, false, kept, pc.pending⟩, rfl, ?_, ?_⟩
  · rw [PathCondition.report, hkept]
    rfl
  · rw [PathCondition.report, hopposite]
    rfl

namespace Thresholded

/-- The least word below a comparison, where to negate the threshold wraps around. -/
def leastOnRight : Thresholded := .onRight Int64.minValue .lt (.ints smaller larger) (-1)

theorem leastOnRight_negated :
    leastOnRight.constraint.Valid ∧
    leastOnRight.constraint.normalize = .ok (.relate smaller .ge larger) ∧
    ∃ opposite, leastOnRight.constraint.negate = .ok opposite ∧
      opposite.normalize = .ok (.relate smaller .lt larger) := by
  have hvalid : leastOnRight.constraint.Valid := ⟨.lt, rfl⟩
  obtain ⟨opposite, kept, other, hnegate, hkept, hother, hopposite, -⟩ :=
    normal_form_of_negation hvalid
  have hleast : leastOnRight.constraint.normalize = .ok (.relate smaller .ge larger) := rfl
  obtain rfl : kept = .relate smaller .ge larger := Except.ok.inj (hkept.symm.trans hleast)
  obtain rfl : other = .relate smaller .lt larger := Except.ok.inj (hother.symm.trans rfl)
  exact ⟨hvalid, hleast, opposite, hnegate, hopposite⟩

end Thresholded

end Concolic
