import Concolic.Proofs.Words

/-
# The values of folded expressions

A builder is told the value of its result, but where it answers with one of its operands the value
is that of the operand.  This file says when the two are the same.

For products, quotients and all plain operations they always are.  Sums are the interesting case.
An expression is `Tidy` if it is no sum of a constant with another such sum, and the builders keep
expressions tidy.  Adding `k` to a tidy expression then either builds a node, which has the value it
was told, or takes back the constant of a sum `-k + x` and answers with `x`.  The sum may have
another value than its parts give: an int sum wraps around at 32 bits, and nothing of that is left
in the expression once it is used as a long.  So

* on ints nothing is lost, since `x` is an int as well (`combine_add_int`);
* on longs the value is lost exactly if the constant of such a sum is taken back
  (`combine_add_long_iff`, `LosesCarry`).
-/
namespace Concolic

namespace IntExpr

/-! ## 1. Settled operands -/

@[simp] theorem concrete_settle (e : IntExpr) : e.settle.concrete = e.concrete := by
  unfold settle
  split <;> rfl

theorem settle_cases (e : IntExpr) : e.settle = e ∨ e.settle = const e.concrete := by
  unfold settle
  split
  · exact Or.inl rfl
  · exact Or.inr rfl

/-! ## 2. Sums with a constant -/

/-- A sum with a constant on its left. -/
def IsConstSum : IntExpr → Prop
  | binary (const _) .add _ _ => True
  | _ => False

/-- A sum with a constant has no such sum on its right. -/
def Tidy (e : IntExpr) : Prop := ∀ k x d, e = binary (const k) .add x d → ¬ x.IsConstSum

theorem tidy_of_not_constSum {e : IntExpr} (h : ¬ e.IsConstSum) : e.Tidy := by
  rintro k x d rfl
  exact absurd trivial h

theorem tidy_const (v : Int64) : (const v).Tidy := tidy_of_not_constSum id

theorem Tidy.settle {e : IntExpr} (h : e.Tidy) : e.settle.Tidy := by
  rcases settle_cases e with he | he
  · rwa [he]
  · rw [he]
    exact tidy_const _

theorem addConst_zero (c : Int64) (e : IntExpr) : addConst c 0 e = e := by
  rw [addConst.eq_def]
  simp

theorem addConst_const {k : Int64} (hk : k ≠ 0) (c v : Int64) :
    addConst c k (const v) = const c := by
  rw [addConst.eq_def]
  simp [hk]

theorem addConst_constSum {k : Int64} (hk : k ≠ 0) (c j d : Int64) (x : IntExpr) :
    addConst c k (binary (const j) .add x d) = addConst c (k + j) x := by
  rw [addConst.eq_def]
  simp [hk]

theorem addConst_node {k : Int64} (hk : k ≠ 0) (c : Int64) {e : IntExpr}
    (hc : e.isConst = false) (he : ¬ e.IsConstSum) :
    addConst c k e = binary (const k) .add e c := by
  rw [addConst.eq_def, if_neg hk]
  split
  · simp [isConst] at hc
  · exact absurd trivial he
  · rfl

theorem isConst_cases (e : IntExpr) : (∃ v, e = const v) ∨ e.isConst = false := by
  cases e with
  | const v => exact Or.inl ⟨v, rfl⟩
  | _ => exact Or.inr rfl

theorem isConstSum_cases (e : IntExpr) :
    (∃ k x d, e = binary (const k) .add x d) ∨ ¬ e.IsConstSum := by
  by_cases h : e.IsConstSum
  · unfold IsConstSum at h
    split at h
    · exact Or.inl ⟨_, _, _, rfl⟩
    · exact h.elim
  · exact Or.inr h

/-- The sum that taking `k` back from `-k + x` would leave. -/
theorem addConst_undo {k : Int64} (hk : k ≠ 0) (c d : Int64) (x : IntExpr) :
    addConst c k (binary (const (-k)) .add x d) = x := by
  rw [addConst_constSum hk, Int64.add_right_neg, addConst_zero]

/-- **Adding a constant to a tidy expression does one of four things.**  It changes nothing, takes
back the constant of a sum, folds to a constant, or builds a tidy sum. -/
theorem addConst_cases {e : IntExpr} (he : e.Tidy) (c k : Int64) :
    (k = 0 ∧ addConst c k e = e) ∨
    (∃ x d, k ≠ 0 ∧ e = binary (const (-k)) .add x d ∧ ¬ x.IsConstSum ∧ addConst c k e = x) ∨
    addConst c k e = const c ∨
    (∃ j x, addConst c k e = binary (const j) .add x c ∧ ¬ x.IsConstSum ∧
      ((j = k ∧ x = e) ∨ ∃ i d, j = k + i ∧ e = binary (const i) .add x d)) := by
  by_cases hk : k = 0
  · subst hk
    exact Or.inl ⟨rfl, addConst_zero c e⟩
  rcases isConst_cases e with ⟨v, rfl⟩ | hc
  · exact Or.inr (Or.inr (Or.inl (addConst_const hk c v)))
  rcases isConstSum_cases e with ⟨i, x, d, rfl⟩ | hs
  · have hx : ¬ x.IsConstSum := he i x d rfl
    by_cases hi : k + i = 0
    · have hneg : i = -k := by
        rw [← Int64.add_left_inj k, Int64.add_left_neg, Int64.add_comm, hi]
      subst hneg
      exact Or.inr (Or.inl ⟨x, d, hk, rfl, hx, addConst_undo hk c d x⟩)
    · rw [addConst_constSum hk]
      rcases isConst_cases x with ⟨v, rfl⟩ | hxc
      · exact Or.inr (Or.inr (Or.inl (addConst_const hi c v)))
      · exact Or.inr (Or.inr (Or.inr ⟨k + i, x, addConst_node hi c hxc hx, hx,
          Or.inr ⟨i, d, rfl, rfl⟩⟩))
  · exact Or.inr (Or.inr (Or.inr ⟨k, e, addConst_node hk c hc hs, hs, Or.inl ⟨rfl, rfl⟩⟩))

theorem Tidy.addConst {e : IntExpr} (he : e.Tidy) (c k : Int64) : (addConst c k e).Tidy := by
  rcases addConst_cases he c k with ⟨-, h⟩ | ⟨x, d, -, -, hx, h⟩ | h | ⟨j, x, h, hx, -⟩
  · rwa [h]
  · rw [h]
    exact tidy_of_not_constSum hx
  · rw [h]
    exact tidy_const c
  · rw [h]
    rintro k' x' d' heq
    cases heq
    exact hx

/-! ## 3. The cases of a sum -/

/-- A sum adds a constant to one of its sides or is a plain node. -/
theorem sum_cases (l r : IntExpr) (c : Int64) :
    (∃ k, l = const k ∧ sum l r c = addConst c k r) ∨
    (∃ k, r = const k ∧ l.isConst = false ∧ sum l r c = addConst c k l) ∨
    (l.isConst = false ∧ r.isConst = false ∧ sum l r c = binary l .add r c) := by
  unfold sum
  split
  · exact Or.inl ⟨_, rfl, rfl⟩
  next hl =>
    refine Or.inr (Or.inl ⟨_, rfl, ?_, rfl⟩)
    exact (isConst_cases l).resolve_left fun ⟨v, h⟩ => hl v h
  next hl hr =>
    refine Or.inr (Or.inr ⟨?_, ?_, rfl⟩)
    · exact (isConst_cases l).resolve_left fun ⟨v, h⟩ => hl v h
    · exact (isConst_cases r).resolve_left fun ⟨v, h⟩ => hr v h

theorem not_constSum_node {l r : IntExpr} {c : Int64} (hl : l.isConst = false) :
    ¬ (binary l .add r c).IsConstSum := by
  unfold IsConstSum
  split
  · next heq =>
    cases heq
    simp [isConst] at hl
  · exact id

theorem Tidy.sum {l r : IntExpr} (hl : l.Tidy) (hr : r.Tidy) (c : Int64) : (sum l r c).Tidy := by
  rcases sum_cases l r c with ⟨k, -, h⟩ | ⟨k, -, -, h⟩ | ⟨hc, -, h⟩
  · rw [h]
    exact hr.addConst c k
  · rw [h]
    exact hl.addConst c k
  · rw [h]
    exact tidy_of_not_constSum (not_constSum_node hc)

/-! ## 4. Sums of longs -/

/-- Adding `k` takes back the constant of a sum whose value is not that of its parts. -/
def Reveals (k : Int64) (e : IntExpr) : Prop :=
  ∃ x d, k ≠ 0 ∧ e = binary (const (-k)) .add x d ∧ x.concrete ≠ k + d

theorem addConst_concrete_iff {e : IntExpr} (he : e.Tidy) (k : Int64) :
    (addConst (k + e.concrete) k e).concrete = k + e.concrete ↔ ¬ Reveals k e := by
  by_cases hrev : ∃ x d, k ≠ 0 ∧ e = binary (const (-k)) .add x d
  · obtain ⟨x, d, hk, rfl⟩ := hrev
    rw [addConst_undo hk]
    constructor
    · rintro hx ⟨x', d', -, heq, hne⟩
      cases heq
      exact hne hx
    · intro h
      by_contra hne
      exact h ⟨x, d, hk, rfl, hne⟩
  · refine ⟨fun _ ⟨x, d, hk, heq, _⟩ => hrev ⟨x, d, hk, heq⟩, fun _ => ?_⟩
    rcases addConst_cases he (k + e.concrete) k with
      ⟨hk, h⟩ | ⟨x, d, hk, heq, -⟩ | h | ⟨j, x, h, -⟩
    · rw [h, hk, Int64.zero_add]
    · exact absurd ⟨x, d, hk, heq⟩ hrev
    · rw [h]
      rfl
    · rw [h]
      rfl

/-- The sum of two longs has another value than it should: one of them is a constant, and it takes
back that of the other, which is a sum whose value is not that of its parts. -/
def LosesCarry (l r : IntExpr) : Prop :=
  (∃ k, l.settle = const k ∧ Reveals k r.settle) ∨ (∃ k, r.settle = const k ∧ Reveals k l.settle)

theorem not_reveals_const (k v : Int64) : ¬ Reveals k (const v) := by
  rintro ⟨x, d, -, heq, -⟩
  cases heq

/-- **A sum of longs has the value it was told, unless it loses a carry.** -/
theorem combine_add_long_iff {l r : IntExpr} (hl : l.Tidy) (hr : r.Tidy) :
    (l.combine .add r (l.concrete + r.concrete)).concrete = l.concrete + r.concrete ↔
      ¬ LosesCarry l r := by
  rw [← concrete_settle l, ← concrete_settle r]
  change (sum l.settle r.settle _).concrete = _ ↔ _
  rcases sum_cases l.settle r.settle (l.settle.concrete + r.settle.concrete) with
    ⟨k, hk, h⟩ | ⟨k, hk, hc, h⟩ | ⟨hcl, hcr, h⟩
  · have hval : l.settle.concrete = k := congrArg concrete hk
    rw [h, hval, addConst_concrete_iff hr.settle]
    refine not_congr ⟨fun hrev => Or.inl ⟨k, hk, hrev⟩, ?_⟩
    rintro (⟨k', hk', hrev⟩ | ⟨k', -, hrev⟩)
    · rw [hk] at hk'
      cases hk'
      exact hrev
    · rw [hk] at hrev
      exact absurd hrev (not_reveals_const _ _)
  · have hval : r.settle.concrete = k := congrArg concrete hk
    rw [h, hval, Int64.add_comm, addConst_concrete_iff hl.settle]
    refine not_congr ⟨fun hrev => Or.inr ⟨k, hk, hrev⟩, ?_⟩
    rintro (⟨k', hk', -⟩ | ⟨k', hk', hrev⟩)
    · rw [hk'] at hc
      cases hc
    · rw [hk] at hk'
      cases hk'
      exact hrev
  · rw [h]
    refine ⟨?_, fun _ => rfl⟩
    rintro - (⟨k, hk, -⟩ | ⟨k, hk, -⟩)
    · rw [hk] at hcl
      cases hcl
    · rw [hk] at hcr
      cases hcr

/-! ## 5. Sums of ints -/

/-- What stands in an int slot: its value is an int, and if it is a sum with a constant, so is the
value of its other part, and the two add up to it as ints. -/
structure IntSound (e : IntExpr) : Prop where
  isInt : IsInt e.concrete
  sums : ∀ k x d, e = binary (const k) .add x d →
    ¬ x.IsConstSum ∧ IsInt x.concrete ∧ d.toInt32 = k.toInt32 + x.concrete.toInt32

theorem IntSound.tidy {e : IntExpr} (h : e.IntSound) : e.Tidy :=
  fun k x d heq => (h.sums k x d heq).1

theorem intSound_of_not_constSum {e : IntExpr} (hv : IsInt e.concrete) (hs : ¬ e.IsConstSum) :
    e.IntSound := by
  refine ⟨hv, ?_⟩
  rintro k x d rfl
  exact absurd trivial hs

theorem IntSound.settle {e : IntExpr} (h : e.IntSound) : e.settle.IntSound := by
  rcases settle_cases e with he | he
  · rwa [he]
  · rw [he]
    exact intSound_of_not_constSum h.isInt id

/-- Adding a constant to an int loses nothing: what is left when a constant is taken back is an int,
and as ints the parts of the sum do add up. -/
theorem IntSound.addConst {e : IntExpr} (he : e.IntSound) {c k : Int64}
    (hc : c = (k.toInt32 + e.concreteInt).toInt64) :
    (addConst c k e).concrete = c ∧ (addConst c k e).IntSound := by
  have hint : IsInt c := hc ▸ isInt_toInt64 _
  have hcut : c.toInt32 = k.toInt32 + e.concreteInt := by rw [hc, Int32.toInt32_toInt64]
  rcases addConst_cases he.tidy c k with
    ⟨hk, h⟩ | ⟨x, d, hk, heq, hx, h⟩ | h | ⟨j, x, h, hx, hfrom⟩
  · have hval : e.concrete = c := by
      rw [hc, hk, ← he.isInt.toInt64_toInt32]
      congr 1
      exact (Int32.zero_add _).symm
    rw [h]
    exact ⟨hval, he⟩
  · subst heq
    obtain ⟨-, hxint, hd⟩ := he.sums _ _ _ rfl
    have hd' : d.toInt32 = -k.toInt32 + x.concrete.toInt32 := by rw [hd, Int64.toInt32_neg]
    have hval : x.concrete = c := by
      rw [hc, ← hxint.toInt64_toInt32]
      congr 1
      change _ = k.toInt32 + d.toInt32
      rw [hd', ← Int32.add_assoc, Int32.add_right_neg, Int32.zero_add]
    rw [h]
    exact ⟨hval, intSound_of_not_constSum hxint hx⟩
  · rw [h]
    exact ⟨rfl, intSound_of_not_constSum hint id⟩
  · rw [h]
    refine ⟨rfl, hint, ?_⟩
    rintro k' x' d' heq
    cases heq
    rcases hfrom with ⟨rfl, rfl⟩ | ⟨i, d, rfl, rfl⟩
    · exact ⟨hx, he.isInt, hcut⟩
    · obtain ⟨-, hxint, hd⟩ := he.sums _ _ _ rfl
      refine ⟨hx, hxint, ?_⟩
      rw [hcut, Int64.toInt32_add, Int32.add_assoc, ← hd]
      rfl

/-- **A sum of ints has the value it was told.** -/
theorem combine_add_int {l r : IntExpr} (hl : l.IntSound) (hr : r.IntSound) {c : Int64}
    (hc : c = (l.concreteInt + r.concreteInt).toInt64) :
    (l.combine .add r c).concrete = c ∧ (l.combine .add r c).IntSound := by
  change (sum l.settle r.settle c).concrete = c ∧ (sum l.settle r.settle c).IntSound
  rcases sum_cases l.settle r.settle c with ⟨k, hk, h⟩ | ⟨k, hk, hconst, h⟩ | ⟨hcl, -, h⟩
  · have hval : k = l.concrete := by rw [← concrete_settle l, hk]; rfl
    rw [h]
    exact hr.settle.addConst
      (by rw [hc, hval, concreteInt, concreteInt, concreteInt, concrete_settle])
  · have hval : k = r.concrete := by rw [← concrete_settle r, hk]; rfl
    rw [h]
    refine hl.settle.addConst ?_
    rw [hc, hval, concreteInt, concreteInt, concreteInt, concrete_settle, Int32.add_comm]
  · rw [h]
    exact ⟨rfl, intSound_of_not_constSum (hc ▸ isInt_toInt64 _) (not_constSum_node hcl)⟩

/-! ## 6. Other operations -/

theorem not_constSum_of_ne {op : Operator} (hop : op ≠ .add) (l r : IntExpr) (c : Int64) :
    ¬ (binary l op r c).IsConstSum := by
  unfold IsConstSum
  split
  next heq =>
    cases heq
    exact absurd rfl hop
  · exact id

/-- A plain operation, and that it is no sum. -/
theorem plain_spec {op : Operator} (hop : op ≠ .add) (l r : IntExpr) (c : Int64) :
    (plain op l r c).concrete = c ∧ ¬ (plain op l r c).IsConstSum := by
  unfold plain
  split
  · exact ⟨rfl, id⟩
  · exact ⟨rfl, not_constSum_of_ne hop l r c⟩

/-- A quotient or remainder.  The value it is told may only differ from zero if the dividend does.
-/
theorem quotient_spec {op : Operator} (hop : op ≠ .add) {l : IntExpr} (r : IntExpr) {c : Int64}
    (h0 : l.concrete = 0 → c = 0) :
    (quotient op l r c).concrete = c ∧ ¬ (quotient op l r c).IsConstSum := by
  unfold quotient
  split
  · split
    next hk => exact ⟨(h0 hk).symm, id⟩
    split
    · exact ⟨rfl, id⟩
    · exact ⟨rfl, not_constSum_of_ne hop _ r c⟩
  · exact ⟨rfl, not_constSum_of_ne hop _ r c⟩

theorem mulConst_spec {c k : Int64} {e : IntExpr} (h0 : k = 0 → c = 0)
    (h1 : k = 1 → c = e.concrete) :
    (mulConst c k e).concrete = c ∧ (mulConst c k e = e ∨ ¬ (mulConst c k e).IsConstSum) := by
  unfold mulConst
  split
  next hk => exact ⟨(h0 hk).symm, Or.inr id⟩
  split
  next hk => exact ⟨(h1 hk).symm, Or.inl rfl⟩
  split
  · exact ⟨rfl, Or.inr id⟩
  · exact ⟨rfl, Or.inr (not_constSum_of_ne (by decide) _ e c)⟩

/-- A product.  It may be one of its operands if the other is one. -/
theorem product_spec {l r : IntExpr} {c : Int64} (h0 : l.concrete = 0 ∨ r.concrete = 0 → c = 0)
    (hl : l.concrete = 1 → c = r.concrete) (hr : r.concrete = 1 → c = l.concrete) :
    (product l r c).concrete = c ∧
      (product l r c = l ∨ product l r c = r ∨ ¬ (product l r c).IsConstSum) := by
  unfold product
  split
  · obtain ⟨hval, hres⟩ := mulConst_spec (fun h => h0 (Or.inl h)) hl
    exact ⟨hval, Or.inr hres⟩
  · obtain ⟨hval, hres⟩ := mulConst_spec (fun h => h0 (Or.inr h)) hr
    exact ⟨hval, hres.imp_right Or.inr⟩
  · exact ⟨rfl, Or.inr (Or.inr (not_constSum_of_ne (by decide) _ _ c))⟩

theorem apply_spec (op : Operator) (e : IntExpr) (c : Int64) :
    (apply op e c).concrete = c ∧ ¬ (apply op e c).IsConstSum := by
  unfold apply
  split <;> exact ⟨rfl, id⟩

theorem threeWay_spec (l r : IntExpr) (c : Int64) :
    (threeWay l r c).concrete = c ∧ ¬ (threeWay l r c).IsConstSum := by
  unfold threeWay
  dsimp only
  split <;> exact ⟨rfl, id⟩

/-! ## 7. The operations of the machine -/

variable {l r : IntExpr}

/-- An expression with an int value that is no sum. -/
theorem intSound_of_spec {e : IntExpr} {a : Int32}
    (h : e.concrete = a.toInt64 ∧ ¬ e.IsConstSum) : e.concrete = a.toInt64 ∧ e.IntSound :=
  ⟨h.1, intSound_of_not_constSum (h.1 ▸ isInt_toInt64 a) h.2⟩

theorem combine_mul_int (hl : l.IntSound) (hr : r.IntSound) {c : Int64}
    (hc : c = (l.concreteInt * r.concreteInt).toInt64) :
    (l.combine .mul r c).concrete = c ∧ (l.combine .mul r c).IntSound := by
  have h0 : l.settle.concrete = 0 ∨ r.settle.concrete = 0 → c = 0 := by
    rw [concrete_settle, concrete_settle, hc, concreteInt, concreteInt]
    rintro (h | h)
    · rw [h]
      exact congrArg Int32.toInt64 Int32.zero_mul
    · rw [h]
      exact congrArg Int32.toInt64 Int32.mul_zero
  have hone : l.settle.concrete = 1 → c = r.settle.concrete := by
    rw [concrete_settle, concrete_settle, hc, concreteInt, concreteInt]
    intro h
    rw [h]
    exact (congrArg Int32.toInt64 (Int32.one_mul _)).trans hr.isInt.toInt64_toInt32
  have hone' : r.settle.concrete = 1 → c = l.settle.concrete := by
    rw [concrete_settle, concrete_settle, hc, concreteInt, concreteInt]
    intro h
    rw [h]
    exact (congrArg Int32.toInt64 (Int32.mul_one _)).trans hl.isInt.toInt64_toInt32
  obtain ⟨hval, hres⟩ := product_spec h0 hone hone'
  refine ⟨hval, ?_⟩
  change (product l.settle r.settle c).IntSound
  rcases hres with h | h | h
  · rw [h]
    exact hl.settle
  · rw [h]
    exact hr.settle
  · exact intSound_of_not_constSum (hval.symm ▸ hc ▸ isInt_toInt64 _) h

theorem combine_mul_long (hl : l.Tidy) (hr : r.Tidy) :
    (l.combine .mul r (l.concrete * r.concrete)).concrete = l.concrete * r.concrete ∧
      (l.combine .mul r (l.concrete * r.concrete)).Tidy := by
  have h0 : l.settle.concrete = 0 ∨ r.settle.concrete = 0 → l.concrete * r.concrete = 0 := by
    rw [concrete_settle, concrete_settle]
    rintro (h | h)
    · rw [h, Int64.zero_mul]
    · rw [h, Int64.mul_zero]
  have hone : l.settle.concrete = 1 → l.concrete * r.concrete = r.settle.concrete := by
    rw [concrete_settle, concrete_settle]
    intro h
    rw [h, Int64.one_mul]
  have hone' : r.settle.concrete = 1 → l.concrete * r.concrete = l.settle.concrete := by
    rw [concrete_settle, concrete_settle]
    intro h
    rw [h, Int64.mul_one]
  obtain ⟨hval, hres⟩ := product_spec h0 hone hone'
  refine ⟨hval, ?_⟩
  change (product l.settle r.settle _).Tidy
  rcases hres with h | h | h
  · rw [h]
    exact hl.settle
  · rw [h]
    exact hr.settle
  · exact tidy_of_not_constSum h

/-- **Every operation on ints has the value it was told, and is fit for an int slot.** -/
theorem combine_wordOp_int (op : WordOp) (hl : l.IntSound) (hr : r.IntSound) {c : Int64}
    (hc : c = (op.onInt l.concreteInt r.concreteInt).toInt64) :
    (l.combine op.operator r c).concrete = c ∧ (l.combine op.operator r c).IntSound := by
  cases op with
  | add => exact combine_add_int hl hr hc
  | mul => exact combine_mul_int hl hr hc
  | sub => exact hc ▸ intSound_of_spec (plain_spec (by decide) _ _ _)
  | and => exact hc ▸ intSound_of_spec (plain_spec (by decide) _ _ _)
  | or => exact hc ▸ intSound_of_spec (plain_spec (by decide) _ _ _)
  | xor => exact hc ▸ intSound_of_spec (plain_spec (by decide) _ _ _)

/-- **An operation on longs has the value it was told, unless it is a sum that loses a carry.** -/
theorem combine_wordOp_long (op : WordOp) (hl : l.Tidy) (hr : r.Tidy) {c : Int64}
    (hc : c = op.onLong l.concrete r.concrete) :
    ((l.combine op.operator r c).concrete = c ↔ ¬ (op = .add ∧ LosesCarry l r)) ∧
      (l.combine op.operator r c).Tidy := by
  have htrue : ∀ {op' : WordOp}, op' ≠ .add → ∀ {e : IntExpr}, e.concrete = c →
      (e.concrete = c ↔ ¬ (op' = .add ∧ LosesCarry l r)) :=
    fun hne _ hval => ⟨fun _ hadd => hne hadd.1, fun _ => hval⟩
  have hplain : ∀ {op' : WordOp}, op' ≠ .add → ∀ {e : IntExpr},
      e.concrete = c ∧ ¬ e.IsConstSum →
      (e.concrete = c ↔ ¬ (op' = .add ∧ LosesCarry l r)) ∧ e.Tidy :=
    fun hne _ h => ⟨htrue hne h.1, tidy_of_not_constSum h.2⟩
  cases op with
  | add =>
    subst hc
    refine ⟨?_, hl.settle.sum hr.settle _⟩
    rw [and_iff_right rfl]
    exact combine_add_long_iff hl hr
  | mul =>
    subst hc
    obtain ⟨hval, htidy⟩ := combine_mul_long hl hr
    exact ⟨htrue (by decide) hval, htidy⟩
  | sub => exact hplain (by decide) (plain_spec (by decide) _ _ _)
  | and => exact hplain (by decide) (plain_spec (by decide) _ _ _)
  | or => exact hplain (by decide) (plain_spec (by decide) _ _ _)
  | xor => exact hplain (by decide) (plain_spec (by decide) _ _ _)

theorem combine_shiftOp_spec (op : ShiftOp) (l r : IntExpr) (c : Int64) :
    (l.combine op.operator r c).concrete = c ∧ ¬ (l.combine op.operator r c).IsConstSum := by
  cases op with
  | shl => exact plain_spec (by decide) _ _ _
  | shr => exact plain_spec (by decide) _ _ _
  | ushr => exact plain_spec (by decide) _ _ _

theorem combine_divOp_spec (op : DivOp) (r : IntExpr) {c : Int64} (h0 : l.concrete = 0 → c = 0) :
    (l.combine op.operator r c).concrete = c ∧ ¬ (l.combine op.operator r c).IsConstSum := by
  rw [← concrete_settle] at h0
  cases op with
  | div => exact quotient_spec (by decide) _ h0
  | rem => exact quotient_spec (by decide) _ h0

end IntExpr

end Concolic
