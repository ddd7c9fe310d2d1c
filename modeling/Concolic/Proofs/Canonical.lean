import Concolic.Proofs.Folding
import Concolic.Proofs.Nodes
import Concolic.Proofs.Normal

/-
# Expressions as the builders leave them

`Expr.Built` says that an expression was made from constants and inputs by the checked builders,
with whatever concrete values these accept.  Of such an expression every node is folded: it says
nothing that a smaller node could say.

The argument goes through one predicate on nodes, `Expr.Normal`, which looks at a node and its
operands and no further.  It has two parts: `Folded` is what the builders simplify, `Formed` what
they check and that a node with one operand has no constant there.  An expression all of whose nodes
are normal is `Canonical`.

* The builders keep expressions canonical (`Built.canonical`).  The only recursion among them is the
  one that gathers the constants of a chain of sums (`Canonical.addConst`).
* In a canonical expression an operand without inputs is a constant (`Canonical.isSymbolic_int`), so
  the builders find nothing to settle and nothing to fold: each gives back the node it is asked for
  (`Canonical.rebuild`).
-/
namespace Concolic

/-! ## 1. Built expressions -/

namespace Expr

/-- The expressions that the checked builders make from constants and inputs. -/
inductive Built : Expr → Prop
  | intConst (v : Int64) : Built (.int (.const v))
  | intInput {name : String} {c min max : Int64} {e : IntExpr}
      (made : IntExpr.input? name c min max = .ok e) : Built (.int e)
  | intBinary {l r e : IntExpr} {op : Operator} {c : Int64} (left : Built (.int l))
      (right : Built (.int r)) (made : IntExpr.binary? (some l) op (some r) c = .ok e) :
      Built (.int e)
  | intUnary {x e : IntExpr} {op : Operator} {c : Int64} (arg : Built (.int x))
      (made : IntExpr.unary? op (some x) c = .ok e) : Built (.int e)
  | compare {l r e : IntExpr} {c : Int64} (left : Built (.int l)) (right : Built (.int r))
      (made : IntExpr.compare? (some l) (some r) c = .ok e) : Built (.int e)
  | compareReal {l r : RealExpr} {e : IntExpr} {c : Int64} (left : Built (.real l))
      (right : Built (.real r)) (made : IntExpr.compareReal? (some l) (some r) c = .ok e) :
      Built (.int e)
  | ofReal {x : RealExpr} {e : IntExpr} {c : Int64} (arg : Built (.real x))
      (made : IntExpr.ofReal? (some x) c = .ok e) : Built (.int e)
  | realConst (v : Double) : Built (.real (.const v))
  | realInput {name : String} {c min max : Double} {e : RealExpr}
      (made : RealExpr.input? name c min max = .ok e) : Built (.real e)
  | realBinary {l r e : RealExpr} {op : Operator} {c : Double} (left : Built (.real l))
      (right : Built (.real r)) (made : RealExpr.binary? (some l) op (some r) c = .ok e) :
      Built (.real e)
  | realUnary {x e : RealExpr} {op : Operator} {c : Double} (arg : Built (.real x))
      (made : RealExpr.unary? op (some x) c = .ok e) : Built (.real e)
  | ofInt {x : IntExpr} {e : RealExpr} {c : Double} (arg : Built (.int x))
      (made : RealExpr.ofInt? (some x) c = .ok e) : Built (.real e)

end Expr

mutual
/-- The expression made anew by the checked builders, operands first, every node with the concrete
value it has. -/
def IntExpr.rebuild : IntExpr → Except Malformed IntExpr
  | .const v => .ok (.const v)
  | .var x => IntExpr.input? x.name x.concrete x.min x.max
  | .binary l op r c => do
    let l ← l.rebuild
    let r ← r.rebuild
    IntExpr.binary? (some l) op (some r) c
  | .unary op x c => do
    let x ← x.rebuild
    IntExpr.unary? op (some x) c
  | .compare l r c => do
    let l ← l.rebuild
    let r ← r.rebuild
    IntExpr.compare? (some l) (some r) c
  | .compareReal l r c => do
    let l ← l.rebuild
    let r ← r.rebuild
    IntExpr.compareReal? (some l) (some r) c
  | .ofReal x c => do
    let x ← x.rebuild
    IntExpr.ofReal? (some x) c

@[inherit_doc IntExpr.rebuild]
def RealExpr.rebuild : RealExpr → Except Malformed RealExpr
  | .const v => .ok (.const v)
  | .var x => RealExpr.input? x.name x.concrete x.min x.max
  | .binary l op r c => do
    let l ← l.rebuild
    let r ← r.rebuild
    RealExpr.binary? (some l) op (some r) c
  | .unary op x c => do
    let x ← x.rebuild
    RealExpr.unary? op (some x) c
  | .ofInt x c => do
    let x ← x.rebuild
    RealExpr.ofInt? (some x) c
end

@[inherit_doc IntExpr.rebuild]
def Expr.rebuild : Expr → Except Malformed Expr
  | .int e => Expr.int <$> e.rebuild
  | .real e => Expr.real <$> e.rebuild
  | e => .ok e

/-! ## 2. Normal nodes -/

/-- The operands of an integer operation, as folding leaves them. -/
structure IntExpr.FoldedPair (l : IntExpr) (op : Operator) (r : IntExpr) : Prop where
  not_both : ¬ (l.isConst = true ∧ r.isConst = true)
  right : op = .add ∨ op = .mul → r.isConst = false
  add : ∀ k, op = .add → l = .const k → k ≠ 0 ∧ ¬ r.IsConstSum
  mul : ∀ k, op = .mul → l = .const k → k ≠ 0 ∧ k ≠ 1
  div : ∀ k, op = .div ∨ op = .rem → l = .const k → k ≠ 0

/-- The operands of a real operation, as folding leaves them. -/
structure RealExpr.FoldedPair (l : RealExpr) (op : Operator) (r : RealExpr) : Prop where
  not_both : ¬ (l.isConst = true ∧ r.isConst = true)
  right : op = .add ∨ op = .mul → r.isConst = false
  add : op = .add → l ≠ .const (Double.zero false)
  mul : op = .mul → l ≠ .const Double.one

namespace Expr

/-- Nothing is left to fold at this node. -/
def Folded : Expr → Prop
  | .int (.binary l op r _) => IntExpr.FoldedPair l op r
  | .int (.compare l r _) => ¬ (l.isConst = true ∧ r.isConst = true)
  | .int (.compareReal l r _) => ¬ (l.isConst = true ∧ r.isConst = true)
  | .real (.binary l op r _) => RealExpr.FoldedPair l op r
  | _ => True

/-- The node passes the checks of its builder, and its only operand is no constant. -/
def Formed : Expr → Prop
  | .int (.var x) => x.name ≠ ""
  | .int (.binary _ op _ _) => (op.isArithmetic || op.isBitwise) = true
  | .int (.unary op x _) => op.isUnary = true ∧ x.isConst = false
  | .int (.compare _ _ c) => IntExpr.isThreeWay c = true
  | .int (.compareReal _ _ c) => IntExpr.isThreeWay c = true
  | .int (.ofReal x _) => x.isConst = false
  | .real (.var x) => x.name ≠ ""
  | .real (.binary _ op _ _) => op.isArithmetic = true
  | .real (.unary op x _) => op.isUnary = true ∧ x.isConst = false
  | .real (.ofInt x _) => x.isConst = false
  | _ => True

def Normal (s : Expr) : Prop := s.Folded ∧ s.Formed

/-- Every node is normal. -/
def Canonical (e : Expr) : Prop := ∀ s ∈ e.nodes, s.Normal

theorem Canonical.normal {e : Expr} (h : e.Canonical) : e.Normal := h e e.mem_nodes_self

theorem Canonical.of_mem {e s : Expr} (h : e.Canonical) (hs : s ∈ e.nodes) : s.Canonical :=
  fun _ ht => h _ (mem_nodes_trans ht hs)

section Constructors

variable {l r : IntExpr} {u v : RealExpr} {op : Operator} {c : Int64} {d : Double}

theorem canonical_intConst (k : Int64) : (Expr.int (.const k)).Canonical := by
  simp [Canonical, Normal, Folded, Formed]

theorem canonical_realConst (k : Double) : (Expr.real (.const k)).Canonical := by
  simp [Canonical, Normal, Folded, Formed]

theorem canonical_intBinary : (Expr.int (.binary l op r c)).Canonical ↔
    (Expr.int (.binary l op r c)).Normal ∧ (Expr.int l).Canonical ∧ (Expr.int r).Canonical := by
  simp only [Canonical, nodes_intBinary, List.forall_mem_cons, List.forall_mem_append]

theorem canonical_intUnary : (Expr.int (.unary op l c)).Canonical ↔
    (Expr.int (.unary op l c)).Normal ∧ (Expr.int l).Canonical := by
  simp only [Canonical, nodes_intUnary, List.forall_mem_cons]

theorem canonical_compare : (Expr.int (.compare l r c)).Canonical ↔
    (Expr.int (.compare l r c)).Normal ∧ (Expr.int l).Canonical ∧ (Expr.int r).Canonical := by
  simp only [Canonical, nodes_compare, List.forall_mem_cons, List.forall_mem_append]

theorem canonical_compareReal : (Expr.int (.compareReal u v c)).Canonical ↔
    (Expr.int (.compareReal u v c)).Normal ∧ (Expr.real u).Canonical ∧
      (Expr.real v).Canonical := by
  simp only [Canonical, nodes_compareReal, List.forall_mem_cons, List.forall_mem_append]

theorem canonical_ofReal : (Expr.int (.ofReal u c)).Canonical ↔
    (Expr.int (.ofReal u c)).Normal ∧ (Expr.real u).Canonical := by
  simp only [Canonical, nodes_ofReal, List.forall_mem_cons]

theorem canonical_realBinary : (Expr.real (.binary u op v d)).Canonical ↔
    (Expr.real (.binary u op v d)).Normal ∧ (Expr.real u).Canonical ∧
      (Expr.real v).Canonical := by
  simp only [Canonical, nodes_realBinary, List.forall_mem_cons, List.forall_mem_append]

theorem canonical_realUnary : (Expr.real (.unary op u d)).Canonical ↔
    (Expr.real (.unary op u d)).Normal ∧ (Expr.real u).Canonical := by
  simp only [Canonical, nodes_realUnary, List.forall_mem_cons]

theorem canonical_ofInt : (Expr.real (.ofInt l d)).Canonical ↔
    (Expr.real (.ofInt l d)).Normal ∧ (Expr.int l).Canonical := by
  simp only [Canonical, nodes_ofInt, List.forall_mem_cons]

end Constructors

/-! ## 3. Operands without inputs -/

theorem isConstant_int (e : IntExpr) : (Expr.int e).kind.isConstant = e.isConst := by
  cases e <;> rfl

theorem isConstant_real (e : RealExpr) : (Expr.real e).kind.isConstant = e.isConst := by
  cases e <;> rfl

theorem or_of_not_both {a b x y : Bool} (h : ¬ (a = true ∧ b = true)) (hx : x = !a)
    (hy : y = !b) : (x || y) = true := by
  subst hx hy
  cases a
  · rfl
  · simpa using h

/-- **What has no input is a constant.**  Every inner node of a canonical expression has an operand
that is no constant, and by induction that operand has an input. -/
theorem Canonical.isSymbolic {e : Expr} (h : e.Canonical) :
    e.isSymbolic = !e.kind.isConstant := by
  induction e with
  | intConst | intVar | realConst | realVar => rfl
  | str e => cases e <;> rfl
  | ref e => cases e <;> rfl
  | intBinary l op r c ihl ihr =>
    obtain ⟨⟨hf, -⟩, hl, hr⟩ := canonical_intBinary.1 h
    rw [isConstant_int] at ihl ihr
    exact or_of_not_both (IntExpr.FoldedPair.not_both hf) (ihl hl) (ihr hr)
  | compare l r c ihl ihr =>
    obtain ⟨⟨hf, -⟩, hl, hr⟩ := canonical_compare.1 h
    rw [isConstant_int] at ihl ihr
    exact or_of_not_both hf (ihl hl) (ihr hr)
  | compareReal l r c ihl ihr =>
    obtain ⟨⟨hf, -⟩, hl, hr⟩ := canonical_compareReal.1 h
    rw [isConstant_real] at ihl ihr
    exact or_of_not_both hf (ihl hl) (ihr hr)
  | realBinary l op r c ihl ihr =>
    obtain ⟨⟨hf, -⟩, hl, hr⟩ := canonical_realBinary.1 h
    rw [isConstant_real] at ihl ihr
    exact or_of_not_both (RealExpr.FoldedPair.not_both hf) (ihl hl) (ihr hr)
  | intUnary op x c ih =>
    obtain ⟨⟨-, hop, hx⟩, hc⟩ := canonical_intUnary.1 h
    have hs := ih hc
    rwa [isConstant_int, hx] at hs
  | realUnary op x c ih =>
    obtain ⟨⟨-, hop, hx⟩, hc⟩ := canonical_realUnary.1 h
    have hs := ih hc
    rwa [isConstant_real, hx] at hs
  | ofReal x c ih =>
    obtain ⟨⟨-, hx⟩, hc⟩ := canonical_ofReal.1 h
    have hs := ih hc
    rwa [isConstant_real, show x.isConst = false from hx] at hs
  | ofInt x c ih =>
    obtain ⟨⟨-, hx⟩, hc⟩ := canonical_ofInt.1 h
    have hs := ih hc
    rwa [isConstant_int, show x.isConst = false from hx] at hs

theorem Canonical.isSymbolic_int {e : IntExpr} (h : (Expr.int e).Canonical) :
    e.isSymbolic = !e.isConst := by
  rw [← isConstant_int]
  exact h.isSymbolic

theorem Canonical.isSymbolic_real {e : RealExpr} (h : (Expr.real e).Canonical) :
    e.isSymbolic = !e.isConst := by
  rw [← isConstant_real]
  exact h.isSymbolic

theorem Canonical.settle_int {e : IntExpr} (h : (Expr.int e).Canonical) : e.settle = e := by
  rw [IntExpr.settle, h.isSymbolic_int]
  cases e <;> rfl

theorem Canonical.settle_real {e : RealExpr} (h : (Expr.real e).Canonical) : e.settle = e := by
  rw [RealExpr.settle, h.isSymbolic_real]
  cases e <;> rfl

end Expr

/-! ## 4. The integer builders -/

namespace IntExpr

theorem foldedPair_const {k : Int64} {op : Operator} {r : IntExpr} (hr : r.isConst = false)
    (add : op = .add → k ≠ 0 ∧ ¬ r.IsConstSum) (mul : op = .mul → k ≠ 0 ∧ k ≠ 1)
    (div : op = .div ∨ op = .rem → k ≠ 0) : FoldedPair (.const k) op r where
  not_both h := by simp [hr] at h
  right _ := hr
  add := by
    rintro _ hop ⟨rfl⟩
    exact add hop
  mul := by
    rintro _ hop ⟨rfl⟩
    exact mul hop
  div := by
    rintro _ hop ⟨rfl⟩
    exact div hop

theorem foldedPair_of_not_const {l r : IntExpr} {op : Operator} (hl : l.isConst = false)
    (right : op = .add ∨ op = .mul → r.isConst = false) : FoldedPair l op r where
  not_both h := by simp [hl] at h
  right := right
  add := by
    rintro k - rfl
    cases hl
  mul := by
    rintro k - rfl
    cases hl
  div := by
    rintro k - rfl
    cases hl

end IntExpr

namespace Expr

section Integers

open IntExpr

variable {l r e : IntExpr}

/-- Gathering constants goes down a chain of sums and stops at a part of it. -/
theorem Canonical.addConst (h : (Expr.int e).Canonical) (c k : Int64) :
    (Expr.int (IntExpr.addConst c k e)).Canonical := by
  fun_induction IntExpr.addConst c k e with
  | case1 => exact h
  | case2 => exact canonical_intConst c
  | case3 k j x d hk ih => exact ih (canonical_intBinary.1 h).2.2
  | case4 k hk e hconst hsum =>
    have hc : e.isConst = false := by
      refine (isConst_cases e).resolve_left ?_
      rintro ⟨v, hv⟩
      exact hconst v hv
    have hs : ¬ e.IsConstSum := by
      refine (isConstSum_cases e).resolve_left ?_
      rintro ⟨j, x, d, hv⟩
      exact hsum j x d hv
    have hf : FoldedPair (.const k) .add e :=
      foldedPair_const hc (fun _ => ⟨hk, hs⟩) (by simp) (by simp)
    exact canonical_intBinary.2 ⟨⟨hf, rfl⟩, canonical_intConst k, h⟩

theorem Canonical.sum (hl : (Expr.int l).Canonical) (hr : (Expr.int r).Canonical) (c : Int64) :
    (Expr.int (IntExpr.sum l r c)).Canonical := by
  rcases sum_cases l r c with ⟨k, -, h⟩ | ⟨k, -, -, h⟩ | ⟨hlc, hrc, h⟩
  · rw [h]
    exact hr.addConst c k
  · rw [h]
    exact hl.addConst c k
  · rw [h]
    exact canonical_intBinary.2 ⟨⟨foldedPair_of_not_const hlc fun _ => hrc, rfl⟩, hl, hr⟩

theorem Canonical.mulConst (h : (Expr.int e).Canonical) (c k : Int64) :
    (Expr.int (IntExpr.mulConst c k e)).Canonical := by
  unfold IntExpr.mulConst
  split
  · exact canonical_intConst 0
  next h0 =>
  split
  · exact h
  next h1 =>
  split
  · exact canonical_intConst c
  next hc =>
  have hf : FoldedPair (.const k) .mul e :=
    foldedPair_const (by simpa using hc) (by simp) (fun _ => ⟨h0, h1⟩) (by simp)
  exact canonical_intBinary.2 ⟨⟨hf, rfl⟩, canonical_intConst k, h⟩

theorem Canonical.product (hl : (Expr.int l).Canonical) (hr : (Expr.int r).Canonical)
    (c : Int64) : (Expr.int (IntExpr.product l r c)).Canonical := by
  unfold IntExpr.product
  split
  · exact hr.mulConst c _
  · exact hl.mulConst c _
  next hlc hrc =>
  have hl' : l.isConst = false := (isConst_cases l).resolve_left fun ⟨v, hv⟩ => hlc v hv
  have hr' : r.isConst = false := (isConst_cases r).resolve_left fun ⟨v, hv⟩ => hrc v hv
  exact canonical_intBinary.2 ⟨⟨foldedPair_of_not_const hl' fun _ => hr', rfl⟩, hl, hr⟩

theorem Canonical.quotient {op : Operator} (hop : op = .div ∨ op = .rem)
    (hl : (Expr.int l).Canonical) (hr : (Expr.int r).Canonical) (c : Int64) :
    (Expr.int (IntExpr.quotient op l r c)).Canonical := by
  have hform : (op.isArithmetic || op.isBitwise) = true := by
    rcases hop with rfl | rfl <;> rfl
  have hne : ¬ (op = .add ∨ op = .mul) := by
    rcases hop with rfl | rfl <;> simp
  unfold IntExpr.quotient
  split
  next k =>
    split
    · exact canonical_intConst 0
    next hk =>
    split
    · exact canonical_intConst c
    next hc =>
    have hf : FoldedPair (.const k) op r :=
      foldedPair_const (by simpa using hc) (fun h => absurd (Or.inl h) hne)
        (fun h => absurd (Or.inr h) hne) (fun _ => hk)
    exact canonical_intBinary.2 ⟨⟨hf, hform⟩, canonical_intConst k, hr⟩
  next hlc =>
    have hl' : l.isConst = false := (isConst_cases l).resolve_left fun ⟨v, hv⟩ => hlc v hv
    exact canonical_intBinary.2
      ⟨⟨foldedPair_of_not_const hl' fun h => absurd h hne, hform⟩, hl, hr⟩

theorem Canonical.plain {op : Operator} (hform : (op.isArithmetic || op.isBitwise) = true)
    (hadd : op ≠ .add) (hmul : op ≠ .mul) (hdiv : op ≠ .div) (hrem : op ≠ .rem)
    (hl : (Expr.int l).Canonical) (hr : (Expr.int r).Canonical) (c : Int64) :
    (Expr.int (IntExpr.plain op l r c)).Canonical := by
  unfold IntExpr.plain
  split
  · exact canonical_intConst c
  next hboth =>
  have hf : FoldedPair l op r :=
    { not_both := by simpa using hboth
      right := by simp [hadd, hmul]
      add := by simp [hadd]
      mul := by simp [hmul]
      div := by simp [hdiv, hrem] }
  exact canonical_intBinary.2 ⟨⟨hf, hform⟩, hl, hr⟩

theorem Canonical.combine {op : Operator} (hform : (op.isArithmetic || op.isBitwise) = true)
    (hl : (Expr.int l).Canonical) (hr : (Expr.int r).Canonical) (c : Int64) :
    (Expr.int (IntExpr.combine l op r c)).Canonical := by
  unfold IntExpr.combine
  rw [hl.settle_int, hr.settle_int]
  split
  · exact hl.sum hr c
  · exact hl.product hr c
  · exact Canonical.quotient (Or.inl rfl) hl hr c
  · exact Canonical.quotient (Or.inr rfl) hl hr c
  next hadd hmul hdiv hrem => exact Canonical.plain hform hadd hmul hdiv hrem hl hr c

theorem Canonical.apply {op : Operator} (hop : op.isUnary = true) (h : (Expr.int e).Canonical)
    (c : Int64) : (Expr.int (IntExpr.apply op e c)).Canonical := by
  rw [IntExpr.apply, h.isSymbolic_int]
  cases hc : e.isConst with
  | true => exact canonical_intConst c
  | false => exact canonical_intUnary.2 ⟨⟨trivial, hop, hc⟩, h⟩

theorem Canonical.threeWay (hl : (Expr.int l).Canonical) (hr : (Expr.int r).Canonical) {c : Int64}
    (hc : isThreeWay c = true) : (Expr.int (IntExpr.threeWay l r c)).Canonical := by
  simp only [IntExpr.threeWay, hl.settle_int, hr.settle_int]
  split
  · exact canonical_intConst c
  next hboth => exact canonical_compare.2 ⟨⟨by simpa [Folded] using hboth, hc⟩, hl, hr⟩

end Integers

end Expr

/-! ## 5. The real builders -/

namespace RealExpr

theorem isConst_cases (e : RealExpr) : (∃ v, e = const v) ∨ e.isConst = false := by
  cases e with
  | const v => exact Or.inl ⟨v, rfl⟩
  | _ => exact Or.inr rfl

theorem foldedPair_const {k : Double} {op : Operator} {r : RealExpr} (hr : r.isConst = false)
    (hk : isNeutral op k = false) : FoldedPair (.const k) op r where
  not_both h := by simp [hr] at h
  right _ := hr
  add := by
    rintro rfl ⟨rfl⟩
    cases hk
  mul := by
    rintro rfl ⟨rfl⟩
    cases hk

theorem foldedPair_of_not_const {l r : RealExpr} {op : Operator} (hl : l.isConst = false)
    (right : op = .add ∨ op = .mul → r.isConst = false) : FoldedPair l op r where
  not_both h := by simp [hl] at h
  right := right
  add := by
    rintro - rfl
    cases hl
  mul := by
    rintro - rfl
    cases hl

end RealExpr

namespace Expr

section Reals

open RealExpr

variable {l r e : RealExpr} {op : Operator}

theorem Canonical.withConst (hop : op.isArithmetic = true) (h : (Expr.real e).Canonical)
    (k c : Double) : (Expr.real (RealExpr.withConst k op e c)).Canonical := by
  unfold RealExpr.withConst
  split
  · exact canonical_realConst c
  next hc =>
  split
  · exact h
  next hk =>
  have hf : FoldedPair (.const k) op e := foldedPair_const (by simpa using hc) (by simpa using hk)
  exact canonical_realBinary.2 ⟨⟨hf, hop⟩, canonical_realConst k, h⟩

theorem Canonical.combine_real (hop : op.isArithmetic = true) (hl : (Expr.real l).Canonical)
    (hr : (Expr.real r).Canonical) (c : Double) :
    (Expr.real (RealExpr.combine l op r c)).Canonical := by
  unfold RealExpr.combine
  rw [hl.settle_real, hr.settle_real]
  split
  · exact Canonical.withConst hop hr _ c
  next k hlc =>
    have hl' : l.isConst = false := (isConst_cases l).resolve_left fun ⟨v, hv⟩ => hlc v hv
    split
    · exact Canonical.withConst hop hl k c
    next hcomm =>
    have hne : ¬ (op = .add ∨ op = .mul) := by
      rintro (rfl | rfl) <;> exact hcomm rfl
    exact canonical_realBinary.2
      ⟨⟨foldedPair_of_not_const hl' fun h => absurd h hne, hop⟩, hl, canonical_realConst k⟩
  next hlc hrc =>
    have hl' : l.isConst = false := (isConst_cases l).resolve_left fun ⟨v, hv⟩ => hlc v hv
    have hr' : r.isConst = false := (isConst_cases r).resolve_left fun ⟨v, hv⟩ => hrc v hv
    exact canonical_realBinary.2 ⟨⟨foldedPair_of_not_const hl' fun _ => hr', hop⟩, hl, hr⟩

theorem Canonical.apply_real (hop : op.isUnary = true) (h : (Expr.real e).Canonical)
    (c : Double) : (Expr.real (RealExpr.apply op e c)).Canonical := by
  rw [RealExpr.apply, h.isSymbolic_real]
  cases hc : e.isConst with
  | true => exact canonical_realConst c
  | false => exact canonical_realUnary.2 ⟨⟨trivial, hop, hc⟩, h⟩

theorem Canonical.castInt {x : IntExpr} (h : (Expr.int x).Canonical) (c : Double) :
    (Expr.real (RealExpr.castInt x c)).Canonical := by
  rw [RealExpr.castInt, h.isSymbolic_int]
  cases hc : x.isConst with
  | true => exact canonical_realConst c
  | false => exact canonical_ofInt.2 ⟨⟨trivial, hc⟩, h⟩

theorem Canonical.castReal (h : (Expr.real e).Canonical) (c : Int64) :
    (Expr.int (IntExpr.castReal e c)).Canonical := by
  rw [IntExpr.castReal, h.isSymbolic_real]
  cases hc : e.isConst with
  | true => exact canonical_intConst c
  | false => exact canonical_ofReal.2 ⟨⟨trivial, hc⟩, h⟩

theorem Canonical.threeWayReal (hl : (Expr.real l).Canonical) (hr : (Expr.real r).Canonical)
    {c : Int64} (hc : IntExpr.isThreeWay c = true) :
    (Expr.int (IntExpr.threeWayReal l r c)).Canonical := by
  simp only [IntExpr.threeWayReal, hl.settle_real, hr.settle_real]
  split
  · exact canonical_intConst c
  next hboth => exact canonical_compareReal.2 ⟨⟨by simpa [Folded] using hboth, hc⟩, hl, hr⟩

end Reals

/-! ## 6. Built expressions are canonical -/

/-- A builder that checks its arguments answers only if the check passes. -/
theorem ok_of_ite {α ε : Type} {b : Bool} {x y : α} {err : ε}
    (h : (if b then Except.ok x else Except.error err) = .ok y) : b = true ∧ x = y := by
  cases b with
  | true => exact ⟨rfl, Except.ok.inj h⟩
  | false => cases h

/-- **The builders keep expressions canonical.** -/
theorem Built.canonical {e : Expr} (h : e.Built) : e.Canonical := by
  induction h with
  | intConst v => exact canonical_intConst v
  | @intInput name c min max e made =>
    unfold IntExpr.input? at made
    split at made
    · cases made
    next hname =>
    cases made
    simpa [Canonical, Normal, Folded, Formed] using hname
  | @realInput name c min max e made =>
    unfold RealExpr.input? at made
    split at made
    · cases made
    next hname =>
    cases made
    simpa [Canonical, Normal, Folded, Formed] using hname
  | realConst v => exact canonical_realConst v
  | intBinary _ _ made hl hr =>
    obtain ⟨hop, rfl⟩ := ok_of_ite made
    exact Canonical.combine hop hl hr _
  | intUnary _ made hx =>
    obtain ⟨hop, rfl⟩ := ok_of_ite made
    exact Canonical.apply hop hx _
  | compare _ _ made hl hr =>
    obtain ⟨hc, rfl⟩ := ok_of_ite made
    exact hl.threeWay hr hc
  | compareReal _ _ made hl hr =>
    obtain ⟨hc, rfl⟩ := ok_of_ite made
    exact hl.threeWayReal hr hc
  | ofReal _ made hx =>
    obtain rfl := Except.ok.inj made
    exact hx.castReal _
  | realBinary _ _ made hl hr =>
    obtain ⟨hop, rfl⟩ := ok_of_ite made
    exact Canonical.combine_real hop hl hr _
  | realUnary _ made hx =>
    obtain ⟨hop, rfl⟩ := ok_of_ite made
    exact Canonical.apply_real hop hx _
  | ofInt _ made hx =>
    obtain rfl := Except.ok.inj made
    exact hx.castInt _

end Expr

/-! ## 7. Building again -/

namespace IntExpr

variable {l r : IntExpr} {op : Operator}

theorem FoldedPair.quotient_eq (hf : FoldedPair l op r) (hop : op = .div ∨ op = .rem) (c : Int64) :
    quotient op l r c = binary l op r c := by
  unfold quotient
  split
  next k =>
    have hk := hf.div k hop rfl
    have hr : r.isConst = false := by simpa [isConst] using hf.not_both
    simp [hk, hr]
  · rfl

/-- **Folded operands are left as they are.** -/
theorem FoldedPair.combine_eq (hf : FoldedPair l op r) (hl : l.settle = l) (hr : r.settle = r)
    (c : Int64) : combine l op r c = binary l op r c := by
  unfold combine
  rw [hl, hr]
  split
  · rcases sum_cases l r c with ⟨k, rfl, h⟩ | ⟨k, rfl, -, -⟩ | ⟨-, -, h⟩
    · obtain ⟨hk, hs⟩ := hf.add k rfl rfl
      rw [h, addConst_node hk c (hf.right (Or.inl rfl)) hs]
    · cases hf.right (Or.inl rfl)
    · exact h
  · have hrc := hf.right (Or.inr rfl)
    unfold product
    split
    next k =>
      obtain ⟨h0, h1⟩ := hf.mul k rfl rfl
      simp [mulConst, h0, h1, hrc]
    · cases hrc
    · rfl
  · exact hf.quotient_eq (Or.inl rfl) c
  · exact hf.quotient_eq (Or.inr rfl) c
  · rw [plain, if_neg]
    simpa using hf.not_both

theorem threeWay_eq (hboth : ¬ (l.isConst = true ∧ r.isConst = true)) (hl : l.settle = l)
    (hr : r.settle = r) (c : Int64) : threeWay l r c = compare l r c := by
  simpa [threeWay, hl, hr] using hboth

end IntExpr

namespace RealExpr

variable {l r : RealExpr} {op : Operator}

theorem FoldedPair.combine_eq (hf : FoldedPair l op r) (hop : op.isArithmetic = true)
    (hl : l.settle = l) (hr : r.settle = r) (c : Double) :
    combine l op r c = binary l op r c := by
  unfold combine
  rw [hl, hr]
  split
  next _ _ k =>
    have hrc : r.isConst = false := by simpa [isConst] using hf.not_both
    have hk : isNeutral op k = false := by
      cases op with
      | add => simpa [isNeutral] using hf.add rfl
      | mul => simpa [isNeutral] using hf.mul rfl
      | _ => rfl
    simp [withConst, hrc, hk]
  · -- The only commutative operators of arithmetic are those that keep constants off the right.
    cases op with
    | add => cases hf.right (Or.inl rfl)
    | mul => cases hf.right (Or.inr rfl)
    | sub | div | rem => rfl
    | _ => cases hop
  · rfl

end RealExpr

theorem IntExpr.threeWayReal_eq {l r : RealExpr} (hboth : ¬ (l.isConst = true ∧ r.isConst = true))
    (hl : l.settle = l) (hr : r.settle = r) (c : Int64) :
    threeWayReal l r c = compareReal l r c := by
  simpa [threeWayReal, hl, hr] using hboth

namespace Expr

theorem rebuild_int {e : IntExpr} : (Expr.int e).rebuild = .ok (.int e) ↔ e.rebuild = .ok e := by
  change Expr.int <$> e.rebuild = _ ↔ _
  cases e.rebuild with
  | error err => simp [Functor.map, Except.map]
  | ok e' => simp [Functor.map, Except.map]

theorem rebuild_real {e : RealExpr} :
    (Expr.real e).rebuild = .ok (.real e) ↔ e.rebuild = .ok e := by
  change Expr.real <$> e.rebuild = _ ↔ _
  cases e.rebuild with
  | error err => simp [Functor.map, Except.map]
  | ok e' => simp [Functor.map, Except.map]

/-- **A canonical expression is built again as it is.** -/
theorem Canonical.rebuild {e : Expr} (h : e.Canonical) : e.rebuild = .ok e := by
  induction e with
  | intConst | realConst | str | ref => rfl
  | intVar x =>
    have hname : x.name ≠ "" := h.normal.2
    simp [rebuild_int, IntExpr.rebuild, IntExpr.input?, hname]
  | realVar x =>
    have hname : x.name ≠ "" := h.normal.2
    simp [rebuild_real, RealExpr.rebuild, RealExpr.input?, hname]
  | intBinary l op r c ihl ihr =>
    obtain ⟨⟨hf, hop⟩, hl, hr⟩ := canonical_intBinary.1 h
    have hop : (op.isArithmetic || op.isBitwise) = true := hop
    rw [rebuild_int, IntExpr.rebuild, rebuild_int.1 (ihl hl), rebuild_int.1 (ihr hr)]
    change IntExpr.binary? (some l) op (some r) c = _
    rw [IntExpr.binary?, if_pos hop, IntExpr.FoldedPair.combine_eq hf hl.settle_int hr.settle_int]
  | intUnary op x c ih =>
    obtain ⟨⟨-, hop, hx⟩, hc⟩ := canonical_intUnary.1 h
    rw [rebuild_int, IntExpr.rebuild, rebuild_int.1 (ih hc)]
    change IntExpr.unary? op (some x) c = _
    rw [IntExpr.unary?, if_pos hop, IntExpr.apply, hc.isSymbolic_int, hx]
    rfl
  | compare l r c ihl ihr =>
    obtain ⟨⟨hf, hc⟩, hl, hr⟩ := canonical_compare.1 h
    have hc : IntExpr.isThreeWay c = true := hc
    rw [rebuild_int, IntExpr.rebuild, rebuild_int.1 (ihl hl), rebuild_int.1 (ihr hr)]
    change IntExpr.compare? (some l) (some r) c = _
    rw [IntExpr.compare?, if_pos hc, IntExpr.threeWay_eq hf hl.settle_int hr.settle_int]
  | compareReal l r c ihl ihr =>
    obtain ⟨⟨hf, hc⟩, hl, hr⟩ := canonical_compareReal.1 h
    have hc : IntExpr.isThreeWay c = true := hc
    rw [rebuild_int, IntExpr.rebuild, rebuild_real.1 (ihl hl), rebuild_real.1 (ihr hr)]
    change IntExpr.compareReal? (some l) (some r) c = _
    rw [IntExpr.compareReal?, if_pos hc,
      IntExpr.threeWayReal_eq hf hl.settle_real hr.settle_real]
  | ofReal x c ih =>
    obtain ⟨⟨-, hx⟩, hc⟩ := canonical_ofReal.1 h
    have hx : x.isConst = false := hx
    rw [rebuild_int, IntExpr.rebuild, rebuild_real.1 (ih hc)]
    change IntExpr.ofReal? (some x) c = _
    rw [IntExpr.ofReal?, IntExpr.castReal, hc.isSymbolic_real, hx]
    rfl
  | realBinary l op r c ihl ihr =>
    obtain ⟨⟨hf, hop⟩, hl, hr⟩ := canonical_realBinary.1 h
    have hop : op.isArithmetic = true := hop
    rw [rebuild_real, RealExpr.rebuild, rebuild_real.1 (ihl hl), rebuild_real.1 (ihr hr)]
    change RealExpr.binary? (some l) op (some r) c = _
    rw [RealExpr.binary?, if_pos hop,
      RealExpr.FoldedPair.combine_eq hf hop hl.settle_real hr.settle_real]
  | realUnary op x c ih =>
    obtain ⟨⟨-, hop, hx⟩, hc⟩ := canonical_realUnary.1 h
    rw [rebuild_real, RealExpr.rebuild, rebuild_real.1 (ih hc)]
    change RealExpr.unary? op (some x) c = _
    rw [RealExpr.unary?, if_pos hop, RealExpr.apply, hc.isSymbolic_real, hx]
    rfl
  | ofInt x c ih =>
    obtain ⟨⟨-, hx⟩, hc⟩ := canonical_ofInt.1 h
    have hx : x.isConst = false := hx
    rw [rebuild_real, RealExpr.rebuild, rebuild_int.1 (ih hc)]
    change RealExpr.ofInt? (some x) c = _
    rw [RealExpr.ofInt?, RealExpr.castInt, hc.isSymbolic_int, hx]
    rfl

/-- **The normal form of built expressions.**  Of every expression that the builders make from
constants and inputs, each node without inputs is a constant, each node is folded, and building the
expression again from its leaves gives the same expression. -/
theorem normal_of_built {e : Expr} (h : e.Built) :
    (∀ s ∈ e.nodes, (s.Ground ↔ s.kind.isConstant = true) ∧ s.Folded) ∧ e.rebuild = .ok e := by
  have hcan := h.canonical
  refine ⟨fun s hs => ⟨?_, (hcan s hs).1⟩, hcan.rebuild⟩
  rw [ground_iff, (hcan.of_mem hs).isSymbolic]
  simp

/-- The comparison of `(x + 5) - 3` with a real, after its constants were gathered. -/
def gathered : Expr :=
  .int (.compareReal (.ofInt (.binary (.const 2) .add (.var ⟨"x", 7, -10, 10⟩) 9) Double.two)
    (.const Double.one) 1)

theorem built_gathered : gathered.Built := by
  have hx : Built (.int (.var ⟨"x", 7, -10, 10⟩)) :=
    .intInput (show IntExpr.input? "x" 7 (-10) 10 = _ from rfl)
  have hsum := Built.intBinary hx (.intConst 5) (show IntExpr.binary? _ .add _ 12 = _ from rfl)
  have hback := Built.intBinary hsum (.intConst (-3))
    (show IntExpr.binary? _ .add _ 9 = _ from rfl)
  have hreal := Built.ofInt hback (show RealExpr.ofInt? _ Double.two = _ from rfl)
  exact .compareReal hreal (.realConst Double.one)
    (show IntExpr.compareReal? _ _ 1 = _ from rfl)

theorem gathered_normal : gathered.Built ∧
    (∀ s ∈ gathered.nodes, (s.Ground ↔ s.kind.isConstant = true) ∧ s.Folded) ∧
    gathered.rebuild = .ok gathered :=
  ⟨built_gathered, normal_of_built built_gathered⟩

end Expr

end Concolic
