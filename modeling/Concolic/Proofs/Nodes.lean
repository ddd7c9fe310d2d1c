import Concolic.Expr.Visit

/-
# The nodes of an expression

Integer and real expressions contain each other, so what is true of every expression is proved for
both kinds at once (`Expr.induction`).  The nodes of an expression are what a visit without a limit
lists.  An expression is `Ground` if none of them is an input, which is what `isSymbolic` computes
(`ground_iff`).

The inputs of an expression are collected by a visit that passes over ground parts.  It misses none
(`mem_variables`).
-/
namespace Concolic

namespace Expr

/-! ## 1. Induction -/

/-- Induction on integer and real expressions together; strings and references are leaves. -/
@[induction_eliminator]
theorem induction {P : Expr → Prop} (intConst : ∀ v, P (.int (.const v)))
    (intVar : ∀ x, P (.int (.var x)))
    (intBinary : ∀ l op r c, P (.int l) → P (.int r) → P (.int (.binary l op r c)))
    (intUnary : ∀ op x c, P (.int x) → P (.int (.unary op x c)))
    (compare : ∀ l r c, P (.int l) → P (.int r) → P (.int (.compare l r c)))
    (compareReal : ∀ l r c, P (.real l) → P (.real r) → P (.int (.compareReal l r c)))
    (ofReal : ∀ x c, P (.real x) → P (.int (.ofReal x c)))
    (realConst : ∀ v, P (.real (.const v))) (realVar : ∀ x, P (.real (.var x)))
    (realBinary : ∀ l op r c, P (.real l) → P (.real r) → P (.real (.binary l op r c)))
    (realUnary : ∀ op x c, P (.real x) → P (.real (.unary op x c)))
    (ofInt : ∀ x c, P (.int x) → P (.real (.ofInt x c)))
    (str : ∀ e, P (.str e)) (ref : ∀ e, P (.ref e)) : ∀ e, P e
  | .int e => @IntExpr.rec (fun e => P (.int e)) (fun e => P (.real e)) intConst intVar intBinary
      intUnary compare compareReal ofReal realConst realVar realBinary realUnary ofInt e
  | .real e => @RealExpr.rec (fun e => P (.int e)) (fun e => P (.real e)) intConst intVar intBinary
      intUnary compare compareReal ofReal realConst realVar realBinary realUnary ofInt e
  | .str e => str e
  | .ref e => ref e

/-! ## 2. Nodes -/

/-- All nodes of an expression, parents first. -/
def nodes (e : Expr) : List Expr := e.visit fun _ => true

@[simp] theorem nodes_intConst (v : Int64) : nodes (.int (.const v)) = [.int (.const v)] := rfl

@[simp] theorem nodes_intVar (x : IntVar) : nodes (.int (.var x)) = [.int (.var x)] := rfl

@[simp] theorem nodes_intBinary (l : IntExpr) (op : Operator) (r : IntExpr) (c : Int64) :
    nodes (.int (.binary l op r c)) =
      .int (.binary l op r c) :: (nodes (.int l) ++ nodes (.int r)) := rfl

@[simp] theorem nodes_intUnary (op : Operator) (x : IntExpr) (c : Int64) :
    nodes (.int (.unary op x c)) = .int (.unary op x c) :: nodes (.int x) := rfl

@[simp] theorem nodes_compare (l r : IntExpr) (c : Int64) :
    nodes (.int (.compare l r c)) =
      .int (.compare l r c) :: (nodes (.int l) ++ nodes (.int r)) := rfl

@[simp] theorem nodes_compareReal (l r : RealExpr) (c : Int64) :
    nodes (.int (.compareReal l r c)) =
      .int (.compareReal l r c) :: (nodes (.real l) ++ nodes (.real r)) := rfl

@[simp] theorem nodes_ofReal (x : RealExpr) (c : Int64) :
    nodes (.int (.ofReal x c)) = .int (.ofReal x c) :: nodes (.real x) := rfl

@[simp] theorem nodes_realConst (v : Double) : nodes (.real (.const v)) = [.real (.const v)] := rfl

@[simp] theorem nodes_realVar (x : RealVar) : nodes (.real (.var x)) = [.real (.var x)] := rfl

@[simp] theorem nodes_realBinary (l : RealExpr) (op : Operator) (r : RealExpr) (c : Double) :
    nodes (.real (.binary l op r c)) =
      .real (.binary l op r c) :: (nodes (.real l) ++ nodes (.real r)) := rfl

@[simp] theorem nodes_realUnary (op : Operator) (x : RealExpr) (c : Double) :
    nodes (.real (.unary op x c)) = .real (.unary op x c) :: nodes (.real x) := rfl

@[simp] theorem nodes_ofInt (x : IntExpr) (c : Double) :
    nodes (.real (.ofInt x c)) = .real (.ofInt x c) :: nodes (.int x) := rfl

@[simp] theorem nodes_str (e : StrExpr) : nodes (.str e) = [.str e] := rfl

@[simp] theorem nodes_ref (e : RefExpr) : nodes (.ref e) = [.ref e] := rfl

theorem mem_nodes_self (e : Expr) : e ∈ e.nodes := by
  induction e <;> simp

/-- The nodes of a node are nodes of the whole. -/
theorem mem_nodes_trans {s t e : Expr} (hs : s ∈ t.nodes) (ht : t ∈ e.nodes) : s ∈ e.nodes := by
  induction e with
  | intConst | intVar | realConst | realVar | str | ref =>
    obtain rfl : t = _ := by simpa using ht
    exact hs
  | intBinary l op r c ihl ihr | compare l r c ihl ihr | compareReal l r c ihl ihr
  | realBinary l op r c ihl ihr =>
    simp only [nodes_intBinary, nodes_compare, nodes_compareReal, nodes_realBinary,
      List.mem_cons, List.mem_append] at ht
    rcases ht with rfl | ht | ht
    · exact hs
    · exact List.mem_cons_of_mem _ (List.mem_append_left _ (ihl ht))
    · exact List.mem_cons_of_mem _ (List.mem_append_right _ (ihr ht))
  | intUnary op x c ih | realUnary op x c ih | ofReal x c ih | ofInt x c ih =>
    simp only [nodes_intUnary, nodes_realUnary, nodes_ofReal, nodes_ofInt, List.mem_cons] at ht
    rcases ht with rfl | ht
    · exact hs
    · exact List.mem_cons_of_mem _ (ih ht)

/-! ## 3. Inputs -/

/-- No node is an input. -/
def Ground (e : Expr) : Prop := ∀ s ∈ e.nodes, s.asVariable? = none

theorem ground_iff (e : Expr) : e.Ground ↔ e.isSymbolic = false := by
  unfold Ground
  induction e with
  | intConst | realConst => simp [asVariable?, isSymbolic, IntExpr.isSymbolic, RealExpr.isSymbolic]
  | intVar | realVar => simp [asVariable?, isSymbolic, IntExpr.isSymbolic, RealExpr.isSymbolic]
  | intBinary l op r c ihl ihr | compare l r c ihl ihr | compareReal l r c ihl ihr
  | realBinary l op r c ihl ihr =>
    simp only [nodes_intBinary, nodes_compare, nodes_compareReal, nodes_realBinary,
      List.forall_mem_cons, List.forall_mem_append, ihl, ihr]
    simp [asVariable?, isSymbolic, IntExpr.isSymbolic, RealExpr.isSymbolic]
  | intUnary op x c ih | realUnary op x c ih | ofReal x c ih | ofInt x c ih =>
    simp only [nodes_intUnary, nodes_realUnary, nodes_ofReal, nodes_ofInt,
      List.forall_mem_cons, ih]
    simp [asVariable?, isSymbolic, IntExpr.isSymbolic, RealExpr.isSymbolic]
  | str e => cases e <;> simp [asVariable?, isSymbolic, StrExpr.isSymbolic]
  | ref e => simp [asVariable?, isSymbolic]

theorem asVariable?_eq_some {e : Expr} {x : Variable} : e.asVariable? = some x ↔ e = x.toExpr := by
  constructor
  · intro h
    unfold asVariable? at h
    split at h <;> cases h <;> rfl
  · rintro rfl
    cases x <;> rfl

theorem not_mem_nodes_of_ground {e : Expr} (h : e.Ground) (x : Variable) :
    x.toExpr ∉ e.nodes := by
  intro hx
  have hnone := h _ hx
  rw [asVariable?_eq_some.2 rfl] at hnone
  cases hnone

theorem visit_of_not_symbolic {e : Expr} (h : e.isSymbolic = false) :
    e.visit isSymbolic = [e] := by
  cases e with
  | int e =>
    simp only [visit]
    unfold IntExpr.visit
    simp [h]
  | real e =>
    simp only [visit]
    unfold RealExpr.visit
    simp [h]
  | str e => rfl
  | ref e => rfl

/-- **No input is passed over.**  A visit that stays out of ground parts meets the same inputs as
one that goes everywhere. -/
theorem mem_visit_isSymbolic (x : Variable) (e : Expr) :
    x.toExpr ∈ e.visit isSymbolic ↔ x.toExpr ∈ e.nodes := by
  have hground : ∀ e : Expr, e.isSymbolic = false →
      (x.toExpr ∈ e.visit isSymbolic ↔ x.toExpr ∈ e.nodes) := by
    intro e hs
    have hx := not_mem_nodes_of_ground ((ground_iff e).2 hs) x
    rw [visit_of_not_symbolic hs, List.mem_singleton]
    refine ⟨fun he => ?_, fun h => absurd h hx⟩
    rw [he]
    exact mem_nodes_self e
  induction e with
  | intConst | intVar | realConst | realVar | str | ref => rfl
  | intBinary l op r c ihl ihr | compare l r c ihl ihr | compareReal l r c ihl ihr
  | realBinary l op r c ihl ihr =>
    cases hs : isSymbolic _ with
    | false => exact hground _ hs
    | true =>
      simp only [visit] at ihl ihr
      simp [visit, IntExpr.visit, RealExpr.visit, hs, ihl, ihr]
  | intUnary op y c ih | realUnary op y c ih | ofReal y c ih | ofInt y c ih =>
    cases hs : isSymbolic _ with
    | false => exact hground _ hs
    | true =>
      simp only [visit] at ih
      simp [visit, IntExpr.visit, RealExpr.visit, hs, ih]

/-- The collected inputs are the nodes that are inputs. -/
theorem mem_variables {e : Expr} {x : Variable} : x ∈ e.variables ↔ x.toExpr ∈ e.nodes := by
  rw [← mem_visit_isSymbolic, Expr.variables, List.mem_filterMap]
  simp only [asVariable?_eq_some]
  exact ⟨fun ⟨s, hs, h⟩ => h ▸ hs, fun h => ⟨_, h, rfl⟩⟩

end Expr

end Concolic
