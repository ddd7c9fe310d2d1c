import Concolic.Proofs.Normal
import Concolic.Proofs.Reports
import Mathlib.Data.List.Forall2

/-
# Constraints that settle an outcome

An instruction has an outcome that depends on some integer operands: a target, a fault.  What it
reports relates these operands to each other and to constants, and constraints without inputs are
dropped.  The reports should say as much about other runs as matters: on other values of the
operands they hold exactly if the outcome stays the same (`Settle`).

Values are mathematical integers, and they are given by position, so two operands may have different
values even if they are the same expression.  An operand without inputs has the same value on all
runs; that is why constraints without inputs can be dropped (`forall_filter_iff`).
-/
namespace Concolic

/-! ## 1. Relations on integers -/

namespace Relation

/-- The relation on mathematical integers. -/
def Relates : Relation → Int → Int → Prop
  | eq, a, b => a = b
  | ne, a, b => a ≠ b
  | lt, a, b => a < b
  | le, a, b => a ≤ b
  | gt, a, b => b < a
  | ge, a, b => b ≤ a

instance : (ρ : Relation) → (a b : Int) → Decidable (ρ.Relates a b)
  | eq, a, b => inferInstanceAs (Decidable (a = b))
  | ne, a, b => inferInstanceAs (Decidable (a ≠ b))
  | lt, a, b => inferInstanceAs (Decidable (a < b))
  | le, a, b => inferInstanceAs (Decidable (a ≤ b))
  | gt, a, b => inferInstanceAs (Decidable (b < a))
  | ge, a, b => inferInstanceAs (Decidable (b ≤ a))

theorem holds_iff (ρ : Relation) (a b : Int64) :
    ρ.holds a b = true ↔ ρ.Relates a.toInt b.toInt := by
  cases ρ <;> simp [holds, Relates, Int64.lt_iff_toInt_lt, Int64.le_iff_toInt_le, ← Int64.toInt_inj]

theorem relates_negate (ρ : Relation) (a b : Int) : ρ.negate.Relates a b ↔ ¬ ρ.Relates a b := by
  cases ρ <;> simp [negate, Relates]

end Relation

/-! ## 2. Tests -/

/-- What stands on one side of a test: an operand, by its position, or a constant. -/
inductive Side
  | operand (i : Nat)
  | const (k : Int64)
deriving DecidableEq, Repr

/-- The expression on a side. -/
def Side.expr (es : List IntExpr) : Side → IntExpr
  | operand i => es.getD i (.const 0)
  | const k => .const k

/-- The value of a side. -/
def Side.value (vs : List Int) : Side → Int
  | operand i => vs.getD i 0
  | const k => k.toInt

/-- A relation between operands or constants. -/
structure Test where
  left : Side
  relation : Relation
  right : Side
deriving DecidableEq, Repr

/-- The constraint that states the test of the operands `es`. -/
def Test.constraint (es : List IntExpr) (t : Test) : Constraint :=
  .relate (t.left.expr es) t.relation (t.right.expr es)

/-- The test holds if the operands have the values `vs`. -/
def Test.Holds (vs : List Int) (t : Test) : Prop :=
  t.relation.Relates (t.left.value vs) (t.right.value vs)

/-- The values of operands on this run. -/
def actual (es : List IntExpr) : List Int := es.map fun e => e.concrete.toInt

/-- Values of the operands on another run: those without inputs have the values of this one. -/
def Possible (es : List IntExpr) (vs : List Int) : Prop :=
  List.Forall₂ (fun e v => e.isSymbolic = false → v = e.concrete.toInt) es vs

theorem possible_actual (es : List IntExpr) : Possible es (actual es) := by
  induction es with
  | nil => exact List.Forall₂.nil
  | cons e es ih => exact List.Forall₂.cons (fun _ => rfl) ih

theorem Side.value_eq {es : List IntExpr} {vs : List Int} (h : Possible es vs) {x : Side}
    (hx : (x.expr es).isSymbolic = false) : x.value vs = x.value (actual es) := by
  cases x with
  | const k => rfl
  | operand i =>
    change vs.getD i 0 = (actual es).getD i 0
    induction h generalizing i with
    | nil => rfl
    | cons hev _ ih =>
      cases i with
      | zero => exact hev hx
      | succ i => exact ih i hx

/-- A test whose constraint is dropped holds on all runs as on this one. -/
theorem Test.holds_iff_of_dropped {es : List IntExpr} {vs : List Int} (h : Possible es vs)
    {t : Test} (ht : (t.constraint es).isSymbolic = false) : t.Holds vs ↔ t.Holds (actual es) := by
  obtain ⟨hl, hr⟩ : (t.left.expr es).isSymbolic = false ∧ (t.right.expr es).isSymbolic = false :=
    Bool.or_eq_false_iff.mp ht
  unfold Test.Holds
  rw [Side.value_eq h hl, Side.value_eq h hr]

/-- The concrete value of a side. -/
theorem Side.toInt_concrete (es : List IntExpr) (x : Side) :
    (x.expr es).concrete.toInt = x.value (actual es) := by
  cases x with
  | const k => rfl
  | operand i =>
    change (es.getD i (.const 0)).concrete.toInt = (es.map _).getD i 0
    rw [List.getD_eq_getElem?_getD, List.getD_eq_getElem?_getD, List.getElem?_map]
    cases es[i]? <;> rfl

/-- What was reported holds of the concrete values exactly if the test does. -/
theorem Test.holds_constraint (es : List IntExpr) (t : Test) :
    (t.constraint es).holds = true ↔ t.Holds (actual es) := by
  change t.relation.holds _ _ = true ↔ _
  rw [Relation.holds_iff, Side.toInt_concrete, Side.toInt_concrete]
  rfl

/-! ## 3. Settled outcomes -/

/-- **The constraints settle the outcome.**  They state tests of `es`, and on the values of another
run these hold exactly if the outcome is that of this run. -/
def Settle (es : List IntExpr) (outcome : List Int → β) (cs : List Constraint) : Prop :=
  ∃ ts : List Test, cs = ts.map (Test.constraint es) ∧
    ∀ vs, Possible es vs → ((∀ t ∈ ts, t.Holds vs) ↔ outcome vs = outcome (actual es))

/-- The constraints enforce the outcome.  They state tests of `es` that hold on this run, and where
they hold the outcome is that of this run. -/
def Enforce (es : List IntExpr) (outcome : List Int → β) (cs : List Constraint) : Prop :=
  ∃ ts : List Test, cs = ts.map (Test.constraint es) ∧ (∀ t ∈ ts, t.Holds (actual es)) ∧
    ∀ vs, Possible es vs → (∀ t ∈ ts, t.Holds vs) → outcome vs = outcome (actual es)

section

variable {es : List IntExpr} {outcome : List Int → β} {ts : List Test}

/-- Of tests that hold on this run, those without inputs can be left out. -/
theorem forall_filter_iff (hactual : ∀ t ∈ ts, t.Holds (actual es)) {vs : List Int}
    (h : Possible es vs) :
    (∀ t ∈ ts.filter fun t => (t.constraint es).isSymbolic, t.Holds vs) ↔ ∀ t ∈ ts, t.Holds vs := by
  refine ⟨fun hkept t ht => ?_, fun hall t ht => hall t (List.mem_filter.mp ht).1⟩
  by_cases hs : (t.constraint es).isSymbolic = true
  · exact hkept t (List.mem_filter.mpr ⟨ht, hs⟩)
  · exact (Test.holds_iff_of_dropped h (eq_false_of_ne_true hs)).mpr (hactual t ht)

theorem filter_constraints (es : List IntExpr) (ts : List Test) :
    (ts.map (Test.constraint es)).filter Constraint.isSymbolic =
      (ts.filter fun t => (t.constraint es).isSymbolic).map (Test.constraint es) :=
  List.filter_map

theorem settle_filter
    (h : ∀ vs, Possible es vs → ((∀ t ∈ ts, t.Holds vs) ↔ outcome vs = outcome (actual es))) :
    Settle es outcome ((ts.map (Test.constraint es)).filter Constraint.isSymbolic) := by
  have hactual : ∀ t ∈ ts, t.Holds (actual es) := (h _ (possible_actual es)).mpr rfl
  refine ⟨_, filter_constraints es ts, fun vs hvs => ?_⟩
  rw [forall_filter_iff hactual hvs]
  exact h vs hvs

theorem enforce_filter (hactual : ∀ t ∈ ts, t.Holds (actual es))
    (h : ∀ vs, Possible es vs → (∀ t ∈ ts, t.Holds vs) → outcome vs = outcome (actual es)) :
    Enforce es outcome ((ts.map (Test.constraint es)).filter Constraint.isSymbolic) := by
  refine ⟨_, filter_constraints es ts, fun t ht => hactual t (List.mem_filter.mp ht).1, ?_⟩
  intro vs hvs hkept
  exact h vs hvs ((forall_filter_iff hactual hvs).mp hkept)

end

/-! ## 4. Reported tests -/

/-- The reports of tests, each by `rep` and only if an input occurs in it. -/
def reportsOf (es : List IntExpr) (rep : Constraint → Report) (ts : List Test) : List Report :=
  ts.flatMap fun t => Machine.ifSymbolic (t.constraint es) (rep (t.constraint es))

theorem reportsOf_singleton (es : List IntExpr) (rep : Constraint → Report) (t : Test) :
    reportsOf es rep [t] = Machine.ifSymbolic (t.constraint es) (rep (t.constraint es)) :=
  List.flatMap_singleton ..

theorem map_constraint_reportsOf (es : List IntExpr) {rep : Constraint → Report}
    (hrep : ∀ c, (rep c).constraint = c) (ts : List Test) :
    (reportsOf es rep ts).map Report.constraint =
      (ts.map (Test.constraint es)).filter Constraint.isSymbolic := by
  induction ts with
  | nil => rfl
  | cons t ts ih =>
    rw [reportsOf, List.flatMap_cons, List.map_append, List.map_cons, List.filter_cons]
    unfold Machine.ifSymbolic
    split
    · rw [List.map_singleton, hrep]
      exact congrArg (_ :: ·) ih
    · exact ih

/-! ## 5. Known stacks -/

/-- The frame on top belongs to the method `μ` and holds the operands `s`, and the heap is `h`. -/
def Core.At (c : Core) (μ : MethodRef) (s : Stack) (h : Heap) : Prop :=
  ∃ f rest, c.frames = f :: rest ∧ f.method = μ ∧ f.stack = s ∧ c.heap = h

/-- Operands that are there belong to a frame. -/
theorem Machine.exists_at {m : Machine} {o : Operand} {s : Stack} (hs : m.operands = o :: s) :
    ∃ μ, m.core.At μ (o :: s) m.heap := by
  cases hf : m.core.frames with
  | nil =>
    rw [operands, Core.operands, hf] at hs
    cases hs
  | cons f rest =>
    exact ⟨f.method, f, rest, hf, rfl, (Core.operands_eq hf).symm.trans hs, rfl⟩

namespace Core.At

variable {c : Core} {μ : MethodRef} {s s' : Stack} {h h' : Heap} {e : IntExpr}

theorem operands_eq (hc : c.At μ s h) : c.operands = s := by
  obtain ⟨f, rest, hf, -, hs, -⟩ := hc
  exact (Core.operands_eq hf).trans hs

theorem heap_eq (hc : c.At μ s h) : c.heap = h := by
  obtain ⟨f, rest, -, -, -, hheap⟩ := hc
  exact hheap

theorem onStack {a : Act Stack α} {x : α} (hc : c.At μ s h) (ha : a s = (.ok x, s')) :
    ∃ c₁ : Core, Tells c (Machine.onStack a) (.ok x) c₁ [] ∧ c₁.At μ s' h := by
  obtain ⟨f, rest, hf, rfl, rfl, rfl⟩ := hc
  have htells := Machine.onStack_tells hf a
  rw [ha] at htells
  exact ⟨_, htells, { f with stack := s' }, rest, rfl, rfl, rfl, rfl⟩

theorem popInt (hc : c.At μ (.bv32 e :: s) h) :
    ∃ c₁ : Core, Tells c (Machine.onStack Stack.popInt) (.ok e) c₁ [] ∧ c₁.At μ s h :=
  hc.onStack rfl

theorem popLong (hc : c.At μ (.bv64 e :: s) h) :
    ∃ c₁ : Core, Tells c (Machine.onStack Stack.popLong) (.ok e) c₁ [] ∧ c₁.At μ s h :=
  hc.onStack rfl

theorem popRef {x : RefExpr} (hc : c.At μ (.ref x :: s) h) :
    ∃ c₁ : Core, Tells c (Machine.onStack Stack.popRef) (.ok x) c₁ [] ∧ c₁.At μ s h :=
  hc.onStack rfl

theorem onHeap {a : Act Heap α} {x : α} (hc : c.At μ s h) (ha : a h = (.ok x, h')) :
    ∃ c₁ : Core, Tells c (Machine.onHeap a) (.ok x) c₁ [] ∧ c₁.At μ s h' := by
  obtain ⟨f, rest, hf, rfl, rfl, rfl⟩ := hc
  have htells := Machine.onHeap_tells (c := c) a
  rw [ha] at htells
  exact ⟨_, htells, f, rest, hf, rfl, rfl, rfl⟩

theorem fault (hc : c.At μ s h) (x : Fault) : Tells c (Machine.fault x) (.ok ()) c [] := by
  obtain ⟨f, rest, hf, -⟩ := hc
  exact Machine.fault_tells hf x

theorem decideBranch (hc : c.At μ s h) (branch : Int) (es : List IntExpr) (t : Test) :
    Tells c (Machine.decideBranch (t.constraint es) branch) (.ok ()) c
      (reportsOf es (.branch · μ.owner μ.name branch) [t]) := by
  obtain ⟨f, rest, hf, rfl, -⟩ := hc
  rw [reportsOf_singleton]
  exact Machine.decideBranch_tells _ _ _ hf branch

end Core.At

end Concolic
