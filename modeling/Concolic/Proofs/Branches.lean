import Concolic.Proofs.Outcomes
import Concolic.Proofs.Stated

/-
# Branches settle their targets

What a conditional jump reports tells where it went.  On other values of its operands the
constraints hold exactly if it would go to the same target.  A table switch is the exception:
outside its range it reports on which side the selector fell, though both sides go to the default.
-/
namespace Concolic

/-! ## 1. Jumps and their targets -/

/-- The conditional jumps and the switches. -/
inductive Jump
  | zero (ρ : Relation)
  | compare (ρ : Relation)
  | table (low high : Int32)
  | lookup (keys : List Int32)
deriving DecidableEq, Repr

/-- Where a jump goes. -/
inductive Target
  | taken
  | next
  | case (v : Int)
  | default
deriving DecidableEq, Repr

namespace Jump

/-- The instruction for the jump with the given number. -/
def instruction (branch : Int) : Jump → Instruction
  | zero ρ => .branchZero ρ branch
  | compare ρ => .branchCompare ρ branch
  | table low high => .tableSwitch branch low high
  | lookup keys => .lookupSwitch branch keys

/-- How many operands it pops. -/
def arity : Jump → Nat
  | compare _ => 2
  | _ => 1

/-- Where a jump goes on operands with the given values, the top first. -/
def target : Jump → List Int → Target
  | zero ρ, [v] => if ρ.Relates v 0 then .taken else .next
  | compare ρ, [r, l] => if ρ.Relates l r then .taken else .next
  | table low high, [v] => if low.toInt ≤ v ∧ v ≤ high.toInt then .case v else .default
  | lookup keys, [v] => if v ∈ keys.map Int32.toInt then .case v else .default
  | _, _ => .default

/-- Whether the jump is a table switch. -/
def isTable : Jump → Bool
  | table .. => true
  | _ => false

/-- Whether the jump is a switch over single keys. -/
def isLookup : Jump → Bool
  | lookup _ => true
  | _ => false

/-- `ρ`, or its negation if it does not hold of the given words. -/
def held (ρ : Relation) (a b : Int64) : Relation := if ρ.holds a b then ρ else ρ.negate

/-- What a jump tests on this run. -/
def tests : Jump → List IntExpr → List Test
  | zero ρ, [e] => [⟨.operand 0, held ρ e.concrete 0, .const 0⟩]
  | compare ρ, [r, l] => [⟨.operand 1, held ρ l.concrete r.concrete, .operand 0⟩]
  | table low high, [e] =>
    if e.concrete < low.toInt64 then [⟨.operand 0, .lt, .const low.toInt64⟩]
    else if high.toInt64 < e.concrete then [⟨.operand 0, .gt, .const high.toInt64⟩]
    else [⟨.operand 0, .eq, .const e.concrete⟩]
  | lookup keys, [e] =>
    if keys.any fun k => k.toInt64 = e.concrete then [⟨.operand 0, .eq, .const e.concrete⟩]
    else keys.map fun k => ⟨.operand 0, .ne, .const k.toInt64⟩
  | _, _ => []

end Jump

/-! ## 2. What jumps report -/

theorem excludeKeys_tests {c : Core} {μ : MethodRef} {s : Stack} {h : Heap} (hc : c.At μ s h)
    (branch : Int) (e : IntExpr) (keys : List Int32) :
    Tells c (Machine.excludeKeys branch e keys) (.ok ()) c
      (reportsOf [e] (.branch · μ.owner μ.name branch)
        (keys.map fun k => ⟨.operand 0, .ne, .const k.toInt64⟩)) := by
  induction keys with
  | nil => exact Tells.pure ()
  | cons k keys ih =>
    have hfirst := hc.decideBranch branch [e] ⟨.operand 0, .ne, .const k.toInt64⟩
    rw [reportsOf_singleton] at hfirst
    exact hfirst.bind ih

theorem Tells.safely {c c' : Core} {a : Act Machine Unit} {reps : List Report}
    (h : Tells c a (.ok ()) c' reps) : Tells c (Instruction.safely a) (.ok false) c' reps :=
  h.bind_pure rfl

/-- **A jump reports its tests.** -/
theorem Jump.exec_tests (j : Jump) (branch : Int) {m : Machine} {es : List IntExpr} {s : Stack}
    (hlen : es.length = j.arity) (hs : m.operands = es.map .bv32 ++ s) :
    ∃ μ : MethodRef, ∃ c', Tells m.core (j.instruction branch).exec (.ok false) c'
      (reportsOf es (.branch · μ.owner μ.name branch) (j.tests es)) := by
  cases j with
  | zero ρ =>
    obtain ⟨e, rfl⟩ := List.length_eq_one_iff.mp hlen
    obtain ⟨μ, hm⟩ := Machine.exists_at hs
    obtain ⟨c, hpop, hc⟩ := hm.popInt
    refine ⟨μ, c, (hpop.silent_bind ?_).safely⟩
    exact hc.decideBranch branch [e] ⟨.operand 0, held ρ e.concrete 0, .const 0⟩
  | compare ρ =>
    obtain ⟨r, l, rfl⟩ := List.length_eq_two.mp hlen
    obtain ⟨μ, hm⟩ := Machine.exists_at hs
    obtain ⟨c₁, hright, hc₁⟩ := hm.popInt
    obtain ⟨c, hleft, hc⟩ := hc₁.popInt
    refine ⟨μ, c, (hright.silent_bind (hleft.silent_bind ?_)).safely⟩
    exact hc.decideBranch branch [r, l] ⟨.operand 1, held ρ l.concrete r.concrete, .operand 0⟩
  | table low high =>
    obtain ⟨e, rfl⟩ := List.length_eq_one_iff.mp hlen
    obtain ⟨μ, hm⟩ := Machine.exists_at hs
    obtain ⟨c, hpop, hc⟩ := hm.popInt
    refine ⟨μ, c, (hpop.silent_bind ?_).safely⟩
    by_cases hlow : e.concrete < low.toInt64
    · simp only [tests, if_pos hlow]
      exact hc.decideBranch branch [e] ⟨.operand 0, .lt, .const low.toInt64⟩
    by_cases hhigh : high.toInt64 < e.concrete
    · simp only [tests, if_neg hlow, if_pos hhigh]
      exact hc.decideBranch branch [e] ⟨.operand 0, .gt, .const high.toInt64⟩
    · simp only [tests, if_neg hlow, if_neg hhigh]
      exact hc.decideBranch branch [e] ⟨.operand 0, .eq, .const e.concrete⟩
  | lookup keys =>
    obtain ⟨e, rfl⟩ := List.length_eq_one_iff.mp hlen
    obtain ⟨μ, hm⟩ := Machine.exists_at hs
    obtain ⟨c, hpop, hc⟩ := hm.popInt
    refine ⟨μ, c, (hpop.silent_bind ?_).safely⟩
    by_cases hkey : (keys.any fun k => k.toInt64 = e.concrete) = true
    · simp only [tests, if_pos hkey]
      exact hc.decideBranch branch [e] ⟨.operand 0, .eq, .const e.concrete⟩
    · simp only [tests, if_neg hkey]
      exact excludeKeys_tests hc branch e keys

/-! ## 3. What the tests say -/

namespace Jump

theorem relates_held (ρ : Relation) (a b : Int64) (x y : Int) :
    (held ρ a b).Relates x y ↔ (ρ.Relates x y ↔ ρ.Relates a.toInt b.toInt) := by
  unfold held
  split
  next h => simp [(ρ.holds_iff a b).mp h]
  next h => simp [ρ.relates_negate, (ρ.holds_iff a b).not.mp h]

theorem ite_eq_ite_iff {p q : Prop} [Decidable p] [Decidable q] {a b : α} (h : a ≠ b) :
    (if p then a else b) = (if q then a else b) ↔ (p ↔ q) := by
  by_cases hp : p <;> by_cases hq : q <;> simp [hp, hq, h, h.symm]

/-- A key is the selector exactly if it is its value. -/
theorem any_key_iff {keys : List Int32} {v : Int64} :
    (keys.any fun k => k.toInt64 = v) = true ↔ v.toInt ∈ keys.map Int32.toInt := by
  simp only [List.any_eq_true, decide_eq_true_eq, List.mem_map, ← Int64.toInt_inj,
    Int32.toInt_toInt64]

/-- **The tests of all but table switches hold exactly if the target is the same.** -/
theorem tests_iff {j : Jump} (hj : j.isTable = false) {es : List IntExpr}
    (hlen : es.length = j.arity) {vs : List Int} (hvs : Possible es vs) :
    (∀ t ∈ j.tests es, t.Holds vs) ↔ j.target vs = j.target (actual es) := by
  cases j with
  | zero ρ =>
    obtain ⟨e, rfl⟩ := List.length_eq_one_iff.mp hlen
    obtain ⟨v, rfl⟩ := List.length_eq_one_iff.mp hvs.length_eq.symm
    rw [tests, List.forall_mem_singleton, target, actual, List.map_singleton, target,
      ite_eq_ite_iff (by decide)]
    exact relates_held ρ e.concrete 0 v 0
  | compare ρ =>
    obtain ⟨r, l, rfl⟩ := List.length_eq_two.mp hlen
    obtain ⟨vr, vl, rfl⟩ := List.length_eq_two.mp hvs.length_eq.symm
    rw [tests, List.forall_mem_singleton, target, actual, List.map_cons, List.map_singleton, target,
      ite_eq_ite_iff (by decide)]
    exact relates_held ρ l.concrete r.concrete vl vr
  | table low high => cases hj
  | lookup keys =>
    obtain ⟨e, rfl⟩ := List.length_eq_one_iff.mp hlen
    obtain ⟨v, rfl⟩ := List.length_eq_one_iff.mp hvs.length_eq.symm
    rw [tests, target, actual, List.map_singleton, target]
    by_cases hkey : (keys.any fun k => k.toInt64 = e.concrete) = true
    · rw [if_pos hkey, if_pos (any_key_iff.mp hkey), List.forall_mem_singleton]
      change v = e.concrete.toInt ↔ _
      refine ⟨fun h => ?_, fun h => ?_⟩
      · subst h
        exact if_pos (any_key_iff.mp hkey)
      · split at h
        · exact Target.case.inj h
        · cases h
    · rw [if_neg hkey, if_neg (any_key_iff.not.mp hkey), List.forall_mem_map]
      have hne : (∀ k ∈ keys, v ≠ k.toInt64.toInt) ↔ v ∉ keys.map Int32.toInt := by
        simp only [Int32.toInt_toInt64, List.mem_map, not_exists, not_and, eq_comm, ne_eq]
      refine hne.trans ⟨fun h => if_neg h, fun h hmem => ?_⟩
      rw [if_pos hmem] at h
      cases h

/-- The tests of a table switch hold on this run. -/
theorem table_tests_actual (low high : Int32) (e : IntExpr) :
    ∀ t ∈ (table low high).tests [e], t.Holds (actual [e]) := by
  rw [tests]
  split
  next hlow => exact List.forall_mem_singleton.mpr (Int64.lt_iff_toInt_lt.mp hlow)
  · split
    next hhigh => exact List.forall_mem_singleton.mpr (Int64.lt_iff_toInt_lt.mp hhigh)
    · exact List.forall_mem_singleton.mpr rfl

/-- Where the tests of a table switch hold, the target is the same. -/
theorem table_target_eq (low high : Int32) {e : IntExpr} {v : Int}
    (h : ∀ t ∈ (table low high).tests [e], t.Holds [v]) :
    (table low high).target [v] = (table low high).target (actual [e]) := by
  have hlow : e.concrete < low.toInt64 ↔ e.concrete.toInt < low.toInt := by
    rw [Int64.lt_iff_toInt_lt, Int32.toInt_toInt64]
  have hhigh : high.toInt64 < e.concrete ↔ high.toInt < e.concrete.toInt := by
    rw [Int64.lt_iff_toInt_lt, Int32.toInt_toInt64]
  rw [target, actual, List.map_singleton, target]
  rw [tests] at h
  split at h
  next hl =>
    have hv : v < low.toInt64.toInt := h _ List.mem_cons_self
    rw [Int32.toInt_toInt64] at hv
    have hl' := hlow.mp hl
    rw [if_neg (by omega), if_neg (by omega)]
  · split at h
    next hh =>
      have hv : high.toInt64.toInt < v := h _ List.mem_cons_self
      rw [Int32.toInt_toInt64] at hv
      have hh' := hhigh.mp hh
      rw [if_neg (by omega), if_neg (by omega)]
    · have hv : v = e.concrete.toInt := h _ List.mem_cons_self
      rw [hv]

/-- Of every jump, the tests hold on this run and enforce its target. -/
theorem tests_enforce (j : Jump) {es : List IntExpr} (hlen : es.length = j.arity) :
    (∀ t ∈ j.tests es, t.Holds (actual es)) ∧
      ∀ vs, Possible es vs → (∀ t ∈ j.tests es, t.Holds vs) →
        j.target vs = j.target (actual es) := by
  cases hj : j.isTable with
  | false =>
    refine ⟨(tests_iff hj hlen (possible_actual es)).mpr rfl, fun vs hvs => ?_⟩
    exact (tests_iff hj hlen hvs).mp
  | true =>
    cases j with
    | table low high =>
      obtain ⟨e, rfl⟩ := List.length_eq_one_iff.mp hlen
      refine ⟨table_tests_actual low high e, fun vs hvs h => ?_⟩
      obtain ⟨v, rfl⟩ := List.length_eq_one_iff.mp hvs.length_eq.symm
      exact table_target_eq low high h
    | _ => cases hj

end Jump

/-! ## 4. The reports settle the target -/

/-- No input occurs in the operands, so none occurs in a constraint on them. -/
theorem Test.isSymbolic_eq_false {es : List IntExpr} (h : ∀ e ∈ es, e.isSymbolic = false)
    (t : Test) : (t.constraint es).isSymbolic = false := by
  have hside : ∀ x : Side, (x.expr es).isSymbolic = false := by
    intro x
    cases x with
    | const k => rfl
    | operand i =>
      change (es.getD i (.const 0)).isSymbolic = false
      rw [List.getD_eq_getElem?_getD]
      cases hi : es[i]? with
      | none => rfl
      | some e => exact h e (List.mem_of_getElem? hi)
  exact Bool.or_eq_false_iff.mpr ⟨hside t.left, hside t.right⟩

/-- All but the switches over keys make one test, of all their operands. -/
theorem Jump.tests_singleton {j : Jump} (hj : j.isLookup = false) {es : List IntExpr}
    (hlen : es.length = j.arity) (hs : ∃ e ∈ es, e.isSymbolic = true) :
    ∃ t, j.tests es = [t] ∧ (t.constraint es).isSymbolic = true := by
  obtain ⟨x, hx, hsym⟩ := hs
  cases j with
  | zero ρ =>
    obtain ⟨e, rfl⟩ := List.length_eq_one_iff.mp hlen
    cases List.mem_singleton.mp hx
    exact ⟨_, rfl, Bool.or_eq_true_iff.mpr (Or.inl hsym)⟩
  | compare ρ =>
    obtain ⟨r, l, rfl⟩ := List.length_eq_two.mp hlen
    refine ⟨_, rfl, Bool.or_eq_true_iff.mpr ?_⟩
    rcases List.mem_pair.mp hx with rfl | rfl
    · exact Or.inr hsym
    · exact Or.inl hsym
  | table low high =>
    obtain ⟨e, rfl⟩ := List.length_eq_one_iff.mp hlen
    cases List.mem_singleton.mp hx
    rw [tests]
    split
    · exact ⟨_, rfl, Bool.or_eq_true_iff.mpr (Or.inl hsym)⟩
    · split
      · exact ⟨_, rfl, Bool.or_eq_true_iff.mpr (Or.inl hsym)⟩
      · exact ⟨_, rfl, Bool.or_eq_true_iff.mpr (Or.inl hsym)⟩
  | lookup keys => cases hj

/-- **What a jump reports settles its target.**  The operands `es` are the ints that it pops, the
top first.  Every constraint has an input.  On other values of the operands the constraints hold
exactly if the jump goes to the same target; of a table switch they only enforce it.  Without inputs
in the operands nothing is reported, and otherwise all but the switches over keys report one
condition. -/
theorem jump_recorded_settle (j : Jump) (branch : Int) {m : Machine} {es : List IntExpr} {s : Stack}
    (hlen : es.length = j.arity) (hs : m.operands = es.map .bv32 ++ s) :
    (∀ c ∈ (j.instruction branch).recorded m, c.isSymbolic = true) ∧
    (j.isTable = false → Settle es j.target ((j.instruction branch).recorded m)) ∧
    Enforce es j.target ((j.instruction branch).recorded m) ∧
    ((∀ e ∈ es, e.isSymbolic = false) → (j.instruction branch).reports m = []) ∧
    ((∃ e ∈ es, e.isSymbolic = true) → j.isLookup = false →
      ∃ c cls name, (j.instruction branch).reports m = [.branch c cls name branch]) := by
  obtain ⟨μ, c', htells⟩ := j.exec_tests branch hlen hs
  have hreports := Instruction.reports_eq htells
  have hrecorded : (j.instruction branch).recorded m =
      ((j.tests es).map (Test.constraint es)).filter Constraint.isSymbolic := by
    rw [Instruction.recorded, hreports, map_constraint_reportsOf es fun _ => rfl]
  rw [hrecorded, hreports]
  refine ⟨fun c hc => (List.mem_filter.mp hc).2, fun hj => ?_, ?_, fun hnone => ?_,
    fun hsome hj => ?_⟩
  · exact settle_filter fun vs hvs => Jump.tests_iff hj hlen hvs
  · exact enforce_filter (j.tests_enforce hlen).1 (j.tests_enforce hlen).2
  · refine List.flatMap_eq_nil_iff.mpr fun t _ => if_neg ?_
    rw [Test.isSymbolic_eq_false hnone t]
    exact Bool.false_ne_true
  · obtain ⟨t, ht, hsym⟩ := Jump.tests_singleton hj hlen hsome
    rw [ht, reportsOf_singleton, Machine.ifSymbolic, if_pos hsym]
    exact ⟨_, _, _, rfl⟩

/-- An int input with the value 3. -/
def selector : IntExpr := .var ⟨"x", 3, -2147483648, 2147483647⟩

/-- A machine with the input on top of the stack. -/
def atSelector : Machine :=
  { Machine.recording none with
    frames := [⟨⟨"A", "f", "(I)V"⟩, [.bv32 selector], ⟨[]⟩, false⟩] }

/-- A switch that goes to the default, with a key that stands twice. -/
theorem lookup_recorded_settle :
    [selector].length = (Jump.lookup [1, 7, 7]).arity ∧
    atSelector.operands = [selector].map .bv32 ++ [] ∧
    (∀ c ∈ ((Jump.lookup [1, 7, 7]).instruction 0).recorded atSelector, c.isSymbolic = true) ∧
    ((Jump.lookup [1, 7, 7]).isTable = false → Settle [selector] (Jump.lookup [1, 7, 7]).target
      (((Jump.lookup [1, 7, 7]).instruction 0).recorded atSelector)) ∧
    Enforce [selector] (Jump.lookup [1, 7, 7]).target
      (((Jump.lookup [1, 7, 7]).instruction 0).recorded atSelector) ∧
    ((∀ e ∈ [selector], e.isSymbolic = false) →
      ((Jump.lookup [1, 7, 7]).instruction 0).reports atSelector = []) ∧
    ((∃ e ∈ [selector], e.isSymbolic = true) → (Jump.lookup [1, 7, 7]).isLookup = false →
      ∃ c cls name, ((Jump.lookup [1, 7, 7]).instruction 0).reports atSelector =
        [.branch c cls name 0]) :=
  ⟨rfl, rfl, jump_recorded_settle (.lookup [1, 7, 7]) 0 (s := []) rfl rfl⟩

/-- It reports that the input is none of the keys, once for each key in the list. -/
example : ((Jump.lookup [1, 7, 7]).instruction 0).recorded atSelector =
    [.relate selector .ne (.const 1), .relate selector .ne (.const 7),
      .relate selector .ne (.const 7)] := by
  decide

end Concolic
