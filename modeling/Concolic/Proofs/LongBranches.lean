import Concolic.Proofs.Branches

/-
# Branches on compared longs

A branch on longs is two instructions.  The comparison leaves -1, 0 or 1, and the branch tests this
int against zero.  Whoever solves the path condition wants to know how the longs are related, so
neither the comparison nor the zero should be left in it.

The relation goes through four hands: the builder of the comparison, the branch that states or
negates its relation, the normal form and the collector.  `longCompare_branchZero` says what comes
out: one condition on the two longs themselves, whose relation holds of other longs exactly if a
branch on them goes the same way.
-/
namespace Concolic

/-! ## 1. The comparison and its normal form -/

theorem IntExpr.settle_of_symbolic {e : IntExpr} (h : e.isSymbolic = true) : e.settle = e := by
  rw [settle, if_pos h]

theorem IntExpr.isConst_eq_false {e : IntExpr} (h : e.isSymbolic = true) : e.isConst = false := by
  cases e with
  | const k => cases h
  | _ => rfl

/-- A comparison with an input in it is not folded. -/
theorem IntExpr.threeWay_of_symbolic {x y : IntExpr}
    (h : x.isSymbolic = true ∨ y.isSymbolic = true) (c : Int64) :
    x.threeWay y c = .compare x.settle y.settle c := by
  have hfold : (x.settle.isConst && y.settle.isConst) = false := by
    rcases h with h | h
    · rw [settle_of_symbolic h, isConst_eq_false h, Bool.false_and]
    · rw [settle_of_symbolic h, isConst_eq_false h, Bool.and_false]
  rw [threeWay, hfold, if_neg Bool.false_ne_true]

theorem Relation.ofThreshold_zero (ρ : Relation) : ρ.ofThreshold 0 = ρ := by
  cases ρ <;> rfl

/-- A relation of a comparison to zero is the same relation of the operands. -/
theorem Constraint.normalize_compare (x y : IntExpr) (c : Int64) (ρ : Relation) :
    (relate (.compare x y c) ρ (.const 0)).normalize = .ok (relate x ρ y) := by
  change Except.ok (relate x (ρ.ofThreshold 0) y) = _
  rw [ρ.ofThreshold_zero]

/-- A path condition takes a branch in its normal form. -/
theorem Collector.feedAll_branch {c d : Constraint} (h : c.normalize = .ok d) (pc : PathCondition)
    (cls name : String) (branch : Int) :
    (path pc).feedAll [.branch c cls name branch] =
      path { pc with
        conditions := pc.conditions ++ [⟨.branch, cls, name, branch, false, d, pc.pending⟩]
        pending := []
        seen := [] } := by
  change (path pc).feed (.branch c cls name branch) = _
  simp only [feed, report, PathCondition.report, h]
  rfl

/-! ## 2. Which way a jump goes -/

/-- The jump would go to `t`, by the values of the ints that it would pop. -/
def Jump.Goes (j : Jump) (m : Machine) (t : Target) : Prop :=
  ∃ es s, es.length = j.arity ∧ m.operands = es.map .bv32 ++ s ∧ t = j.target (actual es)

theorem Jump.holds_held (ρ : Relation) (a b c d : Int64) :
    (held ρ a b).holds c d = true ↔ (ρ.holds c d = true ↔ ρ.holds a b = true) := by
  rw [Relation.holds_iff, Relation.holds_iff, Relation.holds_iff, relates_held]

/-! ## 3. Both instructions -/

/-- What a comparison of longs leaves. -/
def IntExpr.compared (x y : IntExpr) : IntExpr := x.threeWay y (threeWayInt x.concrete y.concrete)

theorem IntExpr.concrete_compared (x y : IntExpr) :
    (x.compared y).concrete = threeWayInt x.concrete y.concrete := by
  rw [compared, threeWay]
  split <;> rfl

section

variable {m : Machine} {f : Frame} {rest : List Frame} {x y : IntExpr} {s : Stack}

theorem longCompare_exec (hf : m.frames = f :: rest) (hs : f.stack = .bv64 y :: .bv64 x :: s) :
    Instruction.longCompare.exec m =
      (.ok false, { m with frames := { f with stack := .bv32 (x.compared y) :: s } :: rest }) := by
  obtain ⟨frames, prepared, heap, collector, log, classes⟩ := m
  obtain ⟨me, st, t, fk⟩ := f
  subst hf
  subst hs
  rfl

/-- A branch on compared longs goes as the longs are related. -/
theorem goes_compared (ρ : Relation) (hf : m.frames = f :: rest)
    (hs : f.stack = .bv32 (x.compared y) :: s) :
    (Jump.zero ρ).Goes m (if ρ.holds x.concrete y.concrete then .taken else .next) := by
  refine ⟨[x.compared y], s, rfl, (Core.operands_eq hf).trans hs, ?_⟩
  have hrelates : ρ.Relates (x.compared y).concrete.toInt 0 ↔
      ρ.holds x.concrete y.concrete = true := by
    rw [x.concrete_compared, ← ρ.holds_threeWayInt]
    exact (ρ.holds_iff _ 0).symm
  simp only [actual, List.map_singleton, Jump.target, hrelates]

theorem branchZero_tells {c : Core} (ρ : Relation) (branch : Int) {e : IntExpr}
    (hf : c.frames = f :: rest) (hs : f.stack = .bv32 e :: s) :
    Tells c (Instruction.branchZero ρ branch).exec (.ok false)
      { c with frames := { f with stack := s } :: rest }
      (Machine.ifSymbolic (.relate e (Jump.held ρ e.concrete 0) (.const 0))
        (.branch (.relate e (Jump.held ρ e.concrete 0) (.const 0)) f.method.owner f.method.name
          branch)) := by
  have hpop := Machine.onStack_tells hf Stack.popInt
  rw [hs] at hpop
  refine (hpop.silent_bind ?_).safely
  exact Machine.decideBranch_tells (f := { f with stack := s }) e (Jump.held ρ e.concrete 0)
    (.const 0) rfl branch

/-- A branch on compared longs is recorded as a relation of the longs. -/
theorem branchZero_compared (ρ : Relation) (branch : Int) {pc : PathCondition}
    (hpc : m.collector = .path pc) (hf : m.frames = f :: rest)
    (hs : f.stack = .bv32 (x.compared y) :: s)
    (hsym : x.isSymbolic = true ∨ y.isSymbolic = true) :
    ∃ m', (Instruction.branchZero ρ branch).exec m = (.ok false, m') ∧
      m'.frames = { f with stack := s } :: rest ∧
      m'.collector = .path { pc with
        conditions := pc.conditions ++ [⟨.branch, f.method.owner, f.method.name, branch, false,
          .relate x.settle (Jump.held ρ x.concrete y.concrete) y.settle, pc.pending⟩]
        pending := []
        seen := [] } := by
  have hcompare : x.compared y = .compare x.settle y.settle (threeWayInt x.concrete y.concrete) :=
    IntExpr.threeWay_of_symbolic hsym _
  have hheld : Jump.held ρ (x.compared y).concrete 0 = Jump.held ρ x.concrete y.concrete := by
    rw [x.concrete_compared, Jump.held, ρ.holds_threeWayInt]
    rfl
  have hstays : (Constraint.relate (x.compared y) (Jump.held ρ x.concrete y.concrete)
      (.const 0)).isSymbolic = true := by
    rw [hcompare]
    refine Bool.or_eq_true_iff.mpr (Or.inl (Bool.or_eq_true_iff.mpr ?_))
    exact hsym.imp (fun h => by rwa [IntExpr.settle_of_symbolic h])
      fun h => by rwa [IntExpr.settle_of_symbolic h]
  have hnormal : (Constraint.relate (x.compared y) (Jump.held ρ x.concrete y.concrete)
      (.const 0)).normalize =
        .ok (.relate x.settle (Jump.held ρ x.concrete y.concrete) y.settle) := by
    rw [hcompare]
    exact Constraint.normalize_compare ..
  have hm : m.core.machine (.path pc) m.log = m := by
    rw [← hpc]
    exact m.machine_core
  obtain ⟨log', hrun⟩ := branchZero_tells (c := m.core) ρ branch hf hs (.path pc) m.log
  rw [hheld, Machine.ifSymbolic, if_pos hstays, Collector.feedAll_branch hnormal, hm] at hrun
  exact ⟨_, hrun, rfl, rfl⟩

/-- **A branch on compared longs records how the longs are related.**  At least one of the longs has
an input.  Exactly one condition is added, on the longs as the comparison takes them, and its
relation holds on this run.  It holds of other longs exactly if they send the branch the same
way. -/
theorem longCompare_branchZero (ρ : Relation) (branch : Int) {pc : PathCondition}
    (hpc : m.collector = .path pc) (hf : m.frames = f :: rest)
    (hs : f.stack = .bv64 y :: .bv64 x :: s)
    (hsym : x.isSymbolic = true ∨ y.isSymbolic = true) :
    ∃ m₁ m₂ σ t,
      Instruction.longCompare.exec m = (.ok false, m₁) ∧
      (Instruction.branchZero ρ branch).exec m₁ = (.ok false, m₂) ∧
      m₂.frames = { f with stack := s } :: rest ∧
      m₂.collector = .path { pc with
        conditions := pc.conditions ++ [⟨.branch, f.method.owner, f.method.name, branch, false,
          .relate x.settle σ y.settle, pc.pending⟩]
        pending := []
        seen := [] } ∧
      σ.holds x.concrete y.concrete = true ∧
      (Jump.zero ρ).Goes m₁ t ∧
      ∀ (n : Machine) (a b : IntExpr) (s' : Stack), n.operands = .bv64 b :: .bv64 a :: s' →
        ∃ n' t', Instruction.longCompare.exec n = (.ok false, n') ∧ (Jump.zero ρ).Goes n' t' ∧
          (σ.holds a.concrete b.concrete = true ↔ t' = t) := by
  obtain ⟨m₂, hbranch, hframes, hcollector⟩ := branchZero_compared ρ branch
    (m := { m with frames := { f with stack := .bv32 (x.compared y) :: s } :: rest })
    hpc rfl rfl hsym
  refine ⟨_, m₂, Jump.held ρ x.concrete y.concrete, _, longCompare_exec hf hs, hbranch, hframes,
    hcollector, (Jump.holds_held ρ _ _ _ _).mpr Iff.rfl, goes_compared ρ rfl rfl, ?_⟩
  intro n a b s' hn
  obtain ⟨-, g, rest', hg, -, hstack, -⟩ := Machine.exists_at hn
  refine ⟨_, _, longCompare_exec hg hstack, goes_compared ρ rfl rfl, ?_⟩
  rw [Jump.holds_held, Jump.ite_eq_ite_iff (by decide)]

end

/-- A long input with the value 5. -/
def comparedInput : IntExpr := .var ⟨"x", 5, Int64.minValue, Int64.maxValue⟩

/-- A machine with the input and the constant 3 on the stack. -/
def atLongs : Machine :=
  { Machine.new none with
    frames := [⟨⟨"A", "f", "(J)V"⟩, [.bv64 (.const 3), .bv64 comparedInput], ⟨[]⟩, false⟩] }

/-- The condition relates the input to the constant. -/
theorem atLongs_branchZero :
    ∃ m₁ m₂ σ,
      Instruction.longCompare.exec atLongs = (.ok false, m₁) ∧
      (Instruction.branchZero .le 0).exec m₁ = (.ok false, m₂) ∧
      m₂.collector = .path
        { conditions := [⟨.branch, "A", "f", 0, false, .relate comparedInput σ (.const 3), []⟩] } ∧
      σ.holds 5 3 = true := by
  obtain ⟨m₁, m₂, σ, -, hcompare, hbranch, -, hpc, hσ, -⟩ :=
    longCompare_branchZero .le 0 (m := atLongs) rfl rfl rfl (Or.inl rfl)
  exact ⟨m₁, m₂, σ, hcompare, hbranch, hpc, hσ⟩

/-- The branch is not taken. -/
example :
    ((Instruction.branchZero .le 0).exec
      (Instruction.longCompare.exec atLongs).2).2.collector.pathCondition.conditions =
    [⟨.branch, "A", "f", 0, false, .relate comparedInput .gt (.const 3), []⟩] := by
  decide

end Concolic
