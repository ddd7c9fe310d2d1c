import Concolic.Machine.Instruction

/-
# What an action reports

The machine never looks at its collector or its log, it only adds to them.  So the effect of an
action has two parts: what it does to the rest of the machine, its core, and the list of reports
that it makes.  `Tells c a res c' reps` says that the action `a`, started in the core `c`, gives
`res`, leaves the core `c'` and makes the reports `reps`, whatever collector listens.

No collector refuses a relation between integers, and the machine reports nothing else.
-/
namespace Concolic

/-! ## 1. Normal forms -/

/-- The comparator is one of the six relations. -/
def Constraint.Valid (c : Constraint) : Prop := ∃ ρ, c.comparator = .rel ρ

theorem IntExpr.direct_ok (e : IntExpr) (cmp : Comparator) (c : Constraint) :
    ∃ d, (e.direct (.ok cmp)).getD (.ok c) = .ok d := by
  unfold direct
  split
  · exact ⟨_, rfl⟩
  · exact ⟨_, rfl⟩
  · exact ⟨c, rfl⟩

/-- Only an unknown comparator stands in the way of a normal form. -/
theorem Constraint.normalize_of_valid {c : Constraint} (h : c.Valid) :
    ∃ d, c.normalize = .ok d := by
  obtain ⟨ρ, hρ⟩ := h
  unfold normalize
  split
  next lhs cmp k =>
    cases (show cmp = .rel ρ from hρ)
    exact lhs.direct_ok _ _
  next k cmp rhs _ =>
    cases (show cmp = .rel ρ from hρ)
    exact rhs.direct_ok _ _
  · exact ⟨c, rfl⟩

theorem Constraint.valid_relate (l : IntExpr) (ρ : Relation) (r : IntExpr) :
    (relate l ρ r).Valid := ⟨ρ, rfl⟩

/-- A relation of integers has a normal form. -/
theorem Constraint.normalize_relate (l : IntExpr) (ρ : Relation) (r : IntExpr) :
    ∃ d, (relate l ρ r).normalize = .ok d :=
  normalize_of_valid (valid_relate l ρ r)

/-- The constraint that is reported. -/
def Report.constraint : Report → Constraint
  | supporting c => c
  | array c .. => c
  | branch c .. => c

/-- A path condition takes what has a normal form. -/
theorem PathCondition.report_ok {rep : Report} {d : Constraint}
    (h : rep.constraint.normalize = .ok d) (pc : PathCondition) : ∃ p, pc.report rep = .ok p := by
  cases rep <;> simp only [Report.constraint] at h <;> simp only [report, h] <;> exact ⟨_, rfl⟩

/-- A report that is taken holds its normal form back or decides with it. -/
theorem PathCondition.report_cases {pc pc' : PathCondition} {rep : Report} {o : Option Condition}
    (h : pc.report rep = .ok (pc', o)) :
    ∃ n, rep.constraint.normalize = .ok n ∧
      (pc' = pc.support n ∨ ∃ d : Condition, d.constraint = n ∧ pc' = pc.decide d) := by
  cases rep with
  | supporting c =>
    cases hc : c.normalize <;> rw [report, hc] at h <;> cases h
    exact ⟨_, hc, Or.inl rfl⟩
  | array c cls m negated | branch c cls m n =>
    cases hc : c.normalize <;> rw [report, hc] at h <;> cases h
    exact ⟨_, hc, Or.inr ⟨_, rfl, rfl⟩⟩

namespace Collector

theorem report_ok {rep : Report} {d : Constraint} (h : rep.constraint.normalize = .ok d)
    (k : Collector) : ∃ k' o, k.report rep = .ok (k', o) := by
  cases k with
  | calls rs => exact ⟨_, _, rfl⟩
  | path pc =>
    obtain ⟨p, hp⟩ := PathCondition.report_ok h pc
    exact ⟨.path p.1, p.2, by rw [report, hp]; rfl⟩

/-- The collector after a report. -/
def feed (k : Collector) (rep : Report) : Collector :=
  match k.report rep with
  | .ok (k', _) => k'
  | .error _ => k

/-- The collector after reports. -/
def feedAll (k : Collector) (reps : List Report) : Collector := reps.foldl feed k

@[simp] theorem feedAll_nil (k : Collector) : k.feedAll [] = k := rfl

@[simp] theorem feedAll_append (k : Collector) (reps reps' : List Report) :
    k.feedAll (reps ++ reps') = (k.feedAll reps).feedAll reps' :=
  List.foldl_append

/-- The other collector lists what it is told. -/
theorem feedAll_calls (rs reps : List Report) : (calls rs).feedAll reps = calls (rs ++ reps) := by
  induction reps generalizing rs with
  | nil => rw [List.append_nil, feedAll_nil]
  | cons rep reps ih =>
    change (calls (rs ++ [rep])).feedAll reps = _
    rw [ih, List.append_assoc]
    rfl

end Collector

/-! ## 2. Cores -/

/-- A machine without its collector and its log. -/
structure Core where
  frames : List Frame
  prepared : List String
  heap : Heap
  classes : Option ClassResolver

def Machine.core (m : Machine) : Core := ⟨m.frames, m.prepared, m.heap, m.classes⟩

/-- The machine with a given core, collector and log. -/
def Core.machine (c : Core) (k : Collector) (log : List Event) : Machine :=
  ⟨c.frames, c.prepared, c.heap, k, log, c.classes⟩

/-- The operands of the frame on top. -/
def Core.operands (c : Core) : Stack := (c.frames.head?.map Frame.stack).getD []

def Machine.operands (m : Machine) : Stack := m.core.operands

theorem Core.operands_eq {c : Core} {f : Frame} {rest : List Frame} (h : c.frames = f :: rest) :
    c.operands = f.stack := by
  rw [operands, h]
  rfl

theorem Machine.machine_core (m : Machine) : m.core.machine m.collector m.log = m := rfl

/-- Started in the core `c`, the action gives `res`, leaves the core `c'` and makes the reports
`reps`. -/
def Tells (c : Core) (a : Act Machine α) (res : Except Failure α) (c' : Core)
    (reps : List Report) : Prop :=
  ∀ k log, ∃ log', a (c.machine k log) = (res, c'.machine (k.feedAll reps) log')

namespace Tells

variable {c c₁ c₂ : Core} {a : Act Machine α} {g : α → Act Machine β} {reps reps' : List Report}

theorem pure (x : α) : Tells c (Pure.pure x) (.ok x) c [] :=
  fun _ log => ⟨log, rfl⟩

theorem fail (e : Failure) : Tells c (Act.fail e : Act Machine α) (.error e) c [] :=
  fun _ log => ⟨log, rfl⟩

theorem bind {x : α} {res : Except Failure β} (ha : Tells c a (.ok x) c₁ reps)
    (hg : Tells c₁ (g x) res c₂ reps') : Tells c (a >>= g) res c₂ (reps ++ reps') := by
  intro k log
  obtain ⟨log₁, ha⟩ := ha k log
  obtain ⟨log₂, hg⟩ := hg (k.feedAll reps) log₁
  refine ⟨log₂, ?_⟩
  rw [Act.bind_apply, ha, Collector.feedAll_append]
  exact hg

theorem bind_error {e : Failure} (ha : Tells c a (.error e) c₁ reps) :
    Tells c (a >>= g) (.error e) c₁ reps := by
  intro k log
  obtain ⟨log₁, ha⟩ := ha k log
  refine ⟨log₁, ?_⟩
  rw [Act.bind_apply, ha]

/-- After an action that reports nothing. -/
theorem silent_bind {x : α} {res : Except Failure β} (ha : Tells c a (.ok x) c₁ [])
    (hg : Tells c₁ (g x) res c₂ reps) : Tells c (a >>= g) res c₂ reps :=
  ha.bind hg

/-- Before an answer that is known. -/
theorem bind_pure {x : α} {y : β} (ha : Tells c a (.ok x) c₁ reps)
    (hy : g x = Pure.pure y) : Tells c (a >>= g) (.ok y) c₁ reps := by
  have h := ha.bind (hy ▸ Tells.pure y : Tells c₁ (g x) (.ok y) c₁ [])
  rwa [List.append_nil] at h

theorem ensure {b : Bool} (hb : b = true) (v : Violation) :
    Tells c (Act.ensure b v) (.ok ()) c [] := by
  rw [hb]
  exact pure ()

/-- An action that looks at the machine, but not at its collector and its log. -/
theorem get_bind {g : Machine → Act Machine β} {res : Except Failure β}
    (hcore : ∀ (m : Machine) k log, g (m.core.machine k log) = g m)
    (hg : Tells c (g (c.machine (.calls []) [])) res c₁ reps) :
    Tells c (get >>= g) res c₁ reps := by
  intro k log
  have hrun : (get >>= g) (c.machine k log) = g (c.machine (.calls []) []) (c.machine k log) :=
    congrFun (hcore (c.machine (.calls []) []) k log) _
  rw [hrun]
  exact hg k log

end Tells

/-! ## 3. Small actions -/

namespace Machine

variable {c : Core} {f : Frame} {rest : List Frame}

theorem tell_tells (e : Event) : Tells c (tell e) (.ok ()) c [] :=
  fun _ log => ⟨e :: log, rfl⟩

theorem topFrame_tells (h : c.frames = f :: rest) : Tells c topFrame (.ok f) c [] := by
  obtain ⟨frames, prepared, heap, classes⟩ := c
  subst h
  exact fun _ log => ⟨log, rfl⟩

theorem onStack_tells (h : c.frames = f :: rest) (a : Act Stack α) :
    Tells c (onStack a) (a f.stack).1
      { c with frames := { f with stack := (a f.stack).2 } :: rest } [] := by
  obtain ⟨frames, prepared, heap, classes⟩ := c
  subst h
  exact fun _ log => ⟨log, rfl⟩

theorem onLocals_tells (h : c.frames = f :: rest) (a : Act Locals α) :
    Tells c (onLocals a) (a f.locals).1
      { c with frames := { f with locals := (a f.locals).2 } :: rest } [] := by
  obtain ⟨frames, prepared, heap, classes⟩ := c
  subst h
  exact fun _ log => ⟨log, rfl⟩

theorem onTop_tells_nil (h : c.frames = []) (a : Act Frame α) :
    Tells c (onTop a) (.error (.violation .noFrame)) c [] := by
  obtain ⟨frames, prepared, heap, classes⟩ := c
  subst h
  exact fun _ log => ⟨log, rfl⟩

theorem onHeap_tells (a : Act Heap α) :
    Tells c (onHeap a) (a c.heap).1 { c with heap := (a c.heap).2 } [] :=
  fun _ log => ⟨log, rfl⟩

theorem fault_tells (h : c.frames = f :: rest) (x : Fault) : Tells c (fault x) (.ok ()) c [] :=
  (topFrame_tells h).silent_bind (tell_tells _)

theorem report_tells {rep : Report} {d : Constraint} (h : rep.constraint.normalize = .ok d) :
    Tells c (report rep) (.ok ()) c [rep] := by
  intro k log
  obtain ⟨k', o, hk⟩ := k.report_ok h
  have hreport : (c.machine k log).collector.report rep = .ok (k', o) := hk
  have hfeed : k.feedAll [rep] = k' := by
    change k.feed rep = k'
    rw [Collector.feed, hk]
  rw [report, Act.get_bind_apply, hreport, hfeed]
  cases o with
  | none => exact ⟨log, rfl⟩
  | some d => exact ⟨.condition d :: log, rfl⟩

/-- What is reported of a constraint: nothing if no input occurs in it. -/
def ifSymbolic (d : Constraint) (rep : Report) : List Report := if d.isSymbolic then [rep] else []

section

variable (l : IntExpr) (ρ : Relation) (r : IntExpr)

theorem support_tells :
    Tells c (support (.relate l ρ r)) (.ok ()) c
      (ifSymbolic (.relate l ρ r) (.supporting (.relate l ρ r))) := by
  obtain ⟨d, hd⟩ := Constraint.normalize_relate l ρ r
  unfold support ifSymbolic
  split
  · exact report_tells hd
  · exact Tells.pure ()

theorem decideAccess_tells (h : c.frames = f :: rest) (negated : Bool) :
    Tells c (decideAccess (.relate l ρ r) negated) (.ok ()) c
      (ifSymbolic (.relate l ρ r)
        (.array (.relate l ρ r) f.method.owner f.method.name negated)) := by
  obtain ⟨d, hd⟩ := Constraint.normalize_relate l ρ r
  unfold decideAccess ifSymbolic
  split
  · exact (topFrame_tells h).silent_bind (report_tells hd)
  · exact Tells.pure ()

theorem decideBranch_tells (h : c.frames = f :: rest) (branch : Int) :
    Tells c (decideBranch (.relate l ρ r) branch) (.ok ()) c
      (ifSymbolic (.relate l ρ r)
        (.branch (.relate l ρ r) f.method.owner f.method.name branch)) := by
  obtain ⟨d, hd⟩ := Constraint.normalize_relate l ρ r
  unfold decideBranch ifSymbolic
  split
  · exact (topFrame_tells h).silent_bind (report_tells hd)
  · exact Tells.pure ()

end

/-- A division tells whether its divisor is zero. -/
theorem zeroDivisor_tells (h : c.frames = f :: rest) (e : IntExpr) (isZero : Bool) :
    Tells c (zeroDivisor e isZero) (.ok isZero) c
      (ifSymbolic (.relate e (if isZero then .eq else .ne) (.const 0))
        (.supporting (.relate e (if isZero then .eq else .ne) (.const 0)))) := by
  have hs := support_tells (c := c) e (if isZero then .eq else .ne) (.const 0)
  cases isZero with
  | true =>
    have htail : Tells c (fault .divisionByZero >>= fun _ => Pure.pure true) (.ok true) c [] :=
      (fault_tells h _).silent_bind (Tells.pure true)
    have hall := hs.bind (g := fun _ => fault .divisionByZero >>= fun _ => Pure.pure true) htail
    rwa [List.append_nil] at hall
  | false => exact hs.bind_pure rfl

end Machine

namespace Instruction

/-! ## 4. Instructions -/

/-- What an instruction reports in a machine. -/
def reports (i : Instruction) (m : Machine) : List Report :=
  match (i.exec { m with collector := .calls [] }).2.collector with
  | .calls rs => rs
  | .path _ => []

theorem reports_eq {i : Instruction} {m : Machine} {res : Except Failure Bool}
    {c : Core} {reps : List Report} (h : Tells m.core i.exec res c reps) : i.reports m = reps := by
  obtain ⟨log', hrun⟩ := h (.calls []) m.log
  have hexec : i.exec { m with collector := .calls [] } = _ := hrun
  rw [reports, hexec]
  simp only [Core.machine, Collector.feedAll_calls, List.nil_append]

/-- The constraints that an instruction reports. -/
def recorded (i : Instruction) (m : Machine) : List Constraint :=
  (i.reports m).map Report.constraint

/-- The operands that an instruction tests by a number that the host saw in their place: how far
beneath the top they stand, and that number. -/
def tested : Instruction → List (Nat × Int64)
  | intDivide _ d => [(0, d.toInt64)]
  | longDivide _ d => [(0, d)]
  | newArray n _ => [(0, n.toInt64)]
  | newMultiArray _ dims => dims.reverse.zipIdx.map fun (n, i) => (i, n.toInt64)
  | arrayLoad _ _ n => [(0, n.toInt64)]
  | arrayStore _ _ n => [(1, n.toInt64)]
  | _ => []

/-- The operand with a tested integer.  All but long divisions test ints. -/
def testedWord : Instruction → IntExpr → Operand
  | longDivide .. => .bv64
  | _ => .bv32

/-- The host sees the concrete values of the tested operands. -/
def Sees (i : Instruction) (s : Stack) : Prop :=
  ∀ p ∈ i.tested, ∀ e, s[p.1]? = some (i.testedWord e) → e.concrete = p.2

theorem sees_of_tested_eq_nil {i : Instruction} (h : i.tested = []) (s : Stack) : i.Sees s := by
  intro p hp
  rw [h] at hp
  cases hp

end Instruction

end Concolic
