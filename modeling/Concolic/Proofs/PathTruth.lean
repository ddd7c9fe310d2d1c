import Concolic.Proofs.Normal
import Concolic.Proofs.Seeing
import Concolic.Proofs.Stated

/-
# Whether a path condition is true of its run

A path condition should hold of the values on which the run was made.  Every constraint in it comes
from one that an instruction reported, and what is reported is true as long as the instruction sees
the operands that it tests (`Stated`).  Two things can go wrong on the way.

* The path condition keeps the normal form.  That of a three-way comparison with a threshold goes by
  another threshold, and then it may be false where the constraint was true (`Normal`).
* An int slot may hold a value that is no int, once a field has carried a long into it.  The machine
  then goes by the low half of the value (`Seeing`).

`holds_of_mem_constraints` gives the exact condition for every constraint in the path condition of
every replay.
-/
namespace Concolic

/-! ## 1. Where the constraints of a path condition come from -/

namespace PathCondition

theorem mem_support {pc : PathCondition} {c d : Constraint} (h : d ∈ (pc.support c).constraints) :
    d ∈ pc.constraints ∨ d = c := by
  unfold support at h
  dsimp only at h
  split at h
  · exact Or.inl h
  · rcases List.mem_append.mp h with hcond | hpend
    · exact Or.inl (List.mem_append_left _ hcond)
    · rcases List.mem_append.mp hpend with hold | hnew
      · exact Or.inl (List.mem_append_right _ hold)
      · exact Or.inr (List.mem_singleton.mp hnew)

theorem mem_decide {pc : PathCondition} {c : Condition} {d : Constraint}
    (h : d ∈ (pc.decide c).constraints) : d ∈ pc.constraints ∨ d = c.constraint := by
  unfold decide constraints at h
  rw [List.append_nil, List.flatMap_append, List.mem_append] at h
  rcases h with hold | hnew
  · exact Or.inl (List.mem_append_left _ hold)
  · rw [List.flatMap_singleton] at hnew
    rcases List.mem_append.mp hnew with hpend | hlast
    · exact Or.inl (List.mem_append_right _ hpend)
    · exact Or.inr (List.mem_singleton.mp hlast)

/-- A report adds at most its own normal form. -/
theorem mem_report {pc pc' : PathCondition} {rep : Report} {o : Option Condition}
    (h : pc.report rep = .ok (pc', o)) {d : Constraint} (hd : d ∈ pc'.constraints) :
    d ∈ pc.constraints ∨ rep.constraint.normalize = .ok d := by
  obtain ⟨n, hn, rfl | ⟨c, rfl, rfl⟩⟩ := report_cases h
  · rcases mem_support hd with hold | rfl
    · exact Or.inl hold
    · exact Or.inr hn
  · rcases mem_decide hd with hold | rfl
    · exact Or.inl hold
    · exact Or.inr hn

end PathCondition

/-- A path condition stays one, and it grows by normal forms of what is reported. -/
theorem Collector.feedAll_path (pc : PathCondition) (reps : List Report) :
    ∃ pc', (path pc).feedAll reps = path pc' ∧
      ∀ d ∈ pc'.constraints, d ∈ pc.constraints ∨
        ∃ rep ∈ reps, rep.constraint.normalize = .ok d := by
  induction reps generalizing pc with
  | nil => exact ⟨pc, rfl, fun _ hd => Or.inl hd⟩
  | cons rep reps ih =>
    have hfeed : ∃ pc₁, (path pc).feed rep = path pc₁ ∧
        ∀ d ∈ pc₁.constraints, d ∈ pc.constraints ∨ rep.constraint.normalize = .ok d := by
      cases h : pc.report rep with
      | error e => exact ⟨pc, by simp [feed, report, h, Except.map], fun _ hd => Or.inl hd⟩
      | ok p =>
        refine ⟨p.1, by simp [feed, report, h, Except.map], fun _ hd => ?_⟩
        exact PathCondition.mem_report h hd
    obtain ⟨pc₁, hpc₁, hnew⟩ := hfeed
    obtain ⟨pc', hpc', hrest⟩ := ih pc₁
    refine ⟨pc', ?_, fun d hd => ?_⟩
    · rw [← hpc', ← hpc₁]
      rfl
    · rcases hrest d hd with hold | ⟨rep', hmem, hnorm⟩
      · rcases hnew d hold with hold | hnorm
        · exact Or.inl hold
        · exact Or.inr ⟨rep, List.mem_cons_self, hnorm⟩
      · exact Or.inr ⟨rep', List.mem_cons_of_mem rep hmem, hnorm⟩

/-! ## 2. Reports of an instruction -/

open IntExpr in
/-- **One instruction.**  It keeps comparisons honest, and it adds to the path condition nothing but
normal forms of what it reports. -/
theorem Instruction.exec_adds (i : Instruction) {m : Machine} (hm : m.core.All Honest)
    {pc : PathCondition} (hpc : m.collector = .path pc) :
    (i.exec m).2.core.All Honest ∧ ∃ pc', (i.exec m).2.collector = .path pc' ∧
      ∀ d ∈ pc'.constraints, d ∈ pc.constraints ∨
        ∃ rep ∈ i.reports m, rep.constraint.normalize = .ok d ∧
          Stated Honest (i.Sees m.operands) rep.constraint := by
  obtain ⟨res, c', reps, htells, hc', hstated, -⟩ :=
    Instruction.exec_states (S := i.Sees m.operands) closed_honest i m.core hm id
  obtain ⟨log', hrun⟩ := htells m.collector m.log
  have hexec : i.exec m = (res, c'.machine (m.collector.feedAll reps) log') := hrun
  obtain ⟨pc', hpc', hnew⟩ := Collector.feedAll_path pc reps
  rw [Instruction.reports_eq htells, hexec, hpc, hpc']
  refine ⟨hc', pc', rfl, fun d hd => ?_⟩
  rcases hnew d hd with hold | ⟨rep, hrep, hnorm⟩
  · exact Or.inl hold
  · exact Or.inr ⟨rep, hrep, hnorm, hstated rep hrep⟩

/-! ## 3. Replays -/

namespace Replay

/-- The replay after lines, going on after those that fail. -/
def after (r : Replay) : List String → Replay
  | [] => r
  | line :: ls => (r.exec line).2.after ls

/-- A constraint as it was reported, with the instruction and the operands that it found. -/
structure Reported where
  instruction : Instruction
  operands : Stack
  constraint : Constraint
deriving DecidableEq, Repr

/-- What a line reports. -/
def reportedBy (r : Replay) (line : String) : List Reported :=
  match r.read line with
  | .ok (some (_, s)) => (s.instruction.reports r.machine).map fun rep =>
    ⟨s.instruction, r.machine.operands, rep.constraint⟩
  | _ => []

/-- What lines report. -/
def reported (r : Replay) : List String → List Reported
  | [] => []
  | line :: ls => r.reportedBy line ++ (r.exec line).2.reported ls

/-- A path condition keeps `d` for what was reported, which is true if the tested ints are ints. -/
def Reported.Explains (q : Reported) (d : Constraint) : Prop :=
  q.constraint.normalize = .ok d ∧
    Stated IntExpr.Honest (q.instruction.TestsInts q.operands) q.constraint

/-- What comes of a step.  Its instruction never ends, fails or faults; or it goes through, and then
the store of the step is made, if there is one and its value is of the right kind. -/
inductive Performs (r : Replay) (name line : String) (s : Step) : Reply Error Bool × Replay → Prop
  | endless {m : Machine} : s.instruction.exec r.machine = (.error .endless, m) →
    Performs r name line s (.endless, { r with machine := m })
  | failed {m : Machine} {f : Failure} : s.instruction.exec r.machine = (.error f, m) →
    f ≠ .endless →
    Performs r name line s (.error (.inside name (.failure f)), { r with machine := m })
  | faulted {m : Machine} : s.instruction.exec r.machine = (.ok true, m) →
    Performs r name line s (.ok true, { r with machine := m }.faulted line)
  | done {m : Machine} : s.instruction.exec r.machine = (.ok false, m) → s.store = none →
    Performs r name line s (.ok false, { r with machine := m })
  | stored {m : Machine} {st : HostStore} {v : Value} :
    s.instruction.exec r.machine = (.ok false, m) → s.store = some st →
    st.value.toElem (Host.componentType st.array.type) = .ok v →
    Performs r name line s (.ok false, { r with
      machine := m
      host := r.host.setElem st.array.name st.index.toInt.toNat v })
  | misfit {m : Machine} {st : HostStore} {c : Crash} :
    s.instruction.exec r.machine = (.ok false, m) → s.store = some st →
    st.value.toElem (Host.componentType st.array.type) = .error c →
    Performs r name line s (.error (.inside name (.failure (.crash c))), { r with machine := m })

theorem performs (name line : String) (s : Step) (r : Replay) :
    r.Performs name line s (r.perform name line s) := by
  unfold perform
  rcases hrun : s.instruction.exec r.machine with ⟨f | b, m⟩
  · cases f with
    | endless => exact .endless hrun
    | _ => exact .failed hrun nofun
  cases b with
  | true => exact .faulted hrun
  | false =>
    cases hst : s.store with
    | none => exact .done hrun hst
    | some st =>
      dsimp only
      rw [Replay.stored, HostStore.apply]
      cases hv : st.value.toElem (Host.componentType st.array.type) with
      | error c => exact .misfit hrun hst hv
      | ok v => exact .stored hrun hst hv

/-- A step changes core and collector as its instruction does. -/
theorem perform_machine (name line : String) (s : Step) (r : Replay) :
    (r.perform name line s).2.machine.core = (s.instruction.exec r.machine).2.core ∧
      (r.perform name line s).2.machine.collector = (s.instruction.exec r.machine).2.collector := by
  have h := r.performs name line s
  generalize r.perform name line s = p at h ⊢
  cases h with
  | endless hrun | failed hrun | faulted hrun | done hrun | stored hrun | misfit hrun =>
    rw [hrun]
    exact ⟨rfl, rfl⟩

/-- **One line.**  The invariant is that comparisons are honest. -/
theorem exec_adds {r : Replay} (hr : r.machine.core.All IntExpr.Honest) {pc : PathCondition}
    (hpc : r.machine.collector = .path pc) (line : String) :
    (r.exec line).2.machine.core.All IntExpr.Honest ∧
      ∃ pc', (r.exec line).2.machine.collector = .path pc' ∧
        ∀ d ∈ pc'.constraints, d ∈ pc.constraints ∨ ∃ q ∈ r.reportedBy line, q.Explains d := by
  unfold exec reportedBy
  cases hread : r.read line with
  | error e => exact ⟨hr, pc, hpc, fun _ hd => Or.inl hd⟩
  | ok o =>
    cases o with
    | none => exact ⟨hr, pc, hpc, fun _ hd => Or.inl hd⟩
    | some p =>
      obtain ⟨name, s⟩ := p
      obtain ⟨hcore, hcollector⟩ := r.perform_machine name line s
      obtain ⟨hm, pc', hpc', hnew⟩ := s.instruction.exec_adds hr hpc
      dsimp only
      rw [hcore, hcollector]
      refine ⟨hm, pc', hpc', fun d hd => ?_⟩
      rcases hnew d hd with hold | ⟨rep, hrep, hnorm, l, ρ, rhs, hc, hl, hrhs, htrue⟩
      · exact Or.inl hold
      · refine Or.inr ⟨_, List.mem_map_of_mem hrep, hnorm, l, ρ, rhs, hc, hl, hrhs, fun hints => ?_⟩
        exact htrue (read_sees hread hints)

/-- **All lines.** -/
theorem after_adds {r : Replay} (hr : r.machine.core.All IntExpr.Honest) {pc : PathCondition}
    (hpc : r.machine.collector = .path pc) (ls : List String) :
    ∃ pc', (r.after ls).machine.collector = .path pc' ∧
      ∀ d ∈ pc'.constraints, d ∈ pc.constraints ∨ ∃ q ∈ r.reported ls, q.Explains d := by
  induction ls generalizing r pc with
  | nil => exact ⟨pc, hpc, fun _ hd => Or.inl hd⟩
  | cons line ls ih =>
    obtain ⟨hr', pc₁, hpc₁, hnew⟩ := exec_adds hr hpc line
    obtain ⟨pc', hpc', hrest⟩ := ih hr' hpc₁
    refine ⟨pc', hpc', fun d hd => ?_⟩
    rcases hrest d hd with hold | ⟨q, hq, hex⟩
    · rcases hnew d hold with hold | ⟨q, hq, hex⟩
      · exact Or.inl hold
      · exact Or.inr ⟨q, List.mem_append_left _ hq, hex⟩
    · exact Or.inr ⟨q, List.mem_append_right _ hq, hex⟩

/-- What is kept holds exactly if what was reported holds with the threshold that is read. -/
theorem Reported.Explains.holds {q : Reported} {l : IntExpr} {cmp : Comparator} {r : IntExpr}
    (h : q.Explains (.int l cmp r)) :
    (Constraint.int l cmp r).holds = q.constraint.read.holds ∧
      (q.instruction.TestsInts q.operands → q.constraint.holds = true) := by
  obtain ⟨hnorm, l', ρ, r', hc, hl, hr, htrue⟩ := h
  rw [hc] at hnorm ⊢
  exact ⟨Constraint.holds_normalize hl hr hnorm, htrue⟩

end Replay

/-! ## 4. Starts -/

section Starts

variable {E : IntExpr → Prop} {P : Constraint → Prop}

theorem Host.intOperand_yields (hE : Closed E) (hvar : ∀ x, E (.var x)) (t : IntType)
    (a : Trace.Arg) : Yields (intOperand t a) (Operand.All E) := by
  refine Yields.any_bind fun v => Yields.any_bind fun lo => Yields.any_bind fun hi => ?_
  dsimp only
  by_cases hout : v < lo ∨ hi < v
  · rw [if_pos hout]
    exact Yields.error _
  rw [if_neg hout]
  have he : E (if a.name = "" then .const (Int64.ofInt v)
      else .var ⟨a.name, Int64.ofInt v, Int64.ofInt lo, Int64.ofInt hi⟩) := by
    split
    · exact hE.const _
    · exact hvar _
  refine Yields.ok ?_
  by_cases hlong : t = .long
  · rw [if_pos hlong]
    exact he
  · rw [if_neg hlong]
    exact he

theorem Host.realOperand_yields (p : Numeral.Precision) (a : Trace.Arg) :
    Yields (realOperand p a) (Operand.All E) := by
  refine Yields.any_bind fun v => Yields.any_bind fun lo => Yields.any_bind fun hi => Yields.ok ?_
  cases p <;> trivial

theorem Host.argument_yields (hE : Closed E) (hvar : ∀ x, E (.var x)) (h : Host)
    (a : Trace.Arg) : Yields (h.argument a) fun x => ∀ o, x = .inl o → o.All E := by
  have hleft : ∀ {x : Except ArgError Operand}, Yields x (Operand.All E) →
      Yields (x.map (Sum.inl : Operand → Operand ⊕ Value)) fun y => ∀ o, y = .inl o → o.All E :=
    fun hx => Yields.map fun o ho o' heq => by
      cases heq
      exact hx o ho
  unfold argument
  split
  · exact hleft (intOperand_yields hE hvar _ a)
  · split
    · exact hleft (realOperand_yields _ a)
    · exact hleft (realOperand_yields _ a)
    · exact Yields.map fun v _ o heq => by cases heq

theorem Replay.operands_keeps (hE : Closed E) (hvar : ∀ x, E (.var x)) (h : Host)
    (args : List Trace.Arg) :
    Act.Keeps (Heap.All E) (operands h args) fun res => Yields res fun os => ∀ o ∈ os, o.All E := by
  induction args with
  | nil => exact Act.Keeps.pure (Yields.ok fun o ho => absurd ho List.not_mem_nil)
  | cons a args ih =>
    have hone : Act.Keeps (Heap.All E) (h.operand a) fun res => Yields res (Operand.All E) := by
      have harg := h.argument_yields hE hvar a
      unfold Host.operand
      split
      · exact Act.Keeps.pure (Yields.error _)
      next o ho => exact Act.Keeps.pure (Yields.ok (harg _ ho o rfl))
      next v _ =>
        exact (Heap.reference_keeps v).bind fun _ _ => Act.Keeps.pure (Yields.ok trivial)
    refine hone.bind fun res hres => ?_
    cases res with
    | error e => exact Act.Keeps.pure (Yields.error _)
    | ok o =>
      refine ih.bind fun res' hres' => ?_
      cases res' with
      | error e => exact Act.Keeps.pure (Yields.error _)
      | ok os =>
        refine Act.Keeps.pure (Yields.ok fun o' ho' => ?_)
        rcases List.mem_cons.mp ho' with rfl | hmem
        · exact hres o' rfl
        · exact hres' os rfl o' hmem

theorem Machine.start_does {os : List Operand} (hos : ∀ o ∈ os, o.All E) (method : MethodRef)
    (static : Bool) (size : Int) :
    Does E P (start method static size (os.map some)) fun _ => True := by
  have hargs : (os.map some).mapM id = some os := by
    simpa using List.mapM_pure (m := Option) (f := id) (l := os)
  have hframe : ∀ {name : String} {s : Stack}, (∀ o ∈ s, o.All E) →
      (Frame.placeholder name s).All E :=
    fun hs => ⟨hs, fun o ho => absurd ho List.not_mem_nil⟩
  refine Does.bind (Q := fun _ => True) ?_ fun _ _ => enter_does method static size
  unfold prepareStack
  rw [hargs]
  refine Does.bind (Q := fun _ => True) ?_ fun _ _ => ?_
  · exact Does.modify (fun c => { c with frames := [] }) (fun _ _ _ => rfl) fun c hc =>
      ⟨fun f hf => absurd hf List.not_mem_nil, hc.heap⟩
  refine (pushFrame_does (hframe fun o ho => absurd ho List.not_mem_nil)).bind fun _ _ => ?_
  exact pushFrame_does (hframe fun o ho => hos o (List.mem_reverse.mp ho))

/-- An action that reports nothing leaves the collector alone. -/
theorem Does.collector_eq {a : Act Machine α} {Q : α → Prop} (ha : Does E (fun _ => False) a Q)
    {m : Machine} (hm : m.core.All E) :
    (a m).2.core.All E ∧ (a m).2.collector = m.collector := by
  obtain ⟨res, c', htells, hc', -⟩ := ha.silent hm
  obtain ⟨log', hrun⟩ := htells m.collector m.log
  have hrun' : a m = (res, c'.machine m.collector log') := hrun
  rw [hrun']
  exact ⟨hc', rfl⟩

/-- A replay starts with an empty path condition. -/
theorem Replay.start_all (hE : Closed E) (hvar : ∀ x, E (.var x)) {t : Trace} {r : Replay}
    {log : List Event} (h : start t = (.ok r, log)) :
    r.machine.core.All E ∧ r.machine.collector = .path {} := by
  unfold start at h
  split at h
  · cases h
  next host _ =>
    have hempty : Heap.All E {} :=
      ⟨fun p hp => absurd hp List.not_mem_nil, fun p hp => absurd hp List.not_mem_nil⟩
    obtain ⟨hheap, hos⟩ := operands_keeps hE hvar host t.args {} hempty
    split at h
    · cases h
    · cases h
    next os m hrun =>
      have hres : (operands host t.args {}).1 = .ok (.ok os) := congrArg Prod.fst hrun
      have hm : { Machine.new (some host.resolver) with heap := (operands host t.args {}).2 } = m :=
        congrArg Prod.snd hrun
      have hall : m.core.All E := by
        subst hm
        exact ⟨fun f hf => absurd hf List.not_mem_nil, hheap⟩
      obtain ⟨hall', hcollector⟩ := (Machine.start_does (P := fun _ => False) (hos _ hres os rfl)
        t.method t.static t.maxLocals).collector_eq hall
      split at h
      · cases h
      next m' hrun' =>
        rw [hrun'] at hall' hcollector
        cases h
        subst hm
        exact ⟨hall', hcollector⟩

end Starts

/-! ## 5. The truth of a path condition -/

/-- **Every integer constraint in a path condition is the normal form of a reported one.**  It holds
of the values of the run exactly if the reported one does with the threshold that the normal form
goes by; for all but comparisons with a constant that is the reported constraint itself.  And the
reported one holds, unless its instruction tests an int slot with a value that is no int. -/
theorem holds_of_mem_constraints {t : Trace} {r : Replay} {log : List Event}
    (hstart : Replay.start t = (.ok r, log)) (ls : List String) {lhs rhs : IntExpr}
    {cmp : Comparator}
    (hmem : .int lhs cmp rhs ∈ (r.after ls).machine.collector.pathCondition.constraints) :
    ∃ q ∈ r.reported ls, q.constraint.normalize = .ok (.int lhs cmp rhs) ∧
      (Constraint.int lhs cmp rhs).holds = q.constraint.read.holds ∧
      (q.instruction.TestsInts q.operands → q.constraint.holds = true) := by
  obtain ⟨hall, hempty⟩ := Replay.start_all IntExpr.closed_honest (fun _ => trivial) hstart
  obtain ⟨pc, hpc, horigin⟩ := Replay.after_adds hall hempty ls
  rw [hpc] at hmem
  rcases horigin _ hmem with hold | ⟨q, hq, hex⟩
  · cases hold
  · exact ⟨q, hq, hex.1, hex.holds⟩

/-- Two longs, 5 and 3. -/
def twoLongs : Trace where
  method := ⟨"A", "f", "(JJ)V"⟩
  static := true
  maxLocals := 4
  args := [{ type := "J", name := "x", value := "5" }, { type := "J", name := "y", value := "3" }]

/-- Tests whether the comparison of two longs is at most 1. -/
def atMostOne : List String := ["LLOAD 0", "LLOAD 2", "LCMP", "ICONST 1", "IF_ICMPLE 0"]

/-- An input that may be any long. -/
def longInput (name : String) (v : Int64) : IntExpr :=
  .var ⟨name, v, Int64.minValue, Int64.maxValue⟩

/-- The path condition says that 5 is at most 3, where the machine had reported that the comparison
of the two is at most 1. -/
theorem atMostOne_misread :
    ∃ r log, Replay.start twoLongs = (.ok r, log) ∧
      .int (longInput "x" 5) (.rel .le) (longInput "y" 3) ∈
        (r.after atMostOne).machine.collector.pathCondition.constraints ∧
      ∃ q ∈ r.reported atMostOne,
        q.constraint.normalize = .ok (.int (longInput "x" 5) (.rel .le) (longInput "y" 3)) ∧
        (Constraint.int (longInput "x" 5) (.rel .le) (longInput "y" 3)).holds =
          q.constraint.read.holds ∧
        (q.instruction.TestsInts q.operands → q.constraint.holds = true) := by
  have hrun : ((Replay.start twoLongs).1.toOption.map fun r =>
      (r.after atMostOne).machine.collector.pathCondition.constraints) =
        some [.int (longInput "x" 5) (.rel .le) (longInput "y" 3)] := by
    decide +kernel
  obtain ⟨r, hr, hpc⟩ := Option.map_eq_some_iff.mp hrun
  have hstart : Replay.start twoLongs = (.ok r, (Replay.start twoLongs).2) := by
    refine Prod.ext ?_ rfl
    cases h : (Replay.start twoLongs).1 with
    | error e =>
      rw [h] at hr
      cases hr
    | ok r' =>
      rw [h] at hr
      cases hr
      rfl
  have hmem := hpc ▸ List.mem_singleton_self _
  exact ⟨r, _, hstart, hmem, holds_of_mem_constraints hstart atMostOne hmem⟩

/-- A long that is no int. -/
def oneLong : Trace where
  method := ⟨"A", "f", "(J)V"⟩
  static := true
  maxLocals := 2
  args := [{ type := "J", name := "x", value := "2147483648" }]

/-- Carries `x - 1`, which is an int, through a field into an int slot and adds 1 to it. -/
def throughField : List String :=
  ["LLOAD 0", "LCONST -1", "LADD", "PUTSTATIC A f J", "GETSTATIC A f I 2147483647", "ICONST 1",
    "IADD", "NEWARRAY I"]

/-- The constraints of a path condition, and whether they hold. -/
def judged (t : Trace) (ls : List String) : Option (List (String × Bool)) :=
  (Replay.start t).1.toOption.map fun r =>
    (r.after ls).machine.collector.pathCondition.constraints.map fun c => (c.render, c.holds)

/-- **Both ways to a false path condition.**  5 is not at most 3, and 2147483648 is not negative. -/
theorem judged_false :
    judged twoLongs atMostOne = some [("x <= y", false)] ∧
      judged oneLong throughField = some [("x < (int 0)", false)] := by
  decide +kernel

end Concolic
