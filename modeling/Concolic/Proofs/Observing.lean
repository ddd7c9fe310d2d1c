import Concolic.Proofs.PathLog
import Concolic.Proofs.Stated

/-
# The collector only listens

A machine tells its collector what it finds and goes on in the same way whatever the collector does
with it.  One collector builds a path condition, another lists the calls that it gets.  Two machines
that differ in that go through the same states, and the path condition of the one is what the list
of the other makes (`collector_only_listens`).

A path condition could still stop its machine: it refuses a constraint whose comparator is none of
the six.  No instruction reports such a constraint.  What an action does for every collector is
`Tells`; an action is `Observable` if it tells nothing that a path condition refuses.
-/
namespace Concolic

/-! ## 1. Feeding what was listed -/

/-- A path condition that is fed more is the path condition of the longer list. -/
theorem Collector.feedAll_ofReports {hash : String → UInt64} {rs : List Report}
    {pc : PathCondition} (hpc : PathCondition.ofReports hash rs = .ok pc) {reps : List Report}
    (hvalid : ∀ rep ∈ reps, rep.constraint.Valid) :
    ∃ pc', PathCondition.ofReports hash (rs ++ reps) = .ok pc' ∧
      (path pc).feedAll reps = path pc' := by
  induction reps generalizing rs pc with
  | nil => exact ⟨pc, by rwa [List.append_nil], rfl⟩
  | cons rep reps ih =>
    obtain ⟨d, hd⟩ := Constraint.normalize_of_valid (hvalid rep List.mem_cons_self)
    obtain ⟨p, hp⟩ := PathCondition.report_ok hd pc
    have hnext : PathCondition.ofReports hash (rs ++ [rep]) = .ok p.1 := by
      rw [PathCondition.ofReports_append, hpc]
      change (pc.report rep).map Prod.fst = _
      rw [hp]
      rfl
    have hfeed : (path pc).feed rep = path p.1 := by
      rw [feed, report, hp]
      rfl
    obtain ⟨pc', hpc', hrest⟩ := ih hnext fun rep' h => hvalid rep' (List.mem_cons_of_mem rep h)
    refine ⟨pc', by rwa [List.append_cons], ?_⟩
    change ((path pc).feed rep).feedAll reps = _
    rw [hfeed, hrest]

/-! ## 2. Actions that every collector can listen to -/

/-- The action does the same whatever collector listens, and reports only what has a normal form. -/
def Observable (a : Act Machine α) : Prop :=
  ∀ c : Core, ∃ res c' reps, Tells c a res c' reps ∧ ∀ rep ∈ reps, rep.constraint.Valid

theorem Does.observable {P : Constraint → Prop} (hP : ∀ c, P c → c.Valid) {a : Act Machine α}
    {Q : α → Prop} (ha : Does (fun _ => True) P a Q) : Observable a := by
  intro c
  obtain ⟨res, c', reps, htells, -, hreps, -⟩ := ha c c.all_true trivial
  exact ⟨res, c', reps, htells, fun rep hrep => hP _ (hreps rep hrep)⟩

/-- **Every instruction is observable.**  Whatever it reports relates two integers, by
`exec_states`. -/
theorem Instruction.exec_observable (i : Instruction) : Observable i.exec := by
  intro c
  obtain ⟨res, c', reps, htells, -, hreps, -⟩ :=
    Instruction.exec_states (S := False) closed_true i c c.all_true False.elim
  refine ⟨res, c', reps, htells, fun rep hrep => ?_⟩
  obtain ⟨l, ρ, r, hrel, -⟩ := hreps rep hrep
  rw [hrel]
  exact Constraint.valid_relate l ρ r

theorem Frame.all_true (f : Frame) : f.All fun _ => True :=
  ⟨fun o _ => o.all_true, fun o _ => o.all_true⟩

namespace Machine

theorem prepareStack_does (args : List (Option Operand)) {P : Constraint → Prop} :
    Does (fun _ => True) P (prepareStack args) fun _ => True := by
  have hdrop : Does (fun _ => True) P
      (modify fun m => { m with frames := [] } : Act Machine PUnit) fun _ => True :=
    Does.modify (fun c => { c with frames := [] }) (fun _ _ _ => rfl) fun c _ => Core.all_true _
  refine hdrop.bind fun _ _ => (pushFrame_does (Frame.all_true _)).bind fun _ _ => ?_
  split
  · exact pushFrame_does (Frame.all_true _)
  · exact Does.fail _

theorem start_observable (method : MethodRef) (static : Bool) (size : Int)
    (args : List (Option Operand)) : Observable (start method static size args) := by
  have hstart : Does (fun _ => True) (fun _ => False) (start method static size args)
      fun _ => True :=
    (prepareStack_does args).bind fun _ _ => enter_does method static size
  exact hstart.observable fun _ h => h.elim

/-! ## 3. Two machines with different collectors -/

/-- The machines differ in their collectors and logs only: `k` has listed its calls, and `m` has the
path condition that they make. -/
structure Mirrors (m k : Machine) : Prop where
  core : m.core = k.core
  collectors : ∃ reps pc, k.collector = .calls reps ∧
    PathCondition.ofReports Text.xxhash64 reps = .ok pc ∧ m.collector = .path pc

/-- One action has the same result on both, and keeps them alike. -/
theorem Mirrors.act {m k : Machine} (h : m.Mirrors k) {a : Act Machine α} (ha : Observable a) :
    (a m).1 = (a k).1 ∧ (a m).2.Mirrors (a k).2 := by
  obtain ⟨reps, pc, hk, hpc, hm⟩ := h.collectors
  obtain ⟨res, c', new, htells, hvalid⟩ := ha m.core
  obtain ⟨log, hrun⟩ := htells m.collector m.log
  obtain ⟨log', hrun'⟩ := htells k.collector k.log
  have hcore := h.core
  rw [machine_core, hm] at hrun
  rw [hcore, machine_core, hk, Collector.feedAll_calls] at hrun'
  obtain ⟨pc', hpc', hfed⟩ := Collector.feedAll_ofReports hpc hvalid
  rw [hrun, hrun', hfed]
  exact ⟨rfl, rfl, reps ++ new, pc', rfl, hpc', rfl⟩

end Machine

/-- So has a whole run, its failing instructions included. -/
theorem Instruction.run_mirrors {m k : Machine} (h : m.Mirrors k) (is : List Instruction) :
    (run is m).1 = (run is k).1 ∧ (run is m).2.Mirrors (run is k).2 := by
  induction is generalizing m k with
  | nil => exact ⟨rfl, h⟩
  | cons i is ih =>
    obtain ⟨hres, hnext⟩ := h.act i.exec_observable
    obtain ⟨hrest, hend⟩ := ih hnext
    exact ⟨congrArg₂ List.cons hres hrest, hend⟩

theorem Machine.mirrors_new (classes : Option ClassResolver) :
    (new classes).Mirrors (recording classes) :=
  ⟨rfl, [], {}, rfl, rfl, rfl⟩

/-- **The collector is only an observer.**  For all classes, arguments and instructions, the machine
that collects a path condition and the one that lists calls start alike, give the same results and
have the same frames, heap and prepared classes; the listed calls make the path condition. -/
theorem collector_only_listens (classes : Option ClassResolver) (method : MethodRef) (static : Bool)
    (size : Int) (args : List (Option Operand)) (is : List Instruction) :
    let collecting := Machine.start method static size args (.new classes)
    let listing := Machine.start method static size args (.recording classes)
    let m := (Instruction.run is collecting.2).2
    let k := (Instruction.run is listing.2).2
    collecting.1 = listing.1 ∧
      (Instruction.run is collecting.2).1 = (Instruction.run is listing.2).1 ∧
      m.frames = k.frames ∧ m.heap = k.heap ∧ m.prepared = k.prepared ∧
      ∃ reps pc, k.collector = .calls reps ∧
        PathCondition.ofReports Text.xxhash64 reps = .ok pc ∧ m.collector = .path pc := by
  intro collecting listing m k
  obtain ⟨hstart, hstarted⟩ :=
    (Machine.mirrors_new classes).act (Machine.start_observable method static size args)
  obtain ⟨hresults, hend⟩ := Instruction.run_mirrors hstarted is
  have hcore : m.core = k.core := hend.core
  exact ⟨hstart, hresults, congrArg Core.frames hcore, congrArg Core.heap hcore,
    congrArg Core.prepared hcore, hend.collectors⟩

end Concolic
