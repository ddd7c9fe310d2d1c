import Concolic.Proofs.ArrayRoundTrip
import Concolic.Proofs.Hierarchy
import Concolic.Proofs.Steady

/-
# Lines that never end

The classes of a trace are listed by its author, and nothing keeps a class from being listed above
itself.  A walk up from such a class goes round for ever, and so does the line that started it.

The machine walks up in four instructions.  Three prepare a class first; the fourth asks whether an
object is an instance of a type, after it has popped the reference.  The walks are known from the
list of classes alone, which no instruction changes, so it can be told of a line whether it goes on
for ever (`exec_eq_endless_iff`), and no line does if no class is above itself (`exec_ends`).
-/
namespace Concolic

open Act (Steady Finite)

namespace Machine

/-! ## 1. Questions about classes -/

theorem prepare_fixes (name : String) : (prepare name).Fixes classes := by
  intro m
  rcases prepare_ends name m with ⟨e, hrun⟩ | ⟨added, -, hrun⟩
  · rw [hrun]
  · rw [hrun]
    rfl

theorem newObject_rest (className : String) :
    (do
      discard topFrame
      push (.ref (.object (← onHeap (Heap.new className)))) : Act Machine Unit).Steady classes :=
  topFrame_steady.discard.bind fun _ =>
    (onHeap_steady (Heap.new_finite className)).bind fun _ => push_steady _

theorem getStatic_rest (owner name desc : String) (v : Value) :
    (do
      let w ← fieldWidth desc
      let o ← fieldOperand ⟨0, owner, name⟩ w v
      push o : Act Machine Unit).Steady classes :=
  (fieldWidth_steady desc).bind fun w =>
    (fieldOperand_steady _ w v).bind fun _ => push_steady _

theorem putStatic_rest (owner name desc : String) :
    (do
      let o ← onStack Stack.pop
      let w ← fieldWidth desc
      Act.ensure (some o.width = w) (.putStaticWidth owner name w o.width)
      modify fun m => { m with heap := m.heap.putField ⟨0, owner, name⟩ o.expr } :
        Act Machine Unit).Steady classes :=
  (onStack_steady Stack.pop_finite).bind fun _ => (fieldWidth_steady desc).bind fun _ =>
    (Steady.ensure _ _).bind fun _ => Steady.modify fun _ => rfl

theorem popRef_ok_iff {m : Machine} {e : RefExpr} :
    (onStack Stack.popRef m).1 = .ok e ↔ ∃ s, m.operands = .ref e :: s := by
  obtain ⟨frames, prepared, heap, collector, log, classes⟩ := m
  rcases frames with _ | ⟨⟨method, s, t, fk⟩, rest⟩
  · constructor
    · nofun
    · rintro ⟨s, hs⟩
      cases hs
  · have hrun : (onStack Stack.popRef
        ⟨⟨method, s, t, fk⟩ :: rest, prepared, heap, collector, log, classes⟩).1 =
          (Stack.popRef s).1 := rfl
    have hoperands :
        operands ⟨⟨method, s, t, fk⟩ :: rest, prepared, heap, collector, log, classes⟩ = s := rfl
    rw [hrun, hoperands]
    constructor
    · intro h
      rcases s with _ | ⟨o, s⟩
      · cases h
      · cases o with
        | ref e' =>
          cases h
          exact ⟨s, rfl⟩
        | _ => cases h
    · rintro ⟨s', rfl⟩
      rfl

theorem instanceOf_fixes (v : Value) (type : String) : (instanceOf v type).Fixes classes := by
  refine popRef_steady.discard.fixes.bind fun _ => ?_
  split
  · exact (push_steady _).fixes
  · refine Act.Fixes.get_bind fun m => ?_
    split
    · exact fun _ => rfl
    · split
      · exact fun _ => rfl
      · exact (push_steady _).fixes
      · exact fun _ => rfl

/-- A type test goes on for ever if there is a reference to pop and the host never comes to an
answer. -/
theorem instanceOf_eq_endless_iff {h : Host} {m : Machine} (hm : m.classes = some h.resolver)
    (v : Value) (type : String) :
    (instanceOf v type m).1 = .error .endless ↔
      (∃ e s, m.operands = .ref e :: s) ∧ h.isInstance v type = .endless := by
  unfold instanceOf
  by_cases hv : v = .null
  · simp only [hv, if_true]
    refine iff_of_false ((popRef_steady.discard.bind fun _ => push_steady _).ends m) ?_
    rintro ⟨-, hforever⟩
    obtain ⟨-, _, _, hobject, -⟩ := Host.isInstance_eq_endless_iff.1 hforever
    cases hobject
  · simp only [hv, if_false]
    rw [Act.discard_bind, popRef_steady.ends.bind_eq_endless_iff]
    constructor
    · rintro ⟨e, m', hpop, htest⟩
      have hclasses : m'.classes = some h.resolver := by
        have hfixes := popRef_steady.fixes m
        rw [hpop] at hfixes
        exact hfixes.trans hm
      rw [Act.get_bind_apply, hclasses] at htest
      refine ⟨⟨e, popRef_ok_iff.1 (congrArg Prod.fst hpop)⟩, ?_⟩
      cases hi : h.resolver.isInstance v type with
      | endless => exact hi
      | error f =>
        simp only [hi] at htest
        cases htest
      | ok b =>
        simp only [hi] at htest
        exact absurd htest ((push_steady _).ends m')
    · rintro ⟨⟨e, htop⟩, hforever⟩
      have hpop := popRef_ok_iff.2 htop
      have hfixes := popRef_steady.fixes m
      rcases hrun : onStack Stack.popRef m with ⟨_, m'⟩
      rw [hrun] at hpop hfixes
      subst hpop
      refine ⟨e, m', rfl, ?_⟩
      have hclasses : m'.classes = some h.resolver := hfixes.trans hm
      replace hforever : h.resolver.isInstance v type = .endless := hforever
      rw [Act.get_bind_apply, hclasses]
      simp only [hforever]
      rfl

end Machine

namespace Instruction

/-! ## 2. Instructions -/

/-- No instruction changes whom the machine asks about classes. -/
theorem exec_fixes (i : Instruction) : i.exec.Fixes Machine.classes := by
  have hsafely {a : Act Machine Unit} (ha : a.Fixes Machine.classes) :
      (safely a).Fixes Machine.classes :=
    ha.bind fun _ => (Steady.pure false).fixes
  by_cases h : i.AsksClasses
  · cases i with
    | newObject c =>
      exact hsafely ((Machine.prepare_fixes c).bind fun _ => (Machine.newObject_rest c).fixes)
    | getStatic o n d v =>
      exact hsafely ((Machine.prepare_fixes o).bind fun _ => (Machine.getStatic_rest o n d v).fixes)
    | putStatic o n d =>
      exact hsafely ((Machine.prepare_fixes o).bind fun _ => (Machine.putStatic_rest o n d).fixes)
    | instanceOf v t => exact hsafely (Machine.instanceOf_fixes v t)
    | _ => exact h.elim
  · exact (i.exec_steady h).fixes

/-- The instruction starts a walk up from a class that never ends. -/
def WalksForever (h : Host) (m : Machine) : Instruction → Prop
  | newObject c => h.ClimbsForever m.prepared c
  | getStatic c _ _ _ => h.ClimbsForever m.prepared c
  | putStatic c _ _ => h.ClimbsForever m.prepared c
  | instanceOf v t => (∃ e s, m.operands = .ref e :: s) ∧ t ≠ Value.rootClass ∧
      ∃ object c, v = .object object c ∧ h.SeeksForever t c
  | _ => False

/-- **An instruction goes on for ever exactly if its walk does.** -/
theorem exec_eq_endless_iff {h : Host} {m : Machine} (hm : m.classes = some h.resolver)
    (i : Instruction) : (i.exec m).1 = .error .endless ↔ i.WalksForever h m := by
  have hsafely (a : Act Machine Unit) :
      (safely a m).1 = .error .endless ↔ (a m).1 = .error .endless := by
    have hpure : (pure false : Act Machine Bool).Finite := Steady.pure false
    exact Act.bind_eq_endless_iff (fun _ => hpure.ends) m
  have hprepare (c : String) {g : Unit → Act Machine Unit}
      (hg : (g ()).Steady Machine.classes) :
      ((Machine.prepare c >>= g) m).1 = .error .endless ↔ h.ClimbsForever m.prepared c := by
    rw [Act.bind_eq_endless_iff (fun _ => hg.ends), Host.prepare_eq_endless_iff hm]
  by_cases hasks : i.AsksClasses
  · cases i with
    | newObject c => exact (hsafely _).trans (hprepare c (Machine.newObject_rest c))
    | getStatic o n d v => exact (hsafely _).trans (hprepare o (Machine.getStatic_rest o n d v))
    | putStatic o n d => exact (hsafely _).trans (hprepare o (Machine.putStatic_rest o n d))
    | instanceOf v t =>
      refine (hsafely _).trans ((Machine.instanceOf_eq_endless_iff hm v t).trans ?_)
      rw [Host.isInstance_eq_endless_iff]
      rfl
    | _ => exact hasks.elim
  · refine iff_of_false ((i.exec_steady hasks).ends m) ?_
    cases i with
    | newObject | getStatic | putStatic | instanceOf => exact absurd trivial hasks
    | _ => exact id

/-- A walk that never ends goes round a cycle. -/
theorem WalksForever.cycle {h : Host} {m : Machine} {i : Instruction} (hi : i.WalksForever h m) :
    ∃ c, Relation.TransGen h.Listed c c := by
  cases i with
  | newObject c => exact Host.cycle_of_goes_on (h.stopsAtTop_climbing m.prepared) hi
  | getStatic c n d v => exact Host.cycle_of_goes_on (h.stopsAtTop_climbing m.prepared) hi
  | putStatic c n d => exact Host.cycle_of_goes_on (h.stopsAtTop_climbing m.prepared) hi
  | instanceOf v t =>
    obtain ⟨-, -, _, _, -, hseeks⟩ := hi
    exact Host.cycle_of_goes_on (Host.stopsAtTop_seeking t) hseeks
  | _ => exact hi.elim

end Instruction

/-! ## 3. Lines -/

theorem Host.resolver_setElem (h : Host) (name : String) (i : Nat) (v : Value) :
    (h.setElem name i v).resolver = h.resolver := by
  have hextends (type : String) (fuel : Nat) (c : String) :
      (h.setElem name i v).extendsWithin type fuel c = h.extendsWithin type fuel c := by
    induction fuel generalizing c with
    | zero => rfl
    | succ fuel ih =>
      rw [extendsWithin, extendsWithin, ih]
      rfl
  have hinstance : (h.setElem name i v).isInstance = h.isInstance := by
    funext x type
    unfold isInstance
    simp only [hextends]
    rfl
  rw [resolver, resolver, hinstance]
  rfl

namespace Replay

variable {r : Replay}

/-- A started machine asks the host of its trace. -/
theorem start_classes {t : Trace} {log : List Event} (h : start t = (.ok r, log)) :
    r.machine.classes = some r.host.resolver := by
  unfold start at h
  split at h
  · cases h
  next host _ =>
    split at h
    · cases h
    · cases h
    next args m hargs =>
      have hm : m.classes = some host.resolver := by
        obtain ⟨-, rfl⟩ := Prod.mk.inj hargs
        rfl
      have hstart := (Machine.start_steady t.method t.static t.maxLocals (args.map some)).fixes m
      split at h
      · cases h
      next m' hrun =>
        cases h
        rw [hrun] at hstart
        exact hstart.trans hm

theorem exec_classes (h : r.machine.classes = some r.host.resolver) (line : String) :
    (r.exec line).2.machine.classes = some (r.exec line).2.host.resolver := by
  unfold exec
  split
  · exact h
  · exact h
  next name s _ =>
    have hmachine : (r.perform name line s).2.machine.classes = r.machine.classes :=
      (congrArg Core.classes (r.perform_machine name line s).1).trans
        (s.instruction.exec_fixes r.machine)
    have hhost : (r.perform name line s).2.host.resolver = r.host.resolver := by
      rcases r.perform_host name line s with hsame | ⟨st, v, -, -, hset⟩
      · rw [hsame]
      · rw [hset, Host.resolver_setElem]
    rw [hmachine, hhost]
    exact h

/-- **On a run the machine asks the host of the trace about classes.** -/
theorem Reached.classes (hr : r.Reached) : r.machine.classes = some r.host.resolver := by
  obtain ⟨t, r₀, log, ls, hstart, rfl⟩ := hr
  have h₀ := start_classes hstart
  clear hstart
  induction ls generalizing r₀ with
  | nil => exact h₀
  | cons line ls ih => exact ih _ (exec_classes h₀ line)

theorem perform_eq_endless_iff {name line : String} {s : Step} :
    (r.perform name line s).1 = .endless ↔
      (s.instruction.exec r.machine).1 = .error .endless := by
  have h := r.performs name line s
  generalize r.perform name line s = p at h ⊢
  cases h with
  | endless hrun | faulted hrun | done hrun | stored hrun | misfit hrun => simp [hrun]
  | failed hrun hne => simp [hrun, hne]

/-- **A line goes on for ever exactly if the walk of its instruction does.** -/
theorem exec_eq_endless_iff (hr : r.Reached) (line : String) :
    (r.exec line).1 = .endless ↔
      ∃ name s, r.read line = .ok (some (name, s)) ∧
        s.instruction.WalksForever r.host r.machine := by
  unfold exec
  cases hread : r.read line with
  | error e => simp
  | ok x =>
    cases x with
    | none => simp
    | some p =>
      obtain ⟨name, s⟩ := p
      dsimp only
      rw [perform_eq_endless_iff, Instruction.exec_eq_endless_iff hr.classes]
      simp

/-- **Every line comes to an end if no class is above itself.** -/
theorem exec_ends (hr : r.Reached) (hacyclic : ∀ c, ¬ Relation.TransGen r.host.Listed c c)
    (line : String) : (r.exec line).1 ≠ .endless := by
  intro h
  obtain ⟨_, _, -, hwalk⟩ := (exec_eq_endless_iff hr line).1 h
  obtain ⟨c, hc⟩ := hwalk.cycle
  exact hacyclic c hc

end Replay

end Concolic
