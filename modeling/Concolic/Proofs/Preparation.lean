import Concolic.Machine.State
import Mathlib.Logic.Relation

/-
# Preparing classes

A class is prepared after its superclasses.  The walk up to them stops at a class that is prepared
already and marks the classes on its way back.  So what a call adds is known only if the
superclasses of a prepared class are prepared too, and a call that fails on the way up has marked
nothing.

`Adds` says what a call adds to the classes that are prepared, and `prepareWithin_ends` that a call
does this or nothing.  From it follows what all calls keep (`Settled`), and with it that a call adds
the class and exactly those of its superclasses that were missing (`Adds.mem_iff`), the superclasses
first (`Adds.ordered`).

Nothing is assumed of the resolver.  How far it lets the walk go up matters only for whether a call
succeeds (`prepareWithin_ok`): if it reaches the end of every chain, then exactly if all questions
on the way have an answer.
-/
namespace Concolic

/-! ## 1. Superclasses -/

/-- `s` is the superclass of `c`.  Arrays have no superclass of interest. -/
def HasParent (classes : Option ClassResolver) (c s : String) : Prop :=
  Machine.isArrayClass c = false ∧ s ≠ "" ∧ ∃ r, classes = some r ∧ r.superclass c = .ok s

/-- `t` is `c` or one of its superclasses. -/
def Inherits (classes : Option ClassResolver) : String → String → Prop :=
  Relation.ReflTransGen (HasParent classes)

/-- It is known what the superclass of `c` is, or that it has none. -/
def Answered (classes : Option ClassResolver) (c : String) : Prop :=
  Machine.isArrayClass c = true ∨ ∃ r s, classes = some r ∧ r.superclass c = .ok s

/-- `c` has at most `n` superclasses. -/
def EndsWithin (classes : Option ClassResolver) : Nat → String → Prop
  | 0, c => ∀ s, ¬ HasParent classes c s
  | n + 1, c => ∀ s, HasParent classes c s → EndsWithin classes n s

/-- How many superclasses of a class are asked for. -/
def chainLimit : Option ClassResolver → Nat
  | some r => r.depth
  | none => 0

variable {classes : Option ClassResolver} {c s t : String}

theorem HasParent.unique (hs : HasParent classes c s) (ht : HasParent classes c t) : s = t := by
  obtain ⟨-, -, r, rfl, hs⟩ := hs
  obtain ⟨-, -, r', hr, ht⟩ := ht
  cases hr
  rw [hs] at ht
  exact Except.ok.inj ht

theorem HasParent.answered (h : HasParent classes c s) : Answered classes c := by
  obtain ⟨-, -, r, hr, hs⟩ := h
  exact Or.inr ⟨r, s, hr, hs⟩

theorem inherits_of_no_parent (h : ∀ s, ¬ HasParent classes c s) :
    Inherits classes c t ↔ t = c := by
  constructor
  · intro ht
    rcases Relation.ReflTransGen.cases_head ht with rfl | ⟨s, hs, -⟩
    · rfl
    · exact absurd hs (h s)
  · rintro rfl
    exact Relation.ReflTransGen.refl

theorem HasParent.inherits_iff (h : HasParent classes c s) :
    Inherits classes c t ↔ t = c ∨ Inherits classes s t := by
  constructor
  · intro ht
    rcases Relation.ReflTransGen.cases_head ht with rfl | ⟨s', hs', ht⟩
    · exact Or.inl rfl
    · rw [h.unique hs']
      exact Or.inr ht
  · rintro (rfl | ht)
    · exact Relation.ReflTransGen.refl
    · exact Relation.ReflTransGen.head h ht

/-- A class on a cycle has its superclass on it. -/
theorem HasParent.cycle (h : HasParent classes c s)
    (hc : Relation.TransGen (HasParent classes) c c) :
    Inherits classes s c ∧ Relation.TransGen (HasParent classes) s s := by
  obtain ⟨s', hs', hback⟩ := Relation.TransGen.head'_iff.1 hc
  rw [← h.unique hs'] at hback
  exact ⟨hback, Relation.TransGen.tail' hback h⟩

/-! ## 2. What a call adds -/

/-- Preparing a class adds nothing if it is among `old`, and else itself, after what preparing its
superclass adds. -/
inductive Adds (classes : Option ClassResolver) (old : List String) : String → List String → Prop
  | present {c : String} : c ∈ old → Adds classes old c []
  | alone {c : String} : c ∉ old → Answered classes c → (∀ s, ¬ HasParent classes c s) →
    Adds classes old c [c]
  | after {c s : String} {added : List String} : c ∉ old → HasParent classes c s →
    Adds classes old s added → Adds classes old c (added ++ [c])

/-- What holds of the prepared classes after any calls. -/
structure Settled (classes : Option ClassResolver) (old : List String) : Prop where
  /-- The superclass of a prepared class is prepared. -/
  closed : ∀ b ∈ old, ∀ s, HasParent classes b s → s ∈ old
  answered : ∀ b ∈ old, Answered classes b
  nodup : old.Nodup

theorem Settled.inherits {old : List String} (h : Settled classes old) (hc : c ∈ old)
    (ht : Inherits classes c t) : t ∈ old := by
  induction ht with
  | refl => exact hc
  | tail _ hs ih => exact h.closed _ ih _ hs

namespace Adds

variable {old added : List String}

theorem not_mem_old (h : Adds classes old c added) (ht : t ∈ added) : t ∉ old := by
  induction h with
  | present => cases ht
  | alone hc => rwa [List.mem_singleton.1 ht]
  | after hc _ _ ih =>
    rcases List.mem_append.1 ht with ht | ht
    · exact ih ht
    · rwa [List.mem_singleton.1 ht]

theorem inherits_of_mem (h : Adds classes old c added) (ht : t ∈ added) :
    Inherits classes c t := by
  induction h with
  | present => cases ht
  | alone hc _ hroot => exact (inherits_of_no_parent hroot).2 (List.mem_singleton.1 ht)
  | after hc hs _ ih =>
    rw [hs.inherits_iff]
    rcases List.mem_append.1 ht with ht | ht
    · exact Or.inr (ih ht)
    · exact Or.inl (List.mem_singleton.1 ht)

/-- **The class and all its superclasses are prepared afterwards**, and what was before.  The walk
does not see the superclasses of a prepared class; they are there because that class is. -/
theorem mem_iff (h : Adds classes old c added) (hold : Settled classes old) :
    t ∈ old ++ added ↔ t ∈ old ∨ Inherits classes c t := by
  induction h with
  | present hc =>
    rw [List.append_nil]
    constructor
    · exact Or.inl
    · rintro (ht | ht)
      · exact ht
      · exact hold.inherits hc ht
  | alone hc _ hroot => rw [List.mem_append, List.mem_singleton, inherits_of_no_parent hroot]
  | after hc hs _ ih =>
    rw [← List.append_assoc, List.mem_append, ih, List.mem_singleton, hs.inherits_iff, or_assoc]
    exact or_congr_right or_comm

/-- Superclasses are added first. -/
theorem ordered (h : Adds classes old c added) :
    added.Pairwise fun s t => Relation.TransGen (HasParent classes) t s := by
  induction h with
  | present => exact List.Pairwise.nil
  | alone => exact List.pairwise_singleton _ _
  | after hc hs hadds ih =>
    rw [List.pairwise_append]
    refine ⟨ih, List.pairwise_singleton _ _, ?_⟩
    intro u hu b hb
    rw [List.mem_singleton.1 hb]
    exact Relation.TransGen.head' hs (hadds.inherits_of_mem hu)

/-- A call that comes to an end has met no cycle. -/
theorem acyclic (h : Adds classes old c added) (hold : Settled classes old) (hc : c ∉ old) :
    ¬ Relation.TransGen (HasParent classes) c c := by
  induction h with
  | present hmem => exact absurd hmem hc
  | alone _ _ hroot =>
    intro hcycle
    obtain ⟨s, hs, -⟩ := Relation.TransGen.head'_iff.1 hcycle
    exact hroot s hs
  | after _ hs _ ih =>
    intro hcycle
    obtain ⟨hback, hcycle'⟩ := hs.cycle hcycle
    refine ih ?_ hcycle'
    intro hmem
    exact hc (hold.inherits hmem hback)

theorem answered (h : Adds classes old c added) : ∀ b ∈ added, Answered classes b := by
  induction h with
  | present => simp
  | alone _ hc _ => simpa using hc
  | after _ hs _ ih =>
    rw [List.forall_mem_append]
    exact ⟨ih, by simpa using hs.answered⟩

/-- Each class added has those before it above it, and is not above itself. -/
theorem nodup (h : Adds classes old c added) (hold : Settled classes old) : added.Nodup := by
  induction h with
  | present => exact List.nodup_nil
  | alone => simp
  | after hc hs hadds ih =>
    rw [List.nodup_append]
    refine ⟨ih, by simp, ?_⟩
    intro u hu b hb hub
    rw [hub, List.mem_singleton.1 hb] at hu
    have hcycle := Relation.TransGen.head' hs (hadds.inherits_of_mem hu)
    exact (after hc hs hadds).acyclic hold hc hcycle

/-- A call keeps what holds of the prepared classes. -/
theorem settled (h : Adds classes old c added) (hold : Settled classes old) :
    Settled classes (old ++ added) := by
  refine ⟨?_, ?_, ?_⟩
  · intro b hb s hs
    rw [h.mem_iff hold] at hb ⊢
    rcases hb with hb | hb
    · exact Or.inl (hold.closed b hb s hs)
    · exact Or.inr (hb.tail hs)
  · rw [List.forall_mem_append]
    exact ⟨hold.answered, h.answered⟩
  · rw [List.nodup_append]
    refine ⟨hold.nodup, h.nodup hold, ?_⟩
    intro u hu b hb hub
    exact h.not_mem_old hb (hub ▸ hu)

end Adds

/-! ## 3. One call -/

namespace Machine

/-- The machine after classes are marked as prepared. -/
def marked (m : Machine) (names : List String) : Machine :=
  { m with
    prepared := m.prepared ++ names
    log := (names.map Event.prepare).reverse ++ m.log }

theorem marked_nil (m : Machine) : m.marked [] = m := by
  simp [marked]

theorem marked_append (m : Machine) (names : List String) (name : String) :
    m.marked (names ++ [name]) = (m.marked names).marked [name] := by
  simp [marked]

/-- The walk ends at a class that is prepared. -/
theorem prepareWithin_of_mem {name : String} {m : Machine} (h : name ∈ m.prepared) (fuel : Nat) :
    prepareWithin (fuel + 1) name m = (.ok (), m) := by
  rw [prepareWithin, Act.get_bind_apply, if_pos (List.contains_iff_mem.2 h)]
  rfl

/-- One step of the walk at a class that is not prepared.  It ends if the class has no answer or no
superclass; else it goes on to the superclass and marks the class after it. -/
theorem prepareWithin_step {name : String} {m : Machine} (h : name ∉ m.prepared) (fuel : Nat) :
    (¬ Answered m.classes name ∧ ∃ e, prepareWithin (fuel + 1) name m = (.error e, m)) ∨
    (Answered m.classes name ∧ (∀ s, ¬ HasParent m.classes name s) ∧
      prepareWithin (fuel + 1) name m = (.ok (), m.marked [name])) ∨
    (∃ s, HasParent m.classes name s ∧
      prepareWithin (fuel + 1) name m =
        (do prepareWithin fuel s; modify (·.marked [name]) : Act Machine Unit) m) := by
  have hcontains : ¬ m.prepared.contains name = true := fun hmem => h (List.contains_iff_mem.1 hmem)
  rw [prepareWithin, Act.get_bind_apply, if_neg hcontains]
  dsimp only
  cases harray : isArrayClass name with
  | true =>
    refine Or.inr (Or.inl ⟨Or.inl harray, ?_, rfl⟩)
    rintro s ⟨hclass, -⟩
    cases harray.symm.trans hclass
  | false =>
    rcases hr : m.classes with _ | r
    · refine Or.inl ⟨?_, _, rfl⟩
      rintro (h | ⟨r, s, h, -⟩)
      · cases harray.symm.trans h
      · cases h
    dsimp only
    rcases hsuper : r.superclass name with e | super
    · refine Or.inl ⟨?_, _, rfl⟩
      rintro (h | ⟨r', s, h, h'⟩)
      · cases harray.symm.trans h
      · cases h
        cases hsuper.symm.trans h'
    by_cases hempty : super = ""
    · refine Or.inr (Or.inl ⟨Or.inr ⟨r, super, rfl, hsuper⟩, ?_, ?_⟩)
      · rintro s ⟨-, hs, r', h, h'⟩
        cases h
        cases hsuper.symm.trans h'
        exact hs hempty
      · simp only [hempty]
        rfl
    · refine Or.inr (Or.inr ⟨super, ⟨harray, hempty, r, rfl, hsuper⟩, ?_⟩)
      simp only [hempty, ne_eq, not_false_eq_true, if_true]
      rfl

/-- How a call for a class ends: it fails and changes nothing, or it adds what is missing. -/
def CallEnds (m : Machine) (name : String) (p : Except Failure Unit × Machine) : Prop :=
  (∃ e, p = (.error e, m)) ∨
    ∃ added, Adds m.classes m.prepared name added ∧ p = (.ok (), m.marked added)

theorem prepareWithin_ends (fuel : Nat) (name : String) (m : Machine) :
    CallEnds m name (prepareWithin fuel name m) := by
  induction fuel generalizing name with
  | zero => exact Or.inl ⟨_, rfl⟩
  | succ fuel ih =>
    by_cases hmem : name ∈ m.prepared
    · refine Or.inr ⟨[], Adds.present hmem, ?_⟩
      rw [prepareWithin_of_mem hmem, marked_nil]
    rcases prepareWithin_step hmem fuel with ⟨-, e, hrun⟩ | ⟨hanswered, hnone, hrun⟩ |
      ⟨s, hs, hrun⟩
    · exact Or.inl ⟨e, hrun⟩
    · exact Or.inr ⟨[name], Adds.alone hmem hanswered hnone, hrun⟩
    · rw [hrun, Act.bind_apply]
      rcases ih s with ⟨e, hsuper⟩ | ⟨added, hadds, hsuper⟩
      · rw [hsuper]
        exact Or.inl ⟨e, rfl⟩
      · rw [hsuper]
        refine Or.inr ⟨added ++ [name], Adds.after hmem hs hadds, ?_⟩
        rw [marked_append]
        rfl

/-- A walk that may go as far as the superclasses reach fails only for want of an answer. -/
theorem prepareWithin_ok {fuel n : Nat} {name : String} {m : Machine}
    (hends : EndsWithin m.classes n name) (hfuel : n < fuel)
    (hanswered : ∀ t, Inherits m.classes name t → Answered m.classes t) :
    (prepareWithin fuel name m).1 = .ok () := by
  induction fuel generalizing name n with
  | zero => omega
  | succ fuel ih =>
    by_cases hmem : name ∈ m.prepared
    · rw [prepareWithin_of_mem hmem]
    rcases prepareWithin_step hmem fuel with ⟨hno, -⟩ | ⟨-, -, hrun⟩ | ⟨s, hs, hrun⟩
    · exact absurd (hanswered name Relation.ReflTransGen.refl) hno
    · rw [hrun]
    · have hsuper : (prepareWithin fuel s m).1 = .ok () := by
        cases n with
        | zero => exact absurd hs (hends s)
        | succ n =>
          refine ih (hends s hs) (by omega) ?_
          intro t ht
          exact hanswered t (hs.inherits_iff.2 (Or.inr ht))
      rw [hrun, Act.bind_apply]
      rcases prepareWithin_ends fuel s m with ⟨e, hfail⟩ | ⟨added, -, hdone⟩
      · rw [hfail] at hsuper
        cases hsuper
      · rw [hdone]
        rfl

theorem prepare_eq (name : String) (m : Machine) :
    prepare name m = prepareWithin (chainLimit m.classes + 1) name m := by
  rw [prepare, Act.get_bind_apply]
  cases m.classes <;> rfl

/-- **A call fails and changes nothing, or it adds what is missing.** -/
theorem prepare_ends (name : String) (m : Machine) : CallEnds m name (prepare name m) := by
  rw [prepare_eq]
  exact prepareWithin_ends _ name m

/-- A prepared class is not asked about. -/
theorem prepare_of_mem {name : String} {m : Machine} (h : name ∈ m.prepared) :
    prepare name m = (.ok (), m) := by
  rw [prepare_eq]
  exact prepareWithin_of_mem h _

/-- If the limit reaches the end of the chain, a call succeeds exactly if all classes on it have an
answer. -/
theorem prepare_ok_iff {name : String} {m : Machine} (hm : Settled m.classes m.prepared)
    (hends : EndsWithin m.classes (chainLimit m.classes) name) :
    (prepare name m).1 = .ok () ↔ ∀ t, Inherits m.classes name t → Answered m.classes t := by
  constructor
  · intro hok t ht
    rcases prepare_ends name m with ⟨e, hrun⟩ | ⟨added, hadds, -⟩
    · rw [hrun] at hok
      cases hok
    · exact (hadds.settled hm).answered t ((hadds.mem_iff hm).2 (Or.inr ht))
  · intro hanswered
    rw [prepare_eq]
    exact prepareWithin_ok hends (by omega) hanswered

/-! ## 4. All calls -/

/-- The machine after calls, of which some may fail. -/
def prepareAll : List String → Machine → Machine
  | [], m => m
  | c :: cs, m => prepareAll cs (prepare c m).2

theorem prepare_keeps {m : Machine} (hm : Settled m.classes m.prepared) (name : String) :
    (prepare name m).2.classes = m.classes ∧
      Settled m.classes (prepare name m).2.prepared ∧
      m.prepared ⊆ (prepare name m).2.prepared := by
  rcases prepare_ends name m with ⟨e, hrun⟩ | ⟨added, hadds, hrun⟩
  · rw [hrun]
    exact ⟨rfl, hm, List.Subset.refl _⟩
  · rw [hrun]
    exact ⟨rfl, hadds.settled hm, List.subset_append_left _ _⟩

theorem prepareAll_keeps {m : Machine} (hm : Settled m.classes m.prepared) (cs : List String) :
    (prepareAll cs m).classes = m.classes ∧ Settled m.classes (prepareAll cs m).prepared ∧
      m.prepared ⊆ (prepareAll cs m).prepared := by
  induction cs generalizing m with
  | nil => exact ⟨rfl, hm, List.Subset.refl _⟩
  | cons c cs ih =>
    obtain ⟨hclasses, hsettled, hsub⟩ := prepare_keeps hm c
    rw [← hclasses] at hsettled
    obtain ⟨hclasses', hsettled', hsub'⟩ := ih hsettled
    rw [hclasses] at hclasses' hsettled'
    exact ⟨hclasses', hsettled', List.Subset.trans hsub hsub'⟩

theorem settled_new (classes : Option ClassResolver) : Settled classes (new classes).prepared :=
  ⟨fun _ hb => absurd hb List.not_mem_nil, fun _ hb => absurd hb List.not_mem_nil,
    List.nodup_nil⟩

/-- **Classes are prepared after their superclasses.**  For every resolver, or none, and after any
calls on a new machine, whether they failed or not:

* the superclass of a prepared class is prepared;
* a call that fails changes nothing;
* a call that succeeds adds the class and all its superclasses, each once and superclasses first,
  and changes nothing else but the log.  After that, and after any further calls, the same call
  succeeds and changes nothing, whatever resolver is there to ask, if any;
* if the resolver lets the walk go up to the end, the call succeeds exactly if the class and all its
  superclasses have an answer. -/
theorem prepared_with_superclasses (classes : Option ClassResolver) (calls : List String)
    (c : String) :
    let m := prepareAll calls (.new classes)
    (∀ b ∈ m.prepared, ∀ s, HasParent classes b s → s ∈ m.prepared) ∧
    (∀ e m', prepare c m = (.error e, m') → m' = m) ∧
    (∀ m', prepare c m = (.ok (), m') →
      (∀ t, t ∈ m'.prepared ↔ t ∈ m.prepared ∨ Inherits classes c t) ∧
      m'.prepared.Nodup ∧
      (∃ added, m' = m.marked added ∧
        added.Pairwise fun s t => Relation.TransGen (HasParent classes) t s) ∧
      ∀ later classes',
        let k := { prepareAll later m' with classes := classes' }
        prepare c k = (.ok (), k)) ∧
    (EndsWithin classes (chainLimit classes) c →
      ((prepare c m).1 = .ok () ↔ ∀ t, Inherits classes c t → Answered classes t)) := by
  intro m
  obtain ⟨hclasses, hm, -⟩ := prepareAll_keeps (m := new classes) (settled_new classes) calls
  replace hclasses : m.classes = classes := hclasses
  replace hm : Settled m.classes m.prepared := by
    rw [hclasses]
    exact hm
  rw [← hclasses]
  refine ⟨hm.closed, ?_, ?_, prepare_ok_iff hm⟩
  · intro e m' hrun
    rcases prepare_ends c m with ⟨e', hrun'⟩ | ⟨added, -, hrun'⟩
    · cases hrun.symm.trans hrun'
      rfl
    · cases hrun.symm.trans hrun'
  · intro m' hrun
    rcases prepare_ends c m with ⟨e', hrun'⟩ | ⟨added, hadds, hrun'⟩
    · cases hrun.symm.trans hrun'
    · cases hrun.symm.trans hrun'
      have hsettled : Settled (m.marked added).classes (m.marked added).prepared :=
        hadds.settled hm
      refine ⟨fun t => hadds.mem_iff hm, hsettled.nodup, ⟨added, rfl, hadds.ordered⟩, ?_⟩
      intro later classes' k
      obtain ⟨-, -, hsub⟩ := prepareAll_keeps hsettled later
      have hc : c ∈ (m.marked added).prepared :=
        (hadds.mem_iff hm).2 (Or.inr Relation.ReflTransGen.refl)
      exact prepare_of_mem (m := k) (hsub hc)

/-- A class whose superclass is unknown is not marked, and an array needs no answer. -/
example : (prepareAll ["B", "[I", "B"] (.new (some
    { superclass := fun c => if c = "B" then .ok "A" else .error (.unknownClass c)
      isInstance := fun _ _ => .ok false
      depth := 2 }))).prepared = ["[I"] := by decide

end Machine

end Concolic
