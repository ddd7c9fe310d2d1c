import Concolic.Host.Basic
import Concolic.Proofs.Preparation
import Mathlib.Data.Finset.Card

/-
# The classes of a host

The host answers two kinds of questions from one list of superclasses.  As a resolver it names the
superclass of a class, and preparation goes up from there.  Asked for an instance it goes up itself,
and does not go at all if the type is the root.

Both walks see the same classes: the class, those that are listed above it, and the root, which
every class has above it whether it is listed or not (`inherits_iff`).  The walks are given a number
of steps; it is enough if no class is above itself, since then each step takes a listed class out of
the ones that are left (`endsWithin`).

With a cycle a walk need not end.  One that takes more steps than there are listed classes has come
twice to one of them, so it goes round for ever (`goes_on_forever`): the number of steps is also
enough to tell which walks never end.

The names of arrays are no class names here.  Preparation takes an array for a class without a
superclass, while every array is an instance of the root.
-/
namespace Concolic

/-- A name that a class can have: it is not empty and not that of arrays. -/
def IsClassName (name : String) : Prop := name ≠ "" ∧ Machine.isArrayClass name = false

namespace Host

/-- `s` is listed as the superclass of `c`.  The root has no superclass, whatever is listed. -/
def Listed (h : Host) (c s : String) : Prop := c ≠ Value.rootClass ∧ h.classes.lookup c = some s

/-- No class is above itself, and all listed superclasses are classes. -/
structure Hierarchy (h : Host) : Prop where
  acyclic : ∀ c, ¬ Relation.TransGen h.Listed c c
  named : ∀ c s, h.Listed c s → IsClassName s

variable {h : Host} {c s t : String}

/-! ## 1. One step up -/

theorem Listed.superclass (hl : h.Listed c s) : h.superclass c = s := by
  rw [Host.superclass, if_neg hl.1, hl.2]
  rfl

theorem Listed.unique (hs : h.Listed c s) (ht : h.Listed c t) : s = t :=
  hs.superclass.symm.trans ht.superclass

theorem superclass_root (h : Host) : h.superclass Value.rootClass = "" := if_pos rfl

theorem superclass_of_not_listed (hroot : c ≠ Value.rootClass) (hno : ∀ s, ¬ h.Listed c s) :
    h.superclass c = Value.rootClass := by
  rw [superclass, if_neg hroot]
  cases hs : h.classes.lookup c with
  | none => rfl
  | some s => exact absurd ⟨hroot, hs⟩ (hno s)

theorem hasParent_iff : HasParent (some h.resolver) c s ↔
    Machine.isArrayClass c = false ∧ s ≠ "" ∧ h.superclass c = s := by
  simp [HasParent, resolver]

theorem not_hasParent_root : ¬ HasParent (some h.resolver) Value.rootClass s := by
  intro hs
  obtain ⟨-, hne, hs⟩ := hasParent_iff.1 hs
  exact hne (hs.symm.trans h.superclass_root)

theorem isClassName_root : IsClassName Value.rootClass := by
  constructor <;> decide

/-- A class other than the root has a superclass, which is listed or is the root. -/
theorem Hierarchy.exists_parent (hh : h.Hierarchy) (hc : IsClassName c)
    (hroot : c ≠ Value.rootClass) :
    ∃ s, HasParent (some h.resolver) c s ∧ IsClassName s ∧ h.superclass c = s ∧
      (h.Listed c s ∨ (∀ s, ¬ h.Listed c s) ∧ s = Value.rootClass) := by
  by_cases hl : ∃ s, h.Listed c s
  · obtain ⟨s, hs⟩ := hl
    have hname := hh.named c s hs
    exact ⟨s, hasParent_iff.2 ⟨hc.2, hname.1, hs.superclass⟩, hname, hs.superclass, Or.inl hs⟩
  · have hno : ∀ s, ¬ h.Listed c s := not_exists.1 hl
    have hs := superclass_of_not_listed hroot hno
    exact ⟨_, hasParent_iff.2 ⟨hc.2, isClassName_root.1, hs⟩, isClassName_root, hs,
      Or.inr ⟨hno, rfl⟩⟩

/-! ## 2. The way up comes to an end -/

theorem eq_root_of_not_listed (hno : ∀ u, ¬ h.Listed c u) (hs : HasParent (some h.resolver) c s) :
    s = Value.rootClass := by
  have hroot : c ≠ Value.rootClass := by
    rintro rfl
    exact not_hasParent_root hs
  obtain ⟨-, -, hs⟩ := hasParent_iff.1 hs
  exact hs.symm.trans (superclass_of_not_listed hroot hno)

theorem endsWithin_root (h : Host) (n : Nat) :
    EndsWithin (some h.resolver) n Value.rootClass := by
  cases n with
  | zero =>
    intro s hs
    exact not_hasParent_root hs
  | succ n =>
    intro s hs
    exact absurd hs not_hasParent_root

theorem Listed.mem (hl : h.Listed c s) : (c, s) ∈ h.classes := by
  obtain ⟨before, after, hsplit, -⟩ := List.lookup_eq_some_iff.1 hl.2
  simp [hsplit]

/-- If all listed classes from `c` on are in `rest`, no more of them are on the way up.  A class
does not come twice, so each step up from a listed class takes it out of `rest`. -/
theorem Hierarchy.endsWithin_of_rest (hh : h.Hierarchy) {n : Nat} {rest : List String}
    (hrest : ∀ t u, Relation.ReflTransGen h.Listed c t → h.Listed t u → t ∈ rest)
    (hlength : rest.length ≤ n) : EndsWithin (some h.resolver) (n + 1) c := by
  induction n generalizing c rest with
  | zero =>
    intro s hs
    have hno : ∀ u, ¬ h.Listed c u := by
      intro u hu
      have hmem := hrest c u .refl hu
      rw [List.length_eq_zero_iff.1 (Nat.le_zero.1 hlength)] at hmem
      cases hmem
    rw [eq_root_of_not_listed hno hs]
    exact h.endsWithin_root 0
  | succ n ih =>
    intro s hs
    by_cases hl : ∃ u, h.Listed c u
    · obtain ⟨u, hu⟩ := hl
      obtain rfl : u = s := hu.superclass.symm.trans (hasParent_iff.1 hs).2.2
      have hc : c ∈ rest := hrest c u .refl hu
      have herased : ∀ t v, Relation.ReflTransGen h.Listed u t → h.Listed t v →
          t ∈ rest.erase c := by
        intro t v ht hv
        have hne : t ≠ c := by
          rintro rfl
          exact hh.acyclic t (Relation.TransGen.head' hu ht)
        exact (List.mem_erase_of_ne hne).2 (hrest t v (.head hu ht) hv)
      refine ih herased ?_
      rw [List.length_erase_of_mem hc]
      omega
    · rw [eq_root_of_not_listed (not_exists.1 hl) hs]
      exact h.endsWithin_root _

theorem Hierarchy.endsWithin (hh : h.Hierarchy) (c : String) {n : Nat}
    (hn : h.classes.length < n) : EndsWithin (some h.resolver) n c := by
  cases n with
  | zero => omega
  | succ n =>
    have hkeys : ∀ t u, Relation.ReflTransGen h.Listed c t → h.Listed t u →
        t ∈ h.classes.map Prod.fst := by
      intro t u _ hu
      exact List.mem_map_of_mem hu.mem
    refine hh.endsWithin_of_rest hkeys ?_
    simpa using Nat.lt_succ_iff.1 hn

/-! ## 3. What is on the way up -/

theorem transGen_listed_iff (hs : h.Listed c s) :
    Relation.TransGen h.Listed c t ↔ t = s ∨ Relation.TransGen h.Listed s t := by
  rw [Relation.TransGen.head'_iff]
  constructor
  · rintro ⟨s', hs', ht⟩
    rw [← hs.unique hs'] at ht
    rw [← Relation.reflTransGen_iff_eq_or_transGen]
    exact ht
  · intro ht
    exact ⟨s, hs, Relation.reflTransGen_iff_eq_or_transGen.2 ht⟩

theorem not_transGen_of_not_listed (hno : ∀ u, ¬ h.Listed c u) :
    ¬ Relation.TransGen h.Listed c t := by
  intro ht
  obtain ⟨u, hu, -⟩ := Relation.TransGen.head'_iff.1 ht
  exact hno u hu

theorem inherits_root_iff :
    Inherits (some h.resolver) Value.rootClass t ↔ t = Value.rootClass :=
  inherits_of_no_parent fun _ => not_hasParent_root

/-- **A class, the classes listed above it, and the root.** -/
theorem Hierarchy.inherits_iff (hh : h.Hierarchy) (hc : IsClassName c) {n : Nat}
    (hends : EndsWithin (some h.resolver) n c) :
    Inherits (some h.resolver) c t ↔
      t = c ∨ Relation.TransGen h.Listed c t ∨ t = Value.rootClass := by
  have hbase : Inherits (some h.resolver) Value.rootClass t ↔
      t = Value.rootClass ∨ Relation.TransGen h.Listed Value.rootClass t ∨
        t = Value.rootClass := by
    have hno : ∀ u, ¬ h.Listed Value.rootClass u := fun u hu => hu.1 rfl
    simp [inherits_root_iff, not_transGen_of_not_listed hno]
  induction n generalizing c with
  | zero =>
    by_cases hroot : c = Value.rootClass
    · rw [hroot]
      exact hbase
    · obtain ⟨s, hs, -⟩ := hh.exists_parent hc hroot
      exact absurd hs (hends s)
  | succ n ih =>
    by_cases hroot : c = Value.rootClass
    · rw [hroot]
      exact hbase
    · obtain ⟨s, hs, hname, -, hl | ⟨hno, rfl⟩⟩ := hh.exists_parent hc hroot
      · have habove : Inherits (some h.resolver) s t ↔ _ := ih hname (hends s hs)
        rw [hs.inherits_iff, habove, transGen_listed_iff hl, or_assoc]
      · rw [hs.inherits_iff, inherits_root_iff]
        simp [not_transGen_of_not_listed hno]

/-- The search for a type finds the classes on the way up, and comes to an answer. -/
theorem Hierarchy.extendsWithin_iff (hh : h.Hierarchy) (hc : IsClassName c) {n fuel : Nat}
    (hends : EndsWithin (some h.resolver) n c) (hfuel : n + 2 ≤ fuel) :
    ∃ b, h.extendsWithin t fuel c = some b ∧ (b = true ↔ Inherits (some h.resolver) c t) := by
  induction fuel generalizing c n with
  | zero => omega
  | succ fuel ih =>
    rw [extendsWithin, if_neg hc.1]
    by_cases ht : c = t
    · subst ht
      exact ⟨true, if_pos rfl, by simp [Inherits, Relation.ReflTransGen.refl]⟩
    rw [if_neg ht]
    by_cases hroot : c = Value.rootClass
    · -- the name above the root is empty, which ends the search
      subst hroot
      obtain ⟨fuel, rfl⟩ : ∃ k, fuel = k + 1 := ⟨fuel - 1, by omega⟩
      refine ⟨false, ?_, ?_⟩
      · rw [superclass_root, extendsWithin, if_pos rfl]
      · simp [inherits_root_iff, Ne.symm ht]
    · obtain ⟨s, hs, hname, hsuper, -⟩ := hh.exists_parent hc hroot
      cases n with
      | zero => exact absurd hs (hends s)
      | succ n =>
        obtain ⟨b, hb, hiff⟩ := ih hname (hends s hs) (by omega)
        refine ⟨b, by rw [hsuper, hb], ?_⟩
        rw [hiff, hs.inherits_iff]
        simp [Ne.symm ht]

/-- Every instance of a class is one of the classes on the way up. -/
theorem Hierarchy.isInstance_iff (hh : h.Hierarchy) (hc : IsClassName c) (object : String) :
    ∃ b, h.isInstance (.object object c) t = .ok b ∧
      (b = true ↔ Inherits (some h.resolver) c t) := by
  have hends := hh.endsWithin c (Nat.lt_succ_self h.classes.length)
  rw [isInstance]
  by_cases ht : t = Value.rootClass
  · refine ⟨true, if_pos ht, ?_⟩
    simp [hh.inherits_iff hc hends, ht]
  · obtain ⟨b, hb, hiff⟩ := hh.extendsWithin_iff (t := t) hc hends (Nat.le_refl _)
    refine ⟨b, ?_, hiff⟩
    rw [if_neg ht]
    exact congrArg Reply.ofOption hb

/-! ## 4. Preparation -/

/-- **What is prepared for a class is what its objects are instances of.**  In a list of
superclasses without cycles, and without empty names and names of arrays, every class can be
prepared.  On a new machine this prepares the class, those listed above it and the root, and the
question whether an object of the class is an instance of a type is answered by whether the type is
prepared then. -/
theorem prepared_iff_isInstance (hh : h.Hierarchy) (hc : IsClassName c) (object : String) :
    ∃ m, Machine.prepare c (.new (some h.resolver)) = (.ok (), m) ∧
      (∀ t, h.isInstance (.object object c) t = .ok (decide (t ∈ m.prepared))) ∧
      ∀ t, t ∈ m.prepared ↔
        t = c ∨ Relation.TransGen h.Listed c t ∨ t = Value.rootClass := by
  have hsettled := Machine.settled_new (some h.resolver)
  have hends := hh.endsWithin c (show h.classes.length < h.depth by simp [depth])
  have hok : (Machine.prepare c (.new (some h.resolver))).1 = .ok () := by
    refine (Machine.prepare_ok_iff hsettled hends).2 ?_
    intro t _
    exact Or.inr ⟨h.resolver, _, rfl, rfl⟩
  rcases Machine.prepare_ends c (.new (some h.resolver)) with ⟨e, hrun⟩ | ⟨added, hadds, hrun⟩
  · rw [hrun] at hok
    cases hok
  · have hmem : ∀ t, t ∈ ((Machine.new (some h.resolver)).marked added).prepared ↔
        Inherits (some h.resolver) c t := by
      intro t
      refine (hadds.mem_iff hsettled).trans ?_
      simp [Machine.new]
    refine ⟨_, hrun, ?_, ?_⟩
    · intro t
      obtain ⟨b, hb, hiff⟩ := hh.isInstance_iff (t := t) hc object
      rw [hb, Reply.ok.injEq, Bool.eq_iff_iff, hiff, decide_eq_true_iff, hmem]
    · intro t
      rw [hmem, hh.inherits_iff hc hends]

/-- A host with two listed classes, one above the other; what is above the upper one is not
listed. -/
def twoListed : Host := ⟨[("o", "C")], [], [("C", "B"), ("B", "A")]⟩

theorem twoListed_hierarchy : twoListed.Hierarchy := by
  have hcases : ∀ c s, twoListed.Listed c s → c = "C" ∧ s = "B" ∨ c = "B" ∧ s = "A" := by
    intro c s hl
    simpa [twoListed] using hl.mem
  -- a rank that goes down on every step up
  let rank : String → Nat := fun c => if c = "C" then 2 else if c = "B" then 1 else 0
  have hdown : ∀ c s, Relation.TransGen twoListed.Listed c s → rank s < rank c := by
    have hstep : ∀ c s, twoListed.Listed c s → rank s < rank c := by
      intro c s hl
      rcases hcases c s hl with ⟨rfl, rfl⟩ | ⟨rfl, rfl⟩
      · decide
      · decide
    intro c s hs
    induction hs with
    | single hl => exact hstep _ _ hl
    | tail _ hl ih => exact Nat.lt_trans (hstep _ _ hl) ih
  constructor
  · intro c hc
    exact Nat.lt_irrefl _ (hdown c c hc)
  · intro c s hl
    rcases hcases c s hl with ⟨-, rfl⟩ | ⟨-, rfl⟩
    · constructor <;> decide
    · constructor <;> decide

theorem twoListed_prepared :
    twoListed.Hierarchy ∧ IsClassName "C" ∧
    ∃ m, Machine.prepare "C" (.new (some twoListed.resolver)) = (.ok (), m) ∧
      twoListed.isInstance (.object "o" "C") "A" = .ok (decide ("A" ∈ m.prepared)) ∧
      "A" ∈ m.prepared ∧ Value.rootClass ∈ m.prepared := by
  have hname : IsClassName "C" := by constructor <;> decide
  obtain ⟨m, hrun, hinstance, hmem⟩ := prepared_iff_isInstance twoListed_hierarchy hname "o"
  have hA : Relation.TransGen twoListed.Listed "C" "A" :=
    .tail (.single (b := "B") ⟨by decide, by decide⟩) ⟨by decide, by decide⟩
  exact ⟨twoListed_hierarchy, hname, m, hrun, hinstance "A", (hmem "A").2 (Or.inr (Or.inl hA)),
    (hmem _).2 (Or.inr (Or.inr rfl))⟩

/-! ## 5. Ways up that do not end -/

/-- The class `n` steps up from `c`. -/
def above (h : Host) (n : Nat) (c : String) : String := h.superclass^[n] c

theorem above_succ (n : Nat) (c : String) : h.above (n + 1) c = h.above n (h.superclass c) := rfl

theorem superclass_above (n : Nat) (c : String) :
    h.superclass (h.above n c) = h.above (n + 1) c :=
  (Function.iterate_succ_apply' h.superclass n c).symm

/-- Every walk stops at the root or at the empty name above it, at the latest. -/
def StopsAtTop (P : String → Prop) : Prop := ¬ (P Value.rootClass ∧ P "")

section Walks

variable {P : String → Prop}

/-- A class from which a walk goes on for two steps is listed: what is above a class that is not is
the root. -/
theorem listed_of_goes_on (hP : StopsAtTop P) (h₀ : P c) (h₁ : P (h.superclass c))
    (h₂ : P (h.superclass (h.superclass c))) : h.Listed c (h.superclass c) := by
  by_cases hroot : c = Value.rootClass
  · subst hroot
    rw [superclass_root] at h₁
    exact absurd ⟨h₀, h₁⟩ hP
  · by_contra hl
    have hno : ∀ s, ¬ h.Listed c s := by
      intro s hs
      rw [hs.superclass] at hl
      exact hl hs
    rw [superclass_of_not_listed hroot hno] at h₁ h₂
    rw [superclass_root] at h₂
    exact absurd ⟨h₁, h₂⟩ hP

theorem listed_above (hP : StopsAtTop P) {n k : Nat} (hgo : ∀ i < n, P (h.above i c))
    (hk : k + 2 < n) : h.Listed (h.above k c) (h.above (k + 1) c) := by
  rw [← superclass_above]
  refine listed_of_goes_on hP (hgo k (by omega)) ?_ ?_
  · rw [superclass_above]
    exact hgo (k + 1) (by omega)
  · rw [superclass_above, superclass_above]
    exact hgo (k + 2) hk

/-- A walk that is longer than the list has come twice to one class. -/
theorem above_repeats (hP : StopsAtTop P) (hgo : ∀ i < h.depth + 1, P (h.above i c)) :
    ∃ i j, i < j ∧ j ≤ h.classes.length ∧ h.above i c = h.above j c := by
  have hkeys : ∀ k ∈ Finset.range (h.classes.length + 1),
      h.above k c ∈ (h.classes.map Prod.fst).toFinset := by
    intro k hk
    have hk : k < h.classes.length + 1 := Finset.mem_range.1 hk
    have hl := listed_above hP hgo (show k + 2 < h.depth + 1 by simp only [depth]; omega)
    exact List.mem_toFinset.2 (List.mem_map_of_mem hl.mem)
  have hcard : (h.classes.map Prod.fst).toFinset.card <
      (Finset.range (h.classes.length + 1)).card := by
    have hlength := List.toFinset_card_le (h.classes.map Prod.fst)
    rw [List.length_map] at hlength
    rwa [Finset.card_range, Nat.lt_succ_iff]
  obtain ⟨i, hi, j, hj, hne, heq⟩ := Finset.exists_ne_map_eq_of_card_lt_of_maps_to hcard hkeys
  rw [Finset.mem_range] at hi hj
  rcases Nat.lt_or_gt_of_ne hne with hlt | hlt
  · exact ⟨i, j, hlt, by omega, heq⟩
  · exact ⟨j, i, hlt, by omega, heq.symm⟩

/-- **A walk that is longer than the list goes on for ever.**  It has come back to a class, so what
is above has been seen. -/
theorem goes_on_forever (hP : StopsAtTop P) (hgo : ∀ i < h.depth + 1, P (h.above i c)) (n : Nat) :
    P (h.above n c) := by
  obtain ⟨i, j, hij, hj, heq⟩ := above_repeats hP hgo
  induction n using Nat.strong_induction_on with
  | _ n ih =>
    by_cases hn : n < j
    · exact hgo n (by simp only [depth]; omega)
    · -- the walk from place `j` on is the walk from place `i` on
      have hback : h.above n c = h.above (n - j + i) c := by
        have hsplit : n = n - j + j := by omega
        calc h.above n c = h.superclass^[n - j + j] c := by rw [← hsplit]; rfl
          _ = h.superclass^[n - j] (h.above j c) := Function.iterate_add_apply _ _ _ _
          _ = h.superclass^[n - j] (h.above i c) := by rw [heq]
          _ = h.above (n - j + i) c := (Function.iterate_add_apply _ _ _ _).symm
      rw [hback]
      exact ih _ (by omega)

/-- **A walk that goes on for ever goes round a cycle.** -/
theorem cycle_of_goes_on (hP : StopsAtTop P) (hgo : ∀ n, P (h.above n c)) :
    ∃ t, Relation.TransGen h.Listed t t := by
  obtain ⟨i, j, hij, -, heq⟩ := above_repeats hP fun n _ => hgo n
  have hstep (k : Nat) : h.Listed (h.above k c) (h.above (k + 1) c) :=
    listed_above hP (n := k + 3) (fun n _ => hgo n) (by omega)
  have hup (d : Nat) : Relation.TransGen h.Listed (h.above i c) (h.above (i + d + 1) c) := by
    induction d with
    | zero => exact .single (hstep i)
    | succ d ih => exact .tail ih (hstep (i + d + 1))
  have hcycle := hup (j - i - 1)
  rw [show i + (j - i - 1) + 1 = j by omega, ← heq] at hcycle
  exact ⟨_, hcycle⟩

end Walks

/-- The search for `type` from `c` on neither finds it nor comes to an end. -/
def SeeksForever (h : Host) (type c : String) : Prop :=
  ∀ n, h.above n c ≠ "" ∧ h.above n c ≠ type

/-- The walk of preparation from `c` on finds neither a prepared class nor one without a
superclass. -/
def ClimbsForever (h : Host) (prepared : List String) (c : String) : Prop :=
  ∀ n, h.above n c ∉ prepared ∧ ∃ s, HasParent (some h.resolver) (h.above n c) s

theorem stopsAtTop_seeking (type : String) : StopsAtTop fun c => c ≠ "" ∧ c ≠ type :=
  fun htop => htop.2.1 rfl

theorem stopsAtTop_climbing (h : Host) (prepared : List String) :
    StopsAtTop fun c => c ∉ prepared ∧ ∃ s, HasParent (some h.resolver) c s := by
  rintro ⟨⟨-, s, hs⟩, -⟩
  exact not_hasParent_root hs

theorem extendsWithin_eq_none_iff {fuel : Nat} :
    h.extendsWithin t fuel c = none ↔ ∀ n < fuel, h.above n c ≠ "" ∧ h.above n c ≠ t := by
  induction fuel generalizing c with
  | zero => simp [extendsWithin]
  | succ fuel ih =>
    rw [extendsWithin, Nat.forall_lt_succ_left]
    simp only [above_succ]
    rw [← ih]
    by_cases hempty : c = ""
    · simp [above, hempty]
    · by_cases ht : c = t
      · subst ht
        simp [above, hempty]
      · simp [above, hempty, ht]

/-- **The steps that are tried tell whether the search ever ends.** -/
theorem isInstance_eq_endless_iff {v : Value} :
    h.isInstance v t = .endless ↔
      t ≠ Value.rootClass ∧ ∃ object c, v = .object object c ∧ h.SeeksForever t c := by
  have hall (c : String) : h.extendsWithin t (h.depth + 1) c = none ↔ h.SeeksForever t c := by
    rw [extendsWithin_eq_none_iff]
    exact ⟨goes_on_forever (stopsAtTop_seeking t), fun hgo n _ => hgo n⟩
  unfold isInstance
  by_cases ht : t = Value.rootClass
  · simp [ht]
  · rw [if_neg ht]
    cases v with
    | object object c =>
      have hreply :
          (Reply.ofOption (h.extendsWithin t (h.depth + 1) c) : Reply Refusal Bool) = .endless ↔
            h.extendsWithin t (h.depth + 1) c = none := by
        cases h.extendsWithin t (h.depth + 1) c <;> simp [Reply.ofOption]
      simp [hreply, hall, ht]
    | _ => simp

theorem prepareWithin_eq_endless_iff {m : Machine} (hm : m.classes = some h.resolver) {fuel : Nat} :
    (Machine.prepareWithin fuel c m).1 = .error .endless ↔
      ∀ n < fuel, h.above n c ∉ m.prepared ∧
        ∃ s, HasParent (some h.resolver) (h.above n c) s := by
  induction fuel generalizing c with
  | zero => simp [Machine.prepareWithin]
  | succ fuel ih =>
    rw [Nat.forall_lt_succ_left]
    simp only [above_succ]
    by_cases hmem : c ∈ m.prepared
    · simp [Machine.prepareWithin_of_mem hmem, above, hmem]
    rcases Machine.prepareWithin_step hmem fuel with ⟨hno, -⟩ | ⟨-, hnone, hrun⟩ | ⟨s, hs, hrun⟩
    · exact absurd (Or.inr ⟨h.resolver, _, hm, rfl⟩) hno
    · rw [hm] at hnone
      simp [hrun, above, hnone]
    · rw [hm] at hs
      have hsuper : h.superclass c = s := (hasParent_iff.1 hs).2.2
      rw [hsuper, ← ih, hrun, Act.bind_apply]
      have hpar : ∃ s, HasParent (some h.resolver) c s := ⟨s, hs⟩
      rcases Machine.prepareWithin fuel s m with ⟨e | x, m'⟩
      · simp [above, hmem, hpar]
      · refine iff_of_false (fun hend => ?_) fun hall => ?_
        · cases hend
        · cases hall.2

/-- **The steps that are tried tell whether preparation ever ends.** -/
theorem prepare_eq_endless_iff {m : Machine} (hm : m.classes = some h.resolver) :
    (Machine.prepare c m).1 = .error .endless ↔ h.ClimbsForever m.prepared c := by
  rw [Machine.prepare_eq, prepareWithin_eq_endless_iff hm, hm]
  exact ⟨goes_on_forever (stopsAtTop_climbing h m.prepared), fun hgo n _ => hgo n⟩

end Host

end Concolic
