import Concolic.Proofs.Reports
import Mathlib.Data.List.DropRight
import Mathlib.Data.List.Induction

/-
# What a path condition keeps of its reports

A path condition gets reports one after the other.  Some support, and are held back; others decide,
and take with them what was held back since the last decision.  The reports between two decisions
are a window.  Within a window, a constraint that reads like an earlier one is not held twice.

Here this is said of the whole list of reports, without the path condition on the way: for each
report, whether it repeats something of its window, and what supports it if it decides
(`kept_of_reports`).

The path condition does not look at the texts themselves but at the hashes it has seen.  These are
at all times the hashes of the pending constraints (`coherent_ofReports`), so as long as no two
texts of a window have the same hash, a hash was seen exactly if the text is pending (`support_eq`).
With this a path condition that is right about the reports so far (`Logs`) is right after one more.
The check for repetition finds what was kept only, which is enough, as what was left out reads like
something that was kept (`readIn_firsts`).
-/
namespace Concolic

/-! ## 1. Lists with what came before -/

/-- Every entry of a list with the entries before it. -/
def withEarlier (l : List α) : List (List α × α) := l.zipIdx.map fun x => (l.take x.2, x.1)

/-- What came before an entry stays when the list grows. -/
theorem withEarlier_append (l : List α) (a : α) :
    withEarlier (l ++ [a]) = withEarlier l ++ [(l, a)] := by
  have hold : l.zipIdx.map (fun x => ((l ++ [a]).take x.2, x.1)) = withEarlier l := by
    refine List.map_congr_left fun x hx => ?_
    have hlt : x.2 < l.length := List.snd_lt_of_mem_zipIdx hx
    rw [List.take_append_of_le_length (Nat.le_of_lt hlt)]
  rw [withEarlier, List.zipIdx_append, List.map_append, hold]
  simp

/-! ## 2. Constraints that read the same -/

namespace Constraint

/-- The normal form of a constraint; one without a normal form stands for itself. -/
def normalForm (c : Constraint) : Constraint := c.normalize.toOption.getD c

theorem normalize_eq {c : Constraint} (h : c.Valid) : c.normalize = .ok c.normalForm := by
  obtain ⟨d, hd⟩ := normalize_of_valid h
  rw [normalForm, hd]
  rfl

/-- Whether one of the constraints reads like `c`. -/
def readIn (cs : List Constraint) (c : Constraint) : Bool := cs.any fun d => d.render = c.render

/-- Of the constraints that read the same, the first. -/
def firsts (cs : List Constraint) : List Constraint :=
  ((withEarlier cs).filter fun x => !readIn x.1 x.2).map Prod.snd

theorem firsts_append (cs : List Constraint) (c : Constraint) :
    firsts (cs ++ [c]) = if readIn cs c then firsts cs else firsts cs ++ [c] := by
  unfold firsts
  rw [withEarlier_append, List.filter_append, List.map_append]
  cases h : readIn cs c <;> simp [h]

/-- What is left out reads like something that is kept. -/
theorem readIn_firsts (cs : List Constraint) (c : Constraint) :
    readIn (firsts cs) c = readIn cs c := by
  induction cs using List.reverseRecOn with
  | nil => rfl
  | append_singleton cs d ih =>
    have hsnoc : ∀ l : List Constraint,
        readIn (l ++ [d]) c = (readIn l c || d.render = c.render) := by
      intro l
      simp [readIn]
    rw [firsts_append, hsnoc]
    cases hd : readIn cs d with
    | false => rw [if_neg Bool.false_ne_true, hsnoc, ih]
    | true =>
      rw [if_pos rfl, ih]
      by_cases hread : d.render = c.render
      · have hc : readIn cs c = true := by
          rw [readIn, ← hread]
          exact hd
        rw [hc]
        rfl
      · simp [hread]

theorem mem_of_mem_firsts {cs : List Constraint} {c : Constraint} (h : c ∈ firsts cs) : c ∈ cs := by
  induction cs using List.reverseRecOn with
  | nil => exact h
  | append_singleton cs d ih =>
    rw [firsts_append] at h
    split at h
    · exact List.mem_append_left _ (ih h)
    · rcases List.mem_append.mp h with h | h
      · exact List.mem_append_left _ (ih h)
      · exact List.mem_append_right _ h

/-- None of the constraints has the hash of `c` unless it reads like `c`. -/
def NoCollision (hash : String → UInt64) (cs : List Constraint) (c : Constraint) : Prop :=
  ∀ d ∈ cs, hash d.render = hash c.render → d.render = c.render

instance (hash : String → UInt64) (cs : List Constraint) (c : Constraint) :
    Decidable (NoCollision hash cs c) :=
  inferInstanceAs (Decidable (∀ d ∈ cs, _))

end Constraint

/-! ## 3. Windows -/

namespace Report

/-- Whether the report decides nothing. -/
def supports : Report → Bool
  | supporting _ => true
  | _ => false

/-- The decision that is reported, in normal form and without what supports it. -/
def decision? : Report → Option Condition
  | supporting _ => none
  | array c cls m negated => some ⟨.array, cls, m, -1, negated, c.normalForm, []⟩
  | branch c cls m n => some ⟨.branch, cls, m, n, false, c.normalForm, []⟩

/-- The normal forms of what was reported since the last decision. -/
def window (reps : List Report) : List Constraint :=
  (reps.rtakeWhile supports).map fun rep => rep.constraint.normalForm

/-- Whether the report, made after `reps`, repeats something of its window. -/
def repeats (reps : List Report) (rep : Report) : Bool :=
  rep.supports && Constraint.readIn (window reps) rep.constraint.normalForm

theorem window_append_supporting (reps : List Report) (c : Constraint) :
    window (reps ++ [.supporting c]) = window reps ++ [c.normalForm] := by
  rw [window, List.rtakeWhile_concat_pos _ _ _ rfl, List.map_append]
  rfl

theorem window_append_decision (reps : List Report) {rep : Report} (h : rep.supports = false) :
    window (reps ++ [rep]) = [] := by
  rw [window, List.rtakeWhile_concat_neg _ _ _ (by simp [h])]
  rfl

end Report

/-! ## 4. What was seen -/

/-- The path condition after reports. -/
def PathCondition.ofReports (hash : String → UInt64) (reps : List Report) :
    Except Malformed PathCondition :=
  reps.foldlM (fun pc rep => (pc.report rep).map Prod.fst) { hash }

namespace PathCondition

open Report

variable {hash : String → UInt64} {reps : List Report} {pc : PathCondition}

theorem ofReports_append (hash : String → UInt64) (reps : List Report) (rep : Report) :
    ofReports hash (reps ++ [rep]) =
      ofReports hash reps >>= fun pc => (pc.report rep).map Prod.fst := by
  rw [ofReports, List.foldlM_append]
  simp [ofReports]

/-- The hashes that were seen are those of the pending constraints. -/
def Coherent (pc : PathCondition) : Prop := pc.seen = pc.pending.map fun c => pc.hash c.render

theorem Coherent.support (h : pc.Coherent) (c : Constraint) : (pc.support c).Coherent := by
  unfold PathCondition.support
  dsimp only
  split
  · exact h
  · rw [Coherent, List.map_append, ← h]
    rfl

theorem coherent_decide (pc : PathCondition) (d : Condition) : (pc.decide d).Coherent := rfl

theorem support_hash (pc : PathCondition) (c : Constraint) : (pc.support c).hash = pc.hash := by
  unfold support
  dsimp only
  split <;> rfl

/-- **A report keeps what was seen in step with what is pending.** -/
theorem Coherent.report (h : pc.Coherent) {rep : Report} {pc' : PathCondition}
    {o : Option Condition} (hreport : pc.report rep = .ok (pc', o)) :
    pc'.Coherent ∧ pc'.hash = pc.hash := by
  obtain ⟨n, -, rfl | ⟨d, -, rfl⟩⟩ := report_cases hreport
  · exact ⟨h.support n, pc.support_hash n⟩
  · exact ⟨pc.coherent_decide d, rfl⟩

/-- So do all reports of a list, whatever the hash. -/
theorem coherent_ofReports (h : ofReports hash reps = .ok pc) : pc.Coherent ∧ pc.hash = hash := by
  induction reps using List.reverseRecOn generalizing pc with
  | nil =>
    cases h
    exact ⟨rfl, rfl⟩
  | append_singleton reps rep ih =>
    rw [ofReports_append] at h
    cases hbefore : ofReports hash reps with
    | error e =>
      rw [hbefore] at h
      cases h
    | ok pc₀ =>
      obtain ⟨hcoherent, hhash⟩ := ih hbefore
      rw [hbefore] at h
      cases hreport : pc₀.report rep with
      | error e =>
        change (pc₀.report rep).map Prod.fst = _ at h
        rw [hreport] at h
        cases h
      | ok p =>
        change (pc₀.report rep).map Prod.fst = _ at h
        rw [hreport] at h
        cases h
        obtain ⟨hcoherent', hhash'⟩ := hcoherent.report hreport
        exact ⟨hcoherent', hhash'.trans hhash⟩

/-- Without a collision, the hash of a text was seen exactly if the text is pending. -/
theorem Coherent.contains_seen (h : pc.Coherent) {c : Constraint}
    (hno : Constraint.NoCollision pc.hash pc.pending c) :
    pc.seen.contains (pc.hash c.render) = Constraint.readIn pc.pending c := by
  rw [Bool.eq_iff_iff, List.contains_iff_mem, h, List.mem_map, Constraint.readIn, List.any_eq_true]
  refine exists_congr fun d => and_congr_right fun hd => ?_
  rw [decide_eq_true_iff]
  exact ⟨hno d hd, congrArg pc.hash⟩

theorem support_eq (h : pc.Coherent) {c : Constraint}
    (hno : Constraint.NoCollision pc.hash pc.pending c) :
    pc.support c = if Constraint.readIn pc.pending c then pc
      else { pc with pending := pc.pending ++ [c], seen := pc.seen ++ [pc.hash c.render] } := by
  rw [← h.contains_seen hno]
  rfl

/-! ## 5. The log -/

/-- The path condition holds what should be kept of the reports. -/
structure Logs (reps : List Report) (pc : PathCondition) : Prop where
  constraints : pc.constraints =
    ((withEarlier reps).filter fun x => !x.2.repeats x.1).map fun x => x.2.constraint.normalForm
  conditions : pc.conditions = (withEarlier reps).filterMap fun x =>
    x.2.decision?.map fun d => { d with supporting := Constraint.firsts (window x.1) }
  pending : pc.pending = Constraint.firsts (window reps)

theorem constraints_support (h : pc.Coherent) {c : Constraint}
    (hno : Constraint.NoCollision pc.hash pc.pending c) :
    (pc.support c).constraints =
      if Constraint.readIn pc.pending c then pc.constraints else pc.constraints ++ [c] := by
  rw [support_eq h hno]
  split
  · rfl
  · exact (List.append_assoc ..).symm

theorem constraints_decide (pc : PathCondition) (d : Condition) :
    (pc.decide d).constraints = pc.constraints ++ [d.constraint] := by
  simp [decide, constraints]

/-- A supporting constraint joins the window, unless it repeats one of it. -/
theorem Logs.support (h : Logs reps pc) (hcoherent : pc.Coherent) {c : Constraint}
    (hno : Constraint.NoCollision pc.hash (window reps) c.normalForm) :
    Logs (reps ++ [.supporting c]) (pc.support c.normalForm) := by
  have hread : Constraint.readIn pc.pending c.normalForm = repeats reps (.supporting c) := by
    rw [h.pending, Constraint.readIn_firsts]
    rfl
  have hpending : Constraint.NoCollision pc.hash pc.pending c.normalForm := by
    intro d hd
    rw [h.pending] at hd
    exact hno d (Constraint.mem_of_mem_firsts hd)
  constructor
  · rw [constraints_support hcoherent hpending, hread, withEarlier_append, List.filter_append,
      List.map_append, ← h.constraints]
    cases hrep : repeats reps (.supporting c) <;> simp [hrep, Report.constraint]
  · have hsame : (pc.support c.normalForm).conditions = pc.conditions := by
      rw [support_eq hcoherent hpending]
      split <;> rfl
    rw [hsame, withEarlier_append, List.filterMap_append, ← h.conditions]
    exact (List.append_nil _).symm
  · rw [window_append_supporting, Constraint.firsts_append, support_eq hcoherent hpending, hread,
      ← h.pending]
    change _ = if repeats reps (.supporting c) then _ else _
    split <;> rfl

/-- A decision takes what supports it, and its window ends. -/
theorem Logs.decide (h : Logs reps pc) {rep : Report} {d : Condition}
    (hd : rep.decision? = some d) : Logs (reps ++ [rep]) (pc.decide d) := by
  have hsupports : rep.supports = false := by
    cases rep with
    | supporting c => cases hd
    | array | branch => rfl
  have hconstraint : d.constraint = rep.constraint.normalForm := by
    cases rep with
    | supporting c => cases hd
    | array | branch =>
      cases hd
      rfl
  have hfresh : rep.repeats reps = false := by rw [repeats, hsupports, Bool.false_and]
  constructor
  · rw [constraints_decide, withEarlier_append, List.filter_append, List.map_append,
      ← h.constraints, hconstraint]
    simp [hfresh]
  · rw [withEarlier_append, List.filterMap_append, ← h.conditions]
    simp [PathCondition.decide, hd, h.pending]
  · rw [window_append_decision reps hsupports]
    rfl

/-- One more report with a normal form is taken, and the path condition is right about it. -/
theorem Logs.report (h : Logs reps pc) (hcoherent : pc.Coherent) {rep : Report}
    (hvalid : rep.constraint.Valid) (hno : rep.supports = true →
      Constraint.NoCollision pc.hash (window reps) rep.constraint.normalForm) :
    ∃ pc', (pc.report rep).map Prod.fst = .ok pc' ∧ Logs (reps ++ [rep]) pc' := by
  cases rep with
  | supporting c =>
    have hnormal : c.normalize = .ok c.normalForm := Constraint.normalize_eq hvalid
    refine ⟨_, ?_, h.support hcoherent (hno rfl)⟩
    rw [PathCondition.report, hnormal]
    rfl
  | array c cls m negated =>
    have hnormal : c.normalize = .ok c.normalForm := Constraint.normalize_eq hvalid
    refine ⟨_, ?_, h.decide rfl⟩
    rw [PathCondition.report, hnormal]
    rfl
  | branch c cls m n =>
    have hnormal : c.normalize = .ok c.normalForm := Constraint.normalize_eq hvalid
    refine ⟨_, ?_, h.decide rfl⟩
    rw [PathCondition.report, hnormal]
    rfl

/-- No supporting constraint has the hash of another one of its window that reads differently. -/
def HashesApart (hash : String → UInt64) (reps : List Report) : Prop :=
  ∀ x ∈ withEarlier reps, x.2.supports = true →
    Constraint.NoCollision hash (window x.1) x.2.constraint.normalForm

instance (hash : String → UInt64) (reps : List Report) : Decidable (HashesApart hash reps) :=
  inferInstanceAs (Decidable (∀ x ∈ withEarlier reps, _))

theorem HashesApart.append {rep : Report} (h : HashesApart hash (reps ++ [rep])) :
    HashesApart hash reps ∧ (rep.supports = true →
      Constraint.NoCollision hash (window reps) rep.constraint.normalForm) := by
  unfold HashesApart at h ⊢
  rw [withEarlier_append, List.forall_mem_append, List.forall_mem_singleton] at h
  exact h

/-- So are all reports of a list. -/
theorem logs_ofReports (hvalid : ∀ rep ∈ reps, rep.constraint.Valid)
    (hapart : HashesApart hash reps) : ∃ pc, ofReports hash reps = .ok pc ∧ Logs reps pc := by
  induction reps using List.reverseRecOn with
  | nil => exact ⟨{ hash }, rfl, rfl, rfl, rfl⟩
  | append_singleton reps rep ih =>
    obtain ⟨hearlier, hno⟩ := hapart.append
    obtain ⟨pc, hpc, hlogs⟩ := ih (fun rep' h => hvalid rep' (List.mem_append_left _ h)) hearlier
    obtain ⟨hcoherent, rfl⟩ := coherent_ofReports hpc
    obtain ⟨pc', hpc', hlogs'⟩ := hlogs.report hcoherent (hvalid rep (by simp)) hno
    refine ⟨pc', ?_, hlogs'⟩
    rw [ofReports_append, hpc]
    exact hpc'

/-- **A path condition is a faithful log of its reports.**  All constraints are there in normal form
and in order, but for those that repeat something of their window.  Every decision is there with
what was kept of the window it ends, and what was kept of the open window is pending.  The hashes
that were seen are those of what is pending.

This holds for every hash that keeps apart the supporting constraints of each window. -/
theorem kept_of_reports (hvalid : ∀ rep ∈ reps, rep.constraint.Valid)
    (hapart : HashesApart hash reps) :
    ∃ pc, ofReports hash reps = .ok pc ∧
      pc.constraints = ((withEarlier reps).filter fun x => !x.2.repeats x.1).map
        (fun x => x.2.constraint.normalForm) ∧
      pc.conditions = (withEarlier reps).filterMap (fun x => x.2.decision?.map fun d =>
        { d with supporting := Constraint.firsts (window x.1) }) ∧
      pc.pending = Constraint.firsts (window reps) ∧
      pc.seen = pc.pending.map fun c => hash c.render := by
  obtain ⟨pc, hpc, hlogs⟩ := logs_ofReports hvalid hapart
  obtain ⟨hcoherent, rfl⟩ := coherent_ofReports hpc
  exact ⟨pc, hpc, hlogs.constraints, hlogs.conditions, hlogs.pending, hcoherent⟩

/-- An input that should be no zero. -/
def divisor : IntExpr := .var ⟨"y", 2, -9, 9⟩

def dividend : IntExpr := .var ⟨"x", 1, -9, 9⟩

/-- Two divisions by `y`, a branch on a comparison, one more division and an access. -/
def dividedTwice : List Report :=
  [.supporting (.relate divisor .ne (.const 0)),
   .supporting (.relate divisor .ne (.const 0)),
   .branch (.relate (.compare dividend divisor (-1)) .lt (.const 0)) "T" "m" 3,
   .supporting (.relate divisor .ne (.const 0)),
   .array (.relate dividend .ge (.const 0)) "T" "m" false,
   .supporting (.relate dividend .ne (.const 0))]

theorem dividedTwice_kept :
    (∀ rep ∈ dividedTwice, rep.constraint.Valid) ∧ HashesApart Text.xxhash64 dividedTwice ∧
    ∃ pc, ofReports Text.xxhash64 dividedTwice = .ok pc ∧
      pc.constraints =
        [.relate divisor .ne (.const 0), .relate dividend .lt divisor,
          .relate divisor .ne (.const 0), .relate dividend .ge (.const 0),
          .relate dividend .ne (.const 0)] ∧
      pc.conditions =
        [⟨.branch, "T", "m", 3, false, .relate dividend .lt divisor,
            [.relate divisor .ne (.const 0)]⟩,
          ⟨.array, "T", "m", -1, false, .relate dividend .ge (.const 0),
            [.relate divisor .ne (.const 0)]⟩] ∧
      pc.pending = [.relate dividend .ne (.const 0)] ∧
      pc.seen = [Text.xxhash64 "x != (int 0)"] := by
  have hvalid : ∀ rep ∈ dividedTwice, rep.constraint.Valid := by
    simp only [dividedTwice, List.forall_mem_cons]
    exact ⟨⟨_, rfl⟩, ⟨_, rfl⟩, ⟨_, rfl⟩, ⟨_, rfl⟩, ⟨_, rfl⟩, ⟨_, rfl⟩,
      fun _ h => absurd h List.not_mem_nil⟩
  have hapart : HashesApart Text.xxhash64 dividedTwice := by decide +kernel
  obtain ⟨pc, hpc, hconstraints, hconditions, hpending, hseen⟩ := kept_of_reports hvalid hapart
  have hlast : pc.pending = [.relate dividend .ne (.const 0)] := hpending.trans (by decide +kernel)
  refine ⟨hvalid, hapart, pc, hpc, hconstraints.trans ?_, hconditions.trans ?_, hlast, ?_⟩
  · decide +kernel
  · decide +kernel
  · rw [hseen, hlast]
    decide +kernel

end PathCondition

end Concolic
