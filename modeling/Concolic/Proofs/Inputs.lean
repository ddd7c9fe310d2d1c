import Concolic.Proofs.Declarations
import Mathlib.Data.List.Perm.Basic

/-
# The inputs of constraints

The inputs of a list of constraints are found by a walk that skips every part without inputs, are
kept in a table by name, and are sorted by name.  If inputs with one name are one input, the result
says nothing about the way it was made: it has exactly the inputs that occur in the constraints,
whatever order they are met in.

Two facts carry this.  The skipped parts have no inputs, so the walk meets all of them
(`mem_variables_iff`).  And names in the result strictly increase (`pairwise_name_lt_variables`), so
it is determined by its members (`variables_eq_of_mem_iff`).  The second needs no assumption on
names, since the table has one input for each.
-/
namespace Concolic

/-! ## 1. Sorting -/

namespace Sorting

section

variable {α : Type} {le : α → α → Bool}
variable (total : ∀ x y, le x y = false → le y x = true)
variable (trans : ∀ x y z, le x y = true → le y z = true → le x z = true)

include total trans

theorem pairwise_insertBy (x : α) {xs : List α} (h : xs.Pairwise fun y z => le y z = true) :
    (insertBy le x xs).Pairwise fun y z => le y z = true := by
  induction xs with
  | nil => simp [insertBy]
  | cons y ys ih =>
    obtain ⟨hy, hys⟩ := List.pairwise_cons.1 h
    unfold insertBy
    split
    next hxy =>
      refine List.pairwise_cons.2 ⟨?_, h⟩
      intro z hz
      rcases List.mem_cons.1 hz with rfl | hz
      · exact hxy
      · exact trans x y z hxy (hy z hz)
    next hxy =>
      refine List.pairwise_cons.2 ⟨?_, ih hys⟩
      intro z hz
      rcases List.mem_cons.1 ((insertBy_perm le x ys).mem_iff.1 hz) with rfl | hz
      · exact total z y (by simpa using hxy)
      · exact hy z hz

theorem pairwise_sortBy (xs : List α) : (sortBy le xs).Pairwise fun y z => le y z = true := by
  induction xs with
  | nil => exact .nil
  | cons x xs ih => exact pairwise_insertBy total trans x ih

end

theorem textLe_iff {a b : String} : textLe a b = true ↔ a ≤ b := by
  rw [textLe, Bool.not_eq_true', decide_eq_false_iff_not, String.not_lt]

theorem textLe_total (a b : String) (h : textLe a b = false) : textLe b a = true := by
  rw [textLe, Bool.not_eq_false', decide_eq_true_iff] at h
  exact textLe_iff.2 (String.not_lt.1 (String.lt_asymm h))

theorem textLe_trans (a b c : String) (hab : textLe a b = true) (hbc : textLe b c = true) :
    textLe a c = true :=
  textLe_iff.2 (String.le_trans (textLe_iff.1 hab) (textLe_iff.1 hbc))

end Sorting

/-! ## 2. Inputs of expressions -/

/-- An expression is symbolic exactly if an input is a node of it. -/
theorem Expr.exists_mem_nodes_iff (e : Expr) :
    (∃ x : Variable, x.toExpr ∈ e.nodes) ↔ e.isSymbolic = true := by
  rw [← Bool.not_eq_false, ← ground_iff]
  constructor
  · rintro ⟨x, hx⟩ hground
    exact not_mem_nodes_of_ground hground x hx
  · intro hground
    by_contra hnone
    refine hground fun s hs => Option.eq_none_iff_forall_ne_some.2 ?_
    intro x hx
    exact hnone ⟨x, asVariable?_eq_some.1 hx ▸ hs⟩

/-! ## 3. One input for each name -/

theorem Variable.pairwise_name_ne_lastOfName (xs : List Variable) :
    (lastOfName xs).Pairwise fun x y => x.name ≠ y.name := by
  induction xs with
  | nil => exact .nil
  | cons x xs ih =>
    unfold lastOfName
    split
    · exact ih
    next hany =>
      refine List.pairwise_cons.2 ⟨?_, ih⟩
      intro y hy hname
      refine hany (List.any_eq_true.2 ⟨y, (lastOfName_sublist xs).subset hy, ?_⟩)
      simp [hname]

namespace Constraint

theorem pairwise_name_lt_variables (cs : List Constraint) :
    (Constraint.variables cs).Pairwise fun x y => x.name < y.name := by
  have hle := Sorting.pairwise_sortBy
    (fun x y : Variable => Sorting.textLe_total x.name y.name)
    (fun x y z : Variable => Sorting.textLe_trans x.name y.name z.name)
    (Variable.lastOfName (cs.flatMap fun c => c.left.variables ++ c.right.variables))
  have hne : (Constraint.variables cs).Pairwise fun x y => x.name ≠ y.name := by
    rw [Constraint.variables, (Sorting.sortBy_perm _ _).pairwise_iff Ne.symm]
    exact Variable.pairwise_name_ne_lastOfName _
  refine (hle.and hne).imp ?_
  rintro x y ⟨hxy, hne⟩
  by_contra hlt
  exact hne (String.le_antisymm (Sorting.textLe_iff.1 hxy) (String.not_lt.1 hlt))

/-- Lists of inputs made this way are equal as soon as they have the same members. -/
theorem variables_eq_of_mem_iff {cs ds : List Constraint}
    (h : ∀ x, x ∈ Constraint.variables cs ↔ x ∈ Constraint.variables ds) :
    Constraint.variables cs = Constraint.variables ds := by
  have hperm : (Constraint.variables cs).Perm (Constraint.variables ds) :=
    (List.perm_ext_iff_of_nodup (nodup_variables cs) (nodup_variables ds)).2 h
  refine hperm.eq_of_pairwise ?_ (pairwise_name_lt_variables cs) (pairwise_name_lt_variables ds)
  intro x y _ _ hxy hyx
  exact absurd hxy (String.lt_asymm hyx)

/-! ## 4. Rearranged constraints -/

/-- The sides are the same, in this order or exchanged. -/
def SameSides (c d : Constraint) : Prop :=
  (d.left = c.left ∧ d.right = c.right) ∨ (d.left = c.right ∧ d.right = c.left)

theorem SameSides.mentions_iff {c d : Constraint} (h : SameSides c d) (x : Variable) :
    d.Mentions x ↔ c.Mentions x := by
  unfold Mentions
  rcases h with ⟨hleft, hright⟩ | ⟨hleft, hright⟩
  · rw [hleft, hright]
  · rw [hleft, hright, or_comm]

theorem mentioned_iff_of_perm {cs ds : List Constraint} (h : cs.Perm ds) (x : Variable) :
    Mentioned ds x ↔ Mentioned cs x := by
  simp only [Mentioned, h.mem_iff]

theorem mentioned_iff_of_sameSides {cs ds : List Constraint} (h : List.Forall₂ SameSides cs ds)
    (x : Variable) : Mentioned ds x ↔ Mentioned cs x := by
  induction h with
  | nil => exact Iff.rfl
  | cons hcd _ ih =>
    simp only [Mentioned] at ih
    simp only [Mentioned, List.exists_mem_cons_iff, hcd.mentions_iff, ih]

theorem exists_mentions_iff (c : Constraint) : (∃ x, c.Mentions x) ↔ c.isSymbolic = true := by
  simp only [Mentions, exists_or, Expr.exists_mem_nodes_iff, isSymbolic, Bool.or_eq_true]

/-- **The inputs of constraints are exact and do not depend on the order.**  If no two inputs with
one name differ, the result has exactly the inputs that occur anywhere in the constraints, each once
and in strictly increasing order of names.  It stays the same if the constraints are permuted and
the sides of any of them exchanged, and it is empty exactly if no constraint is symbolic. -/
theorem variables_exact (cs : List Constraint)
    (hnames : ∀ x y, Mentioned cs x → Mentioned cs y → x.name = y.name → x = y) :
    (∀ x, x ∈ Constraint.variables cs ↔ Mentioned cs x) ∧
    (Constraint.variables cs).Nodup ∧
    ((Constraint.variables cs).Pairwise fun x y => x.name < y.name) ∧
    (∀ ds es, cs.Perm ds → List.Forall₂ SameSides ds es →
      Constraint.variables es = Constraint.variables cs) ∧
    (Constraint.variables cs = [] ↔ ∀ c ∈ cs, c.isSymbolic = false) := by
  refine ⟨fun x => mem_variables_iff hnames, nodup_variables cs, pairwise_name_lt_variables cs,
    ?_, ?_⟩
  · intro ds es hperm hsides
    have hmentioned : ∀ x, Mentioned es x ↔ Mentioned cs x := fun x =>
      (mentioned_iff_of_sameSides hsides x).trans (mentioned_iff_of_perm hperm x)
    have hnames' : ∀ x y, Mentioned es x → Mentioned es y → x.name = y.name → x = y := by
      intro x y hx hy
      exact hnames x y ((hmentioned x).1 hx) ((hmentioned y).1 hy)
    refine variables_eq_of_mem_iff ?_
    intro x
    rw [mem_variables_iff hnames', hmentioned, mem_variables_iff hnames]
  · rw [List.eq_nil_iff_forall_not_mem]
    simp only [mem_variables_iff hnames, ← Bool.not_eq_true, ← exists_mentions_iff, Mentioned]
    push Not
    exact ⟨fun h c hc x => h x c hc, fun h x c hc => h c hc x⟩

def measuredInput : RealVar := ⟨"b", .zero false, .zero true, .zero false⟩

/-- A real input below a comparison, opposite a side without inputs; and a string input that comes
first by name. -/
def nestedInputs : List Constraint :=
  [.int (.binary (.const 1) .add (.compareReal (.var measuredInput) (.const (.zero false)) 0) 1)
      (.rel .lt) (.binary (.const 2) .mul (.const 3) 6),
    .str (.var ⟨"a", "x"⟩) (.rel .eq) (.const "y")]

theorem nestedInputs_names (x y : Variable) (hx : Mentioned nestedInputs x)
    (hy : Mentioned nestedInputs y) : x.name = y.name → x = y := by
  have hdistinct : ∀ x ∈ nestedInputs.flatMap fun c => c.left.variables ++ c.right.variables,
      ∀ y ∈ nestedInputs.flatMap fun c => c.left.variables ++ c.right.variables,
        x.name = y.name → x = y := by
    decide
  exact hdistinct x (mem_occurrences.2 hx) y (mem_occurrences.2 hy)

theorem nestedInputs_variables :
    Constraint.variables nestedInputs ≠ [] ∧
      ∀ es, List.Forall₂ SameSides nestedInputs.reverse es →
        Constraint.variables es = [.str ⟨"a", "x"⟩, .real measuredInput] := by
  obtain ⟨-, -, -, hrearranged, hempty⟩ := variables_exact nestedInputs nestedInputs_names
  constructor
  · intro hnil
    exact absurd (hempty.1 hnil _ List.mem_cons_self) (by decide)
  · intro es hes
    rw [hrearranged nestedInputs.reverse es (List.reverse_perm _).symm hes]
    decide

end Constraint

end Concolic
