import Concolic.Proofs.LastWriter

/-
# Stores that are refused

A run goes on after a store that is refused.  So it matters what such a store leaves behind.

A store outside the table, or of no operand, is refused before anything is written.  A long or a
double for the last slot is refused too, since its upper half has no slot, but only after it is
written: the slot has lost what it held, and it now holds an operand that overhangs the table.
This is the only way in which a refused store does damage (`refused_store_harmless_iff`).

What is found in the table is therefore what lasts of all stores into it, the refused ones among
them (`slot_afterCalls`); the same words as for stores that are not refused, with the table's size
in place of the answers.  Operands that last are apart from each other (`LocalStore.Lasts.apart`),
so the slot after a long or a double is always empty.  That there is such a slot is what a refused
store can break, and it is broken for as long as what it wrote lasts.
-/
namespace Concolic

/-- A call that stores into a slot an operand, if it has one. -/
structure StoreCall where
  slot : Int
  operand : Option Operand
deriving DecidableEq, Repr

namespace StoreCall

def exec (c : StoreCall) : Act Locals Unit := Locals.write? c.slot c.operand

/-- What the call puts into a table of `n` slots, whether or not it is refused. -/
def placed (n : Int) (c : StoreCall) : Option LocalStore :=
  if 0 ≤ c.slot ∧ c.slot < n then c.operand.map (⟨c.slot, ·⟩) else none

/-- The call has an operand of two words for the last of `n` slots. -/
def Overhangs (n : Int) (c : StoreCall) : Prop :=
  0 ≤ c.slot ∧ c.slot + 1 = n ∧ ∃ o, c.operand = some o ∧ o.category = 2

end StoreCall

/-! ## 1. Operands that last -/

/-- **Operands that last are apart.** -/
theorem LocalStore.Lasts.apart {ws : List LocalStore} {i j : Int} {o p : Operand}
    (hi : Lasts ws i o) (hj : Lasts ws j p) (hij : i < j) : i + o.category ≤ j := by
  induction ws using List.reverseRecOn with
  | nil =>
    obtain ⟨_, _, h, -⟩ := hi
    exact absurd h (by simp)
  | append_singleton ws w ih =>
    have hp := Stack.category_cases p
    rw [lasts_append] at hi hj
    rcases hi with rfl | ⟨hi, havoids⟩
    · rcases hj with hsame | ⟨-, havoids⟩
      · cases hsame
        omega
      · -- the store at `i` is the last one and does not write slot `j`
        have := havoids j (Int.le_refl j) (by omega)
        simp only [Writes] at this
        omega
    · rcases hj with rfl | ⟨hj, -⟩
      · have := havoids j (by omega)
        simp only [Writes] at this
        omega
      · exact ih hi hj

namespace Locals

open LocalStore

/-! ## 2. One call -/

theorem length_stored (t : Locals) (i : Nat) (o : Operand) :
    (t.stored i o).slots.length = t.slots.length := by
  unfold stored
  split
  · rw [put, List.length_set, length_place]
  · exact length_place t i o

theorem placed_some (n i : Int) (o : Operand) (h0 : 0 ≤ i) (hi : i < n) :
    StoreCall.placed n ⟨i, some o⟩ = some ⟨i, o⟩ := if_pos ⟨h0, hi⟩

/-- A call that puts nothing into the table is refused and changes nothing.  Another one makes its
store, and is refused exactly if the operand overhangs. -/
theorem exec_cases (t : Locals) (c : StoreCall) :
    (c.placed t.size = none ∧ ¬ c.Overhangs t.size ∧ ∃ e, c.exec t = (.error e, t)) ∨
    (∃ w, c = ⟨w.slot, some w.operand⟩ ∧ c.placed t.size = some w ∧
      0 ≤ w.slot ∧ w.slot.toNat < t.slots.length ∧
      (c.exec t).2 = t.stored w.slot.toNat w.operand ∧
      ((c.exec t).1 ≠ .ok () ↔ c.Overhangs t.size)) := by
  obtain ⟨i, _ | o⟩ := c
  · refine Or.inl ⟨?_, ?_, _, rfl⟩
    · simp [StoreCall.placed]
    · rintro ⟨-, -, o, ho, -⟩
      cases ho
  · have hover : StoreCall.Overhangs t.size ⟨i, some o⟩ ↔
        0 ≤ i ∧ i + 1 = t.size ∧ o.category = 2 := by
      simp [StoreCall.Overhangs]
    have hsize : t.size = t.slots.length := rfl
    have hcategory := Stack.category_cases o
    rcases write_cases t i o with ⟨h0, hroom, hrun⟩ | ⟨h0, hlast, hc, hrun⟩ | ⟨hout, hrun⟩
    · refine Or.inr ⟨⟨i, o⟩, rfl, placed_some _ _ _ h0 (by omega), h0, by dsimp only; omega, ?_, ?_⟩
      · exact congrArg Prod.snd hrun
      · rw [StoreCall.exec, write?, hrun, hover]
        refine ⟨fun h => absurd rfl h, ?_⟩
        omega
    · refine Or.inr ⟨⟨i, o⟩, rfl, placed_some _ _ _ h0 (by omega), h0, by dsimp only; omega, ?_, ?_⟩
      · exact congrArg Prod.snd hrun
      · rw [StoreCall.exec, write?, hrun, hover]
        refine ⟨fun _ => ⟨h0, by omega, hc⟩, ?_⟩
        intro _ h
        cases h
    · refine Or.inl ⟨if_neg (by dsimp only; omega), ?_, _, hrun⟩
      rw [hover]
      omega

theorem length_exec (t : Locals) (c : StoreCall) :
    (c.exec t).2.slots.length = t.slots.length := by
  rcases exec_cases t c with ⟨-, -, e, hrun⟩ | ⟨w, -, -, -, -, hrun, -⟩
  · rw [hrun]
  · rw [hrun, length_stored]

/-! ## 3. All calls -/

/-- The table after calls, of which some may be refused. -/
def afterCalls : List StoreCall → Locals → Locals
  | [], t => t
  | c :: cs, t => afterCalls cs (c.exec t).2

theorem afterCalls_append (cs : List StoreCall) (c : StoreCall) (t : Locals) :
    afterCalls (cs ++ [c]) t = (c.exec (afterCalls cs t)).2 := by
  induction cs generalizing t with
  | nil => rfl
  | cons c' cs ih => exact ih (c'.exec t).2

theorem size_afterCalls (cs : List StoreCall) (t : Locals) : (afterCalls cs t).size = t.size := by
  induction cs generalizing t with
  | nil => rfl
  | cons c cs ih => exact (ih _).trans (length_exec t c)

theorem size_empty {n : Int} {t : Locals} (ht : empty n = .ok t) : (t.size : Int) = n := by
  obtain ⟨h0, -, rfl⟩ := (empty_eq_ok_iff n t).mp ht
  simp only [size, List.length_replicate]
  omega

/-- Stores keep the size that the table was made with. -/
theorem size_afterCalls_empty {n : Int} {t : Locals} (ht : empty n = .ok t)
    (cs : List StoreCall) : ((afterCalls cs t).size : Int) = n := by
  rw [size_afterCalls, size_empty ht]

/-- **What is found in the table is what lasts of the stores into it**, refused or not. -/
theorem slot_afterCalls {n : Int} {t : Locals} (ht : empty n = .ok t) (cs : List StoreCall)
    (i : Int) (o : Operand) :
    Plain.slot (afterCalls cs t).slots i = some o ↔
      Lasts (cs.filterMap (StoreCall.placed n)) i o := by
  induction cs using List.reverseRecOn generalizing i o with
  | nil =>
    rw [afterCalls, slot_empty ht]
    refine ⟨fun h => absurd h (by simp), ?_⟩
    rintro ⟨_, _, h, -⟩
    exact absurd h (by simp)
  | append_singleton cs c ih =>
    have hn := size_afterCalls_empty ht cs
    rw [afterCalls_append, List.filterMap_append]
    rcases exec_cases (afterCalls cs t) c with
      ⟨hnone, -, e, hrun⟩ | ⟨w, -, hplaced, h0, hlt, hrun, -⟩
    · rw [hn] at hnone
      rw [hrun, ih, List.filterMap_cons_none hnone, List.filterMap_nil, List.append_nil]
    · rw [hn] at hplaced
      rw [hrun, slot_stored_eq_some _ h0 hlt, ih, List.filterMap_cons_some hplaced,
        List.filterMap_nil, lasts_append]

/-! ## 4. What refused stores damage -/

theorem lt_size_of_slot {t : Locals} {i : Int} {o : Operand} (h : Plain.slot t.slots i = some o) :
    0 ≤ i ∧ i < t.size := by
  unfold Plain.slot at h
  split at h
  · cases h
  · by_cases hlt : i.toNat < t.slots.length
    · rw [size]
      omega
    · rw [List.getElem?_eq_none (Nat.not_lt.mp hlt)] at h
      cases h

/-- Tables of one size with the same in every slot are the same. -/
theorem eq_of_slot {t u : Locals} (hsize : t.size = u.size)
    (h : ∀ i, Plain.slot t.slots i = Plain.slot u.slots i) : t = u := by
  obtain ⟨ts⟩ := t
  obtain ⟨us⟩ := u
  congr 1
  refine List.ext_getElem hsize ?_
  intro k hk hk'
  have hnat : ¬ (k : Int) < 0 := by omega
  simpa [Plain.slot, hnat, hk, hk'] using h k

section

variable {n : Int} {t : Locals} (ht : empty n = .ok t) (cs : List StoreCall)

include ht

/-- The other slots of an operand are empty. -/
theorem slot_above {i j : Int} {o : Operand}
    (h : Plain.slot (afterCalls cs t).slots i = some o) (hij : i < j) (hj : j < i + o.category) :
    Plain.slot (afterCalls cs t).slots j = none := by
  cases hslot : Plain.slot (afterCalls cs t).slots j with
  | none => rfl
  | some p =>
    rw [slot_afterCalls ht] at h hslot
    have := h.apart hslot hij
    omega

/-- A store changes nothing exactly if the slot holds the operand already. -/
theorem stored_afterCalls_eq_iff {i : Int} {o : Operand} (h0 : 0 ≤ i)
    (hi : i.toNat < (afterCalls cs t).slots.length) :
    (afterCalls cs t).stored i.toNat o = afterCalls cs t ↔
      Plain.slot (afterCalls cs t).slots i = some o := by
  constructor
  · intro h
    rw [← h, slot_stored _ h0 hi, if_pos rfl]
  · intro h
    refine eq_of_slot (length_stored _ _ o) ?_
    intro j
    rw [slot_stored _ h0 hi]
    split
    next hj => rw [hj, h]
    split
    next hj => exact (slot_above ht cs h hj.1 hj.2).symm
    split
    next hj =>
      -- what would lose its upper half leaves slot `i` empty
      cases hslot : Plain.slot (afterCalls cs t).slots j with
      | none => rfl
      | some x =>
        rw [hslot] at hj
        have hwide : x.category = 2 := decide_eq_true_iff.mp hj.2
        have hempty := slot_above ht cs hslot (by omega : j < i) (by omega)
        rw [h] at hempty
        cases hempty
    rfl

/-- **Which calls are refused.** -/
theorem refused_iff (c : StoreCall) :
    (c.exec (afterCalls cs t)).1 ≠ .ok () ↔ c.placed n = none ∨ c.Overhangs n := by
  have hn := size_afterCalls_empty ht cs
  rcases exec_cases (afterCalls cs t) c with ⟨hnone, -, e, hrun⟩ | ⟨w, -, hplaced, -, -, -, hover⟩
  · rw [hn] at hnone
    simp [hrun, hnone]
  · rw [hn] at hplaced hover
    simp [hover, hplaced]

/-- **What a refused call leaves.** -/
theorem refused_unchanged_iff {c : StoreCall} (hrefused : (c.exec (afterCalls cs t)).1 ≠ .ok ()) :
    (c.exec (afterCalls cs t)).2 = afterCalls cs t ↔
      (c.Overhangs n → Plain.slot (afterCalls cs t).slots c.slot = c.operand) := by
  have hn := size_afterCalls_empty ht cs
  rcases exec_cases (afterCalls cs t) c with
    ⟨-, hfits, e, hrun⟩ | ⟨w, rfl, -, h0, hlt, hrun, hover⟩
  · rw [hn] at hfits
    simp [hrun, hfits]
  · rw [hn] at hover
    have hover' := hover.mp hrefused
    simp [hrun, stored_afterCalls_eq_iff ht cs h0 hlt, hover']

/-- **Longs and doubles have their second slot** as long as none that overhangs the table lasts. -/
theorem doubles_fit_iff :
    (∀ i o, Plain.slot (afterCalls cs t).slots i = some o → o.category = 2 → i + 1 < n) ↔
      ¬ ∃ o, o.category = 2 ∧ Lasts (cs.filterMap (StoreCall.placed n)) (n - 1) o := by
  have hn := size_afterCalls_empty ht cs
  constructor
  · rintro h ⟨o, hc, hlasts⟩
    have := h (n - 1) o ((slot_afterCalls ht cs _ o).mpr hlasts) hc
    omega
  · intro h i o hslot hc
    have hlt := (lt_size_of_slot hslot).2
    have hne : i ≠ n - 1 := by
      rintro rfl
      exact h ⟨o, hc, (slot_afterCalls ht cs _ o).mp hslot⟩
    omega

end

/-- **Refused stores.**  After any calls, refused ones among them, the table holds what lasts of
the stores they made.  Another call is refused if it makes no store, or one that overhangs the
table, and in the second case it makes the store all the same: so it leaves the table as it was if
and only if it does not overhang, or its operand is there already.  The slot after a long or a
double is always empty, but there may be no such slot: there is one for every long and double if
and only if none that overhangs the table lasts. -/
theorem refused_store_harmless_iff {n : Int} {t : Locals} (ht : empty n = .ok t)
    (cs : List StoreCall) :
    (∀ i o, Plain.slot (afterCalls cs t).slots i = some o ↔
      Lasts (cs.filterMap (StoreCall.placed n)) i o) ∧
    (∀ c : StoreCall, (c.exec (afterCalls cs t)).1 ≠ .ok () ↔ c.placed n = none ∨ c.Overhangs n) ∧
    (∀ c : StoreCall, (c.exec (afterCalls cs t)).1 ≠ .ok () →
      ((c.exec (afterCalls cs t)).2 = afterCalls cs t ↔
        (c.Overhangs n → Plain.slot (afterCalls cs t).slots c.slot = c.operand))) ∧
    (∀ i o, Plain.slot (afterCalls cs t).slots i = some o → o.category = 2 →
      Plain.slot (afterCalls cs t).slots (i + 1) = none) ∧
    ((∀ i o, Plain.slot (afterCalls cs t).slots i = some o → o.category = 2 → i + 1 < n) ↔
      ¬ ∃ o, o.category = 2 ∧ Lasts (cs.filterMap (StoreCall.placed n)) (n - 1) o) := by
  refine ⟨slot_afterCalls ht cs, refused_iff ht cs, ?_, ?_, doubles_fit_iff ht cs⟩
  · intro c hrefused
    exact refused_unchanged_iff ht cs hrefused
  · intro i o hslot hc
    exact slot_above ht cs hslot (by omega) (by omega)

/-- An int for the only slot of a table. -/
def intInLast : StoreCall := ⟨0, some (.bv32 (.const 5))⟩

/-- A long for the same slot. -/
def longForLast : StoreCall := ⟨0, some (.bv64 (.const 7))⟩

theorem longForLast_overhangs : longForLast.Overhangs 1 :=
  ⟨by decide, by decide, _, rfl, rfl⟩

/-- The long is refused, and the int is lost to it. -/
theorem longForLast_changes :
    (longForLast.exec (afterCalls [intInLast] ⟨[none]⟩)).1 ≠ .ok () ∧
      (longForLast.exec (afterCalls [intInLast] ⟨[none]⟩)).2 ≠ afterCalls [intInLast] ⟨[none]⟩ := by
  have hempty : empty 1 = .ok ⟨[none]⟩ := rfl
  obtain ⟨-, hrefused, hunchanged, -, -⟩ := refused_store_harmless_iff hempty [intInLast]
  have hlong := (hrefused longForLast).mpr (.inr longForLast_overhangs)
  refine ⟨hlong, ?_⟩
  rw [Ne, hunchanged longForLast hlong]
  intro h
  cases h longForLast_overhangs

/-- What the refused long leaves, in place of the int, is a long whose second slot is outside the
table. -/
theorem longForLast_stays :
    Plain.slot (afterCalls [intInLast] ⟨[none]⟩).slots 0 = some (.bv32 (.const 5)) ∧
      ∃ e t, longForLast.exec (afterCalls [intInLast] ⟨[none]⟩) = (.error e, t) ∧
        Plain.slot t.slots 0 = some (.bv64 (.const 7)) ∧ (Operand.bv64 (.const 7)).category = 2 ∧
        ¬ (0 + 1 < t.size) :=
  ⟨rfl, _, _, rfl, rfl, rfl, by decide⟩

end Locals

end Concolic
