import Concolic.Proofs.Faults
import Concolic.Proofs.Moves
import Mathlib.Data.List.Induction

/-
# Locals hold what was stored last

A store writes as many slots as its operand has words.  A local is what the last store put there, as
long as no later store wrote any of its words (`read_last_stored`).

The table keeps an operand in its first slot only, and finds out what a store destroys by looking at
three slots.  That is enough because a store can meet an operand in three ways only: in its slot,
with the upper half of what is stored, or in the upper half of what is there (`avoids_iff`).  One
store does to the table what one more store does to the list of stores (`slot_stored_eq_some`,
`lasts_append`), and that carries over to all stores.
-/
namespace Concolic

/-! ## 1. Stores -/

/-- A store of an operand into a slot. -/
structure LocalStore where
  slot : Int
  operand : Operand
deriving DecidableEq, Repr

namespace LocalStore

/-- The store writes the slot: there are as many slots as the operand has words. -/
def Writes (w : LocalStore) (j : Int) : Prop := w.slot ≤ j ∧ j < w.slot + w.operand.category

/-- Among the stores, one puts `o` into slot `i`, and no later one writes a slot of `o`. -/
def Lasts (ws : List LocalStore) (i : Int) (o : Operand) : Prop :=
  ∃ earlier later, ws = earlier ++ ⟨i, o⟩ :: later ∧
    ∀ w ∈ later, ∀ j, i ≤ j → j < i + o.category → ¬ w.Writes j

/-- What lasts after one more store: its own operand, and what it does not meet. -/
theorem lasts_append (ws : List LocalStore) (w : LocalStore) (i : Int) (o : Operand) :
    Lasts (ws ++ [w]) i o ↔
      w = ⟨i, o⟩ ∨ Lasts ws i o ∧ ∀ j, i ≤ j → j < i + o.category → ¬ w.Writes j := by
  constructor
  · rintro ⟨earlier, later, hws, hlater⟩
    rcases List.eq_nil_or_concat later with rfl | ⟨later', w', rfl⟩
    · obtain ⟨-, hw⟩ := List.append_inj' hws rfl
      exact Or.inl (List.singleton_inj.mp hw)
    · rw [List.concat_eq_append, ← List.cons_append, ← List.append_assoc] at hws
      obtain ⟨rfl, hw⟩ := List.append_inj' hws rfl
      obtain rfl := List.singleton_inj.mp hw
      rw [List.concat_eq_append, List.forall_mem_append, List.forall_mem_singleton] at hlater
      exact Or.inr ⟨⟨earlier, later', rfl, hlater.1⟩, hlater.2⟩
  · rintro (rfl | ⟨⟨earlier, later, rfl, hlater⟩, hw⟩)
    · exact ⟨ws, [], rfl, fun _ h => absurd h List.not_mem_nil⟩
    · refine ⟨earlier, later ++ [w], by simp, ?_⟩
      rw [List.forall_mem_append, List.forall_mem_singleton]
      exact ⟨hlater, hw⟩

/-- The three ways in which a store meets an operand in slot `i`. -/
theorem avoids_iff (w : LocalStore) (i : Int) (o : Operand) :
    (∀ j, i ≤ j → j < i + o.category → ¬ w.Writes j) ↔
      i ≠ w.slot ∧ ¬ (w.slot < i ∧ i < w.slot + w.operand.category) ∧
        ¬ (i + 1 = w.slot ∧ o.category = 2) := by
  have hw := Stack.category_cases w.operand
  have ho := Stack.category_cases o
  unfold Writes
  constructor
  · intro h
    have hlower := h i
    have hupper := h (i + 1)
    omega
  · intro h j
    omega

end LocalStore

/-! ## 2. One store -/

namespace Locals

open LocalStore

/-- What is in the slots after a store into the table.  There need not be a slot for the upper half
of what is stored. -/
theorem join_stored (t : Locals) {i : Nat} (o : Operand) (hi : i < t.slots.length) (j : Nat) :
    ((t.stored i o).slots[j]?).join =
      if j = i then some o
      else if i < j ∧ j < i + o.category then none
      else if j + 1 = i ∧ t.isDouble j then none
      else (t.slots[j]?).join := by
  have hplace : (((t.place i o).slots)[j]?).join =
      if j = i then some o
      else if j + 1 = i ∧ t.isDouble j then none
      else (t.slots[j]?).join := by
    simp only [getElem?_place t hi, apply_ite Option.join, Option.join_some]
  unfold stored
  split
  next hc =>
    rw [put, List.getElem?_set]
    by_cases hj : i + 1 = j
    · have hhalf : i < j ∧ j < i + o.category := by omega
      rw [if_pos hj, if_neg (by omega : ¬ j = i), if_pos hhalf]
      split <;> rfl
    · rw [if_neg hj, hplace, if_neg (by omega : ¬ (i < j ∧ j < i + o.category))]
  next hc =>
    have hone : o.category = 1 := (Stack.category_cases o).resolve_right hc
    rw [hplace, if_neg (by omega : ¬ (i < j ∧ j < i + o.category))]

theorem slot_stored (t : Locals) {i : Int} {o : Operand} (h0 : 0 ≤ i)
    (hi : i.toNat < t.slots.length) (j : Int) :
    Plain.slot (t.stored i.toNat o).slots j =
      if j = i then some o
      else if i < j ∧ j < i + o.category then none
      else if j + 1 = i ∧ Plain.isWide Operand.category (Plain.slot t.slots j) then none
      else Plain.slot t.slots j := by
  by_cases hj : j < 0
  · -- no slot before the table, with or without the store
    have hnone (u : Locals) : Plain.slot u.slots j = none := by rw [Plain.slot, if_pos hj]
    rw [hnone, hnone, if_neg (by omega), ite_self, ite_self]
  · obtain ⟨n, rfl⟩ := Int.eq_ofNat_of_zero_le (by omega : 0 ≤ j)
    obtain ⟨k, rfl⟩ := Int.eq_ofNat_of_zero_le h0
    have hslot (u : Locals) : Plain.slot u.slots n = (u.slots[n]?).join := by
      rw [Plain.slot, if_neg hj, Int.toNat_natCast]
    have hdouble : t.isDouble n = Plain.isWide Operand.category (t.slots[n]?).join := by
      unfold isDouble
      rcases t.slots[n]? with _ | _ | _ <;> rfl
    rw [hslot, hslot, join_stored t o hi, hdouble, Int.toNat_natCast]
    norm_cast

/-- A store keeps what it does not meet: an operand is found after it exactly if it is the one
stored, or if it was found before and the store writes none of its slots. -/
theorem slot_stored_eq_some (t : Locals) {w : LocalStore} (h0 : 0 ≤ w.slot)
    (hi : w.slot.toNat < t.slots.length) (i : Int) (o : Operand) :
    Plain.slot (t.stored w.slot.toNat w.operand).slots i = some o ↔
      w = ⟨i, o⟩ ∨ Plain.slot t.slots i = some o ∧
        ∀ j, i ≤ j → j < i + o.category → ¬ w.Writes j := by
  obtain ⟨k, p⟩ := w
  rw [avoids_iff, slot_stored t h0 hi, LocalStore.mk.injEq]
  by_cases hik : i = k
  · simp [hik]
  by_cases hleft : k < i ∧ i < k + p.category
  · simp [hik, hleft, Ne.symm hik]
  rw [if_neg hik, if_neg hleft]
  cases hx : Plain.slot t.slots i with
  | none => simp [Ne.symm hik]
  | some x =>
    have hwide : Plain.isWide Operand.category (some x) = true ↔ x.category = 2 :=
      decide_eq_true_iff
    by_cases hright : i + 1 = k ∧ x.category = 2
    · -- the operand that was there loses its upper half
      rw [if_pos (by rwa [hwide])]
      refine ⟨fun h => absurd h (by simp), ?_⟩
      rintro (⟨h, -⟩ | ⟨h, -, -, hupper⟩)
      · exact absurd h.symm hik
      · obtain rfl := Option.some_inj.mp h
        exact absurd hright hupper
    · rw [if_neg (by rwa [hwide])]
      constructor
      · intro h
        obtain rfl := Option.some_inj.mp h
        exact Or.inr ⟨rfl, hik, hleft, hright⟩
      · rintro (⟨h, -⟩ | ⟨h, -⟩)
        · exact absurd h.symm hik
        · exact h

/-! ## 3. All stores -/

theorem empty_eq_ok_iff (n : Int) (t : Locals) :
    empty n = .ok t ↔ 0 ≤ n ∧ n.toNat ≤ sizeLimit ∧ t = ⟨List.replicate n.toNat none⟩ := by
  unfold empty
  constructor
  · intro h
    split at h
    · cases h
    split at h
    · cases h
    cases h
    exact ⟨by omega, by omega, rfl⟩
  · rintro ⟨h0, hlimit, rfl⟩
    rw [if_neg (by omega), if_neg (by omega)]

theorem slot_empty {n : Int} {t : Locals} (ht : empty n = .ok t) (i : Int) :
    Plain.slot t.slots i = none := by
  obtain ⟨-, -, rfl⟩ := (empty_eq_ok_iff n t).mp ht
  rw [Plain.slot, List.getElem?_replicate]
  split
  · rfl
  split <;> rfl

/-- Stores one operand after the other. -/
def writeAll : List LocalStore → Act Locals Unit
  | [] => pure ()
  | w :: ws => do
    write w.slot w.operand
    writeAll ws

theorem writeAll_append (ws : List LocalStore) (w : LocalStore) :
    writeAll (ws ++ [w]) = writeAll ws >>= fun _ => write w.slot w.operand := by
  induction ws with
  | nil => rw [List.nil_append, writeAll, writeAll, writeAll, pure_bind, bind_pure_unit]
  | cons v ws ih => rw [List.cons_append, writeAll, ih, writeAll, bind_assoc]

/-- **What is found in the table is what lasts of the stores.** -/
theorem slot_writeAll {n : Int} {t₀ : Locals} (ht₀ : empty n = .ok t₀) (ws : List LocalStore) :
    ∀ {t : Locals}, writeAll ws t₀ = (.ok (), t) → ∀ i o,
      (Plain.slot t.slots i = some o ↔ Lasts ws i o) := by
  induction ws using List.reverseRecOn with
  | nil =>
    intro t hrun i o
    cases hrun
    rw [slot_empty ht₀]
    refine ⟨fun h => absurd h (by simp), ?_⟩
    rintro ⟨_, _, h, -⟩
    exact absurd h (by simp)
  | append_singleton ws w ih =>
    intro t hrun i o
    rw [writeAll_append] at hrun
    obtain ⟨⟨⟩, t', hbefore, hwrite⟩ := Act.bind_ok hrun
    rcases write_apply t' w.slot w.operand with ⟨h0, hroom, hok⟩ | ⟨-, e, t'', herr⟩
    · obtain rfl : t'.stored w.slot.toNat w.operand = t := congrArg Prod.snd (hok.symm.trans hwrite)
      have hpos := Stack.category_cases w.operand
      rw [slot_stored_eq_some t' h0 (by omega), ih hbefore, lasts_append]
    · exact absurd (herr.symm.trans hwrite) (by simp)

/-- **Last writer.**  After stores into an empty table, none of them refused, a local can be read
exactly if some store put an operand there and no later store wrote any of the operand's slots, and
then it is that operand. -/
theorem read_last_stored {n : Int} {t₀ t : Locals} {ws : List LocalStore}
    (ht₀ : empty n = .ok t₀) (hrun : writeAll ws t₀ = (.ok (), t)) (i : Int) :
    ((∃ o, (read i t).1 = .ok o) ↔ ∃ o, Lasts ws i o) ∧
      ∀ o, Lasts ws i o → read i t = (.ok o, t) := by
  rcases read_cases t i with ⟨o, hread, hslot⟩ | ⟨e, hread, hslot⟩
  · have hlast : Lasts ws i o := (slot_writeAll ht₀ ws hrun i o).mp hslot
    refine ⟨⟨fun _ => ⟨o, hlast⟩, fun _ => ⟨o, by rw [hread]⟩⟩, fun p hp => ?_⟩
    have hp' := (slot_writeAll ht₀ ws hrun i p).mpr hp
    rwa [Option.some_inj.mp (hp'.symm.trans hslot)]
  · have hnone (o : Operand) : ¬ Lasts ws i o := fun h =>
      absurd (hslot.symm.trans ((slot_writeAll ht₀ ws hrun i o).mpr h)) (by simp)
    refine ⟨⟨?_, ?_⟩, fun o ho => absurd ho (hnone o)⟩
    · rintro ⟨o, ho⟩
      rw [hread] at ho
      cases ho
    · rintro ⟨o, ho⟩
      exact absurd ho (hnone o)

/-- A long, and then an int into its upper half. -/
def intOverLong : List LocalStore := [⟨0, .bv64 (.const 7)⟩, ⟨1, .bv32 (.const 5)⟩]

/-- The int is there, and the long is gone. -/
theorem intOverLong_read :
    ∃ t, writeAll intOverLong ⟨[none, none]⟩ = (.ok (), t) ∧
      read 1 t = (.ok (.bv32 (.const 5)), t) ∧ ¬ ∃ o, (read 0 t).1 = .ok o := by
  have hempty : empty 2 = .ok ⟨[none, none]⟩ := rfl
  have hrun : writeAll intOverLong ⟨[none, none]⟩ =
      (.ok (), ⟨[none, some (.bv32 (.const 5))]⟩) := rfl
  refine ⟨_, hrun, (read_last_stored hempty hrun 1).2 _ ?_, fun hread => ?_⟩
  · exact ⟨[⟨0, .bv64 (.const 7)⟩], [], rfl, fun _ h => absurd h List.not_mem_nil⟩
  · obtain ⟨o, hlast⟩ := (read_last_stored hempty hrun 0).1.mp hread
    rcases (lasts_append [⟨0, .bv64 (.const 7)⟩] ⟨1, .bv32 (.const 5)⟩ 0 o).mp hlast with
      h | ⟨hlong, havoids⟩
    · cases h
    · rcases (lasts_append [] ⟨0, .bv64 (.const 7)⟩ 0 o).mp hlong with h | ⟨hnone, -⟩
      · cases h
        exact havoids 1 (by decide) (by decide) ⟨by decide, by decide⟩
      · obtain ⟨_, _, h, -⟩ := hnone
        simp at h

end Locals

end Concolic
