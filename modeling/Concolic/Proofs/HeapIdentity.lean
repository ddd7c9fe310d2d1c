import Concolic.Proofs.Growth
import Mathlib.Data.List.Nodup

/-
# The identity of objects

Two host values may be one object without being equal: the zeros of the floating types are.  What is
one object for the host is one object for the heap, and nothing else is.

A `History` is any sequence of operations on a new heap in which a reference is resolved only after
it was handed out.  `identity_of_history` says what holds at all times: different objects have
different numbers, an object keeps its reference however it is asked for, the taken numbers are
those of the objects, no number is handed out twice, and none passes from one object to another.
-/
namespace Concolic

/-! ## 1. The same object -/

namespace Double

open Ieee

/-- Two views of the same number. -/
def View.SameNumber : View → View → Prop
  | infinite a, infinite b => a = b
  | finite a m p, finite b n q => scaledInt a m p (min p q) = scaledInt b n q (min p q)
  | _, _ => False

theorem sameValue_iff (x y : Double) : x.sameValue y = true ↔ x.view.SameNumber y.view := by
  unfold sameValue isNaN less
  cases x.view with
  | nan => cases y.view <;> simp [View.SameNumber]
  | infinite a =>
    cases y.view with
    | infinite b => cases a <;> cases b <;> simp [View.SameNumber]
    | _ => simp [View.SameNumber]
  | finite a m p =>
    cases y.view with
    | finite b n q =>
      simp only [View.SameNumber, Int.min_comm q p]
      simp
      omega
    | _ => simp [View.SameNumber]

theorem pow2_add {x y : Int} (hx : 0 ≤ x) (hy : 0 ≤ y) : pow2 (x + y) = pow2 x * pow2 y := by
  simp only [pow2, Int.toNat_add hx hy]
  exact Nat.pow_add 2 _ _

/-- In a smaller unit a number is a multiple of what it was. -/
theorem scaledInt_unit (a : Bool) (m : Nat) {q u v : Int} (huv : u ≤ v) (hvq : v ≤ q) :
    scaledInt a m q u = scaledInt a m q v * pow2 (v - u) := by
  have hsplit : q - u = (q - v) + (v - u) := by omega
  have hcast : ((m * pow2 (q - u) : Nat) : Int) = (m * pow2 (q - v) : Nat) * pow2 (v - u) := by
    rw [hsplit, pow2_add (by omega) (by omega), ← Nat.mul_assoc, Int.natCast_mul]
  cases a with
  | false => exact hcast
  | true => exact (congrArg Neg.neg hcast).trans (Int.neg_mul _ _).symm

theorem scaledInt_eq_iff {a b : Bool} {m n : Nat} {p q u v : Int} (huv : u ≤ v) (hp : v ≤ p)
    (hq : v ≤ q) :
    scaledInt a m p u = scaledInt b n q u ↔ scaledInt a m p v = scaledInt b n q v := by
  have hpos : (pow2 (v - u) : Int) ≠ 0 := by
    exact_mod_cast Nat.ne_of_gt (Nat.pow_pos (by decide))
  rw [scaledInt_unit a m huv hp, scaledInt_unit b n huv hq]
  exact ⟨Int.eq_of_mul_eq_mul_right hpos, fun h => by rw [h]⟩

theorem View.SameNumber.symm {x y : View} (h : x.SameNumber y) : y.SameNumber x := by
  cases x <;> cases y <;> simp_all [View.SameNumber, Int.min_comm]

theorem View.SameNumber.trans {x y z : View} (hxy : x.SameNumber y) (hyz : y.SameNumber z) :
    x.SameNumber z := by
  cases x with
  | nan => exact hxy.elim
  | infinite a => cases y <;> cases z <;> simp_all [View.SameNumber]
  | finite a m p =>
    cases y with
    | finite b n q =>
      cases z with
      | finite c l r =>
        -- The three numbers are compared in a unit that is small enough for all of them.
        have h₁ :=
          (scaledInt_eq_iff (u := min (min p q) r) (by omega) (by omega) (by omega)).mpr hxy
        have h₂ :=
          (scaledInt_eq_iff (u := min (min p q) r) (by omega) (by omega) (by omega)).mpr hyz
        exact (scaledInt_eq_iff (by omega) (by omega) (by omega)).mp (h₁.trans h₂)
      | _ => exact hyz.elim
    | _ => exact hxy.elim

end Double

namespace Value

theorem same_symm {v v' : Value} (h : v.same v' = true) : v'.same v = true := by
  cases v with
  | float a =>
    cases v' with
    | float b =>
      simp only [same, Double.sameValue_iff] at h ⊢
      exact h.symm
    | _ => simp [same] at h
  | double a =>
    cases v' with
    | double b =>
      simp only [same, Double.sameValue_iff] at h ⊢
      exact h.symm
    | _ => simp [same] at h
  | sequence => simp [same] at h
  | _ =>
    simp only [same, decide_eq_true_eq] at h
    subst h
    simp [same]

theorem same_trans {v v' v'' : Value} (h : v.same v' = true) (h' : v'.same v'' = true) :
    v.same v'' = true := by
  cases v with
  | float a =>
    cases v' with
    | float b =>
      cases v'' with
      | float c =>
        simp only [same, Double.sameValue_iff] at h h' ⊢
        exact h.trans h'
      | _ => simp [same] at h'
    | _ => simp [same] at h
  | double a =>
    cases v' with
    | double b =>
      cases v'' with
      | double c =>
        simp only [same, Double.sameValue_iff] at h h' ⊢
        exact h.trans h'
      | _ => simp [same] at h'
    | _ => simp [same] at h
  | sequence => simp [same] at h
  | _ =>
    simp only [same, decide_eq_true_eq] at h
    subst h
    exact h'

end Value

/-! ## 2. Different objects have different numbers -/

namespace Heap

variable {h h' : Heap} {v v' : Value} {r r' : Ref}

/-- **References with one number stand for one object.** -/
theorem Sound.same_of_id (hs : h.Sound) (hself : v.same v = true) (hv : h.Stands r v)
    (hv' : h.Stands r' v') (hid : r.id = r'.id) : v.same v' = true := by
  obtain ⟨p, hp, rfl, hkey⟩ := hv.bound
  obtain ⟨p', hp', rfl, hkey'⟩ := hv'.bound
  have heq : p = p' := List.inj_on_of_nodup_map hs.distinct hp hp' hid
  subst heq
  have hfirst : v.same p.1 = true := by
    rcases hkey with rfl | hsame
    · exact hself
    · exact hsame
  rcases hkey' with rfl | hsame
  · exact hfirst
  · exact Value.same_trans hfirst (Value.same_symm hsame)

theorem stands_of_object? (ho : h.object? v = some r) : v.same v = true ∧ h.Stands r v := by
  obtain ⟨p, hp, hsame, hr⟩ := object?_mem ho
  exact ⟨Value.same_trans hsame (Value.same_symm hsame), ⟨p, hp, hr, Or.inr hsame⟩, fun _ => ho⟩

theorem Sound.same_of_object? (hs : h.Sound) (ho : h.object? v = some r)
    (ho' : h.object? v' = some r') (hid : r.id = r'.id) : v.same v' = true :=
  hs.same_of_id (stands_of_object? ho).1 (stands_of_object? ho).2 (stands_of_object? ho').2 hid

/-! ## 3. Histories -/

/-- The ways to get a reference from a heap. -/
inductive Op
  | new (type : String)
  | newArray (type : String) (length : IntExpr)
  | reference (v : Value)
  | resolve (e : RefExpr) (v : Value)

def Op.exec : Op → Act Heap RefExpr
  | new type => do return .object (← Heap.new type)
  | newArray type n => do return .object (← Heap.newArray type n)
  | reference v => Heap.reference v
  | resolve e v => Heap.resolve e v

end Heap

/-- A heap with the references that it handed out. -/
structure History where
  heap : Heap := {}
  /-- All references that were answered. -/
  issued : List Ref := []
  /-- Those that were made for the answer, by an operation that moved the counter. -/
  created : List Ref := []

namespace History

/-- The history after one more operation; one that fails hands out nothing. -/
def next (t : History) (op : Heap.Op) : History :=
  match op.exec t.heap with
  | (.ok (.object r), h) =>
    ⟨h, r :: t.issued, if t.heap.nextId < h.nextId then r :: t.created else t.created⟩
  | (_, h) => { t with heap := h }

/-- An object is expected to be null or something that was handed out. -/
def Allows (t : History) : Heap.Op → Prop
  | .resolve (.object r) _ => r ∈ t.issued
  | _ => True

/-- The second history continues the first. -/
inductive Leads (t : History) : History → Prop
  | refl : Leads t t
  | next {t' : History} (op : Heap.Op) : Leads t t' → t'.Allows op → Leads t (t'.next op)

/-- The heap is sound, and what it handed out has numbers below the next one, those that were
created different ones. -/
structure Sound (t : History) : Prop where
  heap : t.heap.Sound
  issued : ∀ r ∈ t.issued, r.Issued t.heap
  created : ∀ r ∈ t.created, r.id < t.heap.nextId
  distinct : (t.created.map Ref.id).Nodup

variable {t t' : History} {op : Heap.Op}

theorem sound_empty : Sound {} :=
  ⟨Heap.sound_empty, fun _ hr => absurd hr List.not_mem_nil, fun _ hr => absurd hr List.not_mem_nil,
    List.nodup_nil⟩

theorem exec_grows (hs : t.Sound) (ha : t.Allows op) :
    Act.Grows Heap.Sound t.heap op.exec fun h e => e.Issued h := by
  cases op with
  | new type =>
    refine (Heap.new_grows _ type).bind fun _ _ _ _ hr => ?_
    exact Act.Grows.pure fun _ hle => hle.issued hr
  | newArray type n =>
    refine (Heap.newArray_grows _ type n).bind fun _ _ _ _ hr => ?_
    exact Act.Grows.pure fun _ hle => hle.issued hr
  | reference v => exact Heap.reference_grows _ v
  | resolve e v =>
    refine Heap.resolve_grows ?_ v
    cases e with
    | null => trivial
    | object r => exact hs.issued r ha

/-- What is created has the number that was next. -/
theorem created_eq {h : Heap} {r : Ref} (hr : (op.exec h).1 = .ok (.object r))
    (hlt : h.nextId < (op.exec h).2.nextId) : r.id = h.nextId := by
  have href : ∀ v, (Heap.reference v h).1 = .ok (.object r) →
      h.nextId < (Heap.reference v h).2.nextId → r.id = h.nextId := by
    intro v hr hlt
    by_cases hv : v = .null
    · rw [hv, Heap.reference_null] at hr
      cases hr
    cases ho : h.object? v with
    | some r' =>
      rw [Heap.reference_of_object? hv ho] at hlt
      exact absurd hlt (Nat.lt_irrefl _)
    | none =>
      rw [Heap.reference_of_none hv ho] at hr
      split at hr
      · cases hr
        rfl
      · cases hr
  cases op with
  | new type =>
    cases hr
    rfl
  | newArray type n =>
    cases hr
    rfl
  | reference v => exact href v hr hlt
  | resolve e v =>
    simp only [Heap.Op.exec] at hr hlt
    rcases Heap.resolve_cases h e v with heq | ⟨r', rfl, hv, ho, hfree⟩
    · rw [heq] at hr hlt
      exact href v hr hlt
    · rw [Heap.resolve_of_free hv ho hfree] at hlt
      split at hlt
      · exact absurd hlt (Nat.lt_irrefl _)
      · exact absurd hlt (Nat.lt_irrefl _)

theorem Sound.extend {h : Heap} (hs : t.Sound) (hh : h.Sound) (hext : Heap.Extends t.heap h) :
    Sound { t with heap := h } :=
  ⟨hh, fun r hr => hext.issued (hs.issued r hr),
    fun r hr => Nat.lt_of_lt_of_le (hs.created r hr) hext.nextId, hs.distinct⟩

/-- **One more operation keeps a history sound and only adds to its heap.** -/
theorem Sound.next (hs : t.Sound) (ha : t.Allows op) :
    (t.next op).Sound ∧ Heap.Extends t.heap (t.next op).heap := by
  obtain ⟨hsound, hgrow, hissued⟩ := exec_grows hs ha t.heap hs.heap (le_refl _)
  have hcreated : ∀ r, (op.exec t.heap).1 = .ok (.object r) →
      t.heap.nextId < (op.exec t.heap).2.nextId → r.id = t.heap.nextId := fun r => created_eq
  rcases hx : op.exec t.heap with ⟨x, h⟩
  rw [hx] at hsound hgrow hissued hcreated
  have hold := hs.extend hsound hgrow.toExtends
  cases x with
  | error e =>
    simp only [History.next, hx]
    exact ⟨hold, hgrow.toExtends⟩
  | ok e =>
    cases e with
    | null =>
      simp only [History.next, hx]
      exact ⟨hold, hgrow.toExtends⟩
    | object r =>
      have hr : r.Issued h := hissued _ rfl
      simp only [History.next, hx]
      refine ⟨⟨hsound, ?_, ?_, ?_⟩, hgrow.toExtends⟩
      · exact List.forall_mem_cons.mpr ⟨hr, hold.issued⟩
      · split
        · exact List.forall_mem_cons.mpr ⟨hr.2, hold.created⟩
        · exact hold.created
      · split
        next hlt =>
          refine List.nodup_cons.mpr ⟨fun hmem => ?_, hs.distinct⟩
          obtain ⟨r', hr', hid⟩ := List.mem_map.mp hmem
          have hbelow := hs.created r' hr'
          rw [hid, hcreated r rfl hlt] at hbelow
          exact Nat.lt_irrefl _ hbelow
        · exact hs.distinct

theorem Sound.leads (hs : t.Sound) (h : Leads t t') :
    t'.Sound ∧ Heap.Extends t.heap t'.heap := by
  induction h with
  | refl => exact ⟨hs, Heap.Extends.refl _⟩
  | next op _ ha ih =>
    obtain ⟨hnext, hext⟩ := ih.1.next ha
    exact ⟨hnext, ih.2.trans hext⟩

/-! ## 4. Identity -/

/-- What holds of the objects of a history and of a later one. -/
structure Identity (t t' : History) : Prop where
  /-- An object that was referred to or resolved stands under the reference that was answered. -/
  answered : ∀ v r, v.same v = true →
    ((Heap.reference v t.heap).1 = .ok (.object r) →
      (Heap.reference v t.heap).2.object? v = some r) ∧
    ∀ e, (Heap.resolve e v t.heap).1 = .ok (.object r) →
      (Heap.resolve e v t.heap).2.object? v = some r
  /-- Different objects never have the same number. -/
  distinct : ∀ v v' r r', t.heap.object? v = some r → t.heap.object? v' = some r' →
    r.id = r'.id → v.same v' = true
  /-- An object that has a reference keeps it, whatever it is expected to be. -/
  stable : ∀ v r, t.heap.object? v = some r →
    Heap.reference v t'.heap = (.ok (.object r), t'.heap) ∧
    ∀ e, Heap.resolve e v t'.heap = (.ok (.object r), t'.heap)
  /-- The taken numbers are those of the objects. -/
  bound : ∀ i, i ∈ t.heap.bound ↔ ∃ p ∈ t.heap.objects, p.2.id = i
  /-- Numbers start with one and stay below the next. -/
  issued : ∀ r ∈ t.issued, 1 ≤ r.id ∧ r.id < t.heap.nextId
  /-- No number is given to two references. -/
  created : (t.created.map Ref.id).Nodup
  /-- A number that an object had is never that of another object. -/
  lasting : ∀ v v' r r', t.heap.object? v = some r → t'.heap.object? v' = some r' →
    r.id = r'.id → v.same v' = true

/-- **Object identity.**  On every history, objects and numbers stand for each other, and nothing
that happens later changes it. -/
theorem identity_of_history (ht : Leads {} t) (ht' : Leads t t') : Identity t t' := by
  obtain ⟨hs, -⟩ := sound_empty.leads ht
  obtain ⟨hs', hext⟩ := hs.leads ht'
  constructor
  · intro v r hself
    exact ⟨fun hr => (Heap.stands_of_reference hr).found hself,
      fun e hr => (Heap.stands_of_resolve hr).found hself⟩
  · intro v v' r r' ho ho' hid
    exact hs.heap.same_of_object? ho ho' hid
  · intro v r ho
    have hlater := hext.object? ho
    exact ⟨Heap.reference_of_object? (hs'.heap.ne_null hlater) hlater,
      hs'.heap.resolve_of_object? hlater⟩
  · exact hs.heap.bound
  · exact hs.issued
  · exact hs.distinct
  · intro v v' r r' ho ho' hid
    exact hs'.heap.same_of_object? (hext.object? ho) ho' hid

/-- A new reference is resolved to an object, and then another object is resolved through it. -/
def twoThroughOne : History :=
  (({} : History).next (.new "A")).next (.resolve (.object ⟨1, "A"⟩) (.object "a" "A"))

theorem twoThroughOne_identity :
    Heap.reference (.object "a" "A")
        (twoThroughOne.next (.resolve (.object ⟨1, "A"⟩) (.object "b" "A"))).heap =
      (.ok (.object ⟨1, "A"⟩),
        (twoThroughOne.next (.resolve (.object ⟨1, "A"⟩) (.object "b" "A"))).heap) := by
  have hstart : Leads {} twoThroughOne :=
    .next _ (.next _ .refl trivial) (by decide : (⟨1, "A"⟩ : Ref) ∈ [⟨1, "A"⟩])
  have hlater : Leads twoThroughOne _ :=
    .next (.resolve (.object ⟨1, "A"⟩) (.object "b" "A")) .refl
      (by decide : (⟨1, "A"⟩ : Ref) ∈ [⟨1, "A"⟩, ⟨1, "A"⟩])
  exact ((identity_of_history hstart hlater).stable _ _ (by decide)).1

end History

end Concolic
