import Concolic.Proofs.Contents
import Mathlib.Order.Basic

/-
# Heaps that only grow

The heap gives a host object a reference the first time it sees it, and there are three ways for
that to happen: the object is referred to, it is resolved through a reference that stands for
nothing yet, or it is resolved through a reference that is already taken and gets a new one.  The
objects and the set of taken numbers are kept apart.

`Sound` links the two with the counter, and every operation keeps it.  Operations also only add: an
object that has a reference keeps it, no number is given away twice, and what is stored under the
numbers of before stays (`Grown`).

Facts about references are facts about the heap at some moment, and they stay true while the heap
grows.  `Act.Grows` is a logic for actions with such facts: what is known of an answer is known of
the state in which it was given, and of all states that follow.
-/
namespace Concolic

/-! ## 1. Actions on a growing state -/

/-- From `s₀` on, the action keeps `I` and only adds to the state, failing or not; its answers
satisfy `Q` in the state it leaves. -/
def Act.Grows [Preorder σ] (I : σ → Prop) (s₀ : σ) (a : Act σ α) (Q : σ → α → Prop) : Prop :=
  ∀ s, I s → s₀ ≤ s → I (a s).2 ∧ s ≤ (a s).2 ∧ ∀ x, (a s).1 = .ok x → Q (a s).2 x

namespace Act.Grows

variable [Preorder σ] {I : σ → Prop} {s₀ : σ} {a : Act σ α} {g : α → Act σ β}
  {Q : σ → α → Prop} {R : σ → β → Prop}

theorem pure {x : α} (h : ∀ s, s₀ ≤ s → Q s x) : Grows I s₀ (Pure.pure x) Q := by
  intro s hs hle
  refine ⟨hs, le_refl s, fun y hy => ?_⟩
  cases hy
  exact h s hle

theorem fail (e : Failure) : Grows I s₀ (Act.fail e) Q := by
  intro s hs hle
  refine ⟨hs, le_refl s, fun y hy => ?_⟩
  cases hy

theorem bind (ha : Grows I s₀ a Q)
    (hg : ∀ s x, I s → s₀ ≤ s → Q s x → Grows I s (g x) R) : Grows I s₀ (a >>= g) R := by
  intro s hs hle
  obtain ⟨hI, hgrow, hQ⟩ := ha s hs hle
  rw [Act.bind_apply]
  rcases h : a s with ⟨e | x, t⟩
  · rw [h] at hI hgrow
    refine ⟨hI, hgrow, fun y hy => ?_⟩
    cases hy
  · rw [h] at hI hgrow hQ
    obtain ⟨hI', hgrow', hR⟩ := hg t x hI (le_trans hle hgrow) (hQ x rfl) t hI (le_refl t)
    exact ⟨hI', le_trans hgrow hgrow', hR⟩

theorem imp {Q' : σ → α → Prop} (ha : Grows I s₀ a Q) (h : ∀ s x, I s → s₀ ≤ s → Q s x → Q' s x) :
    Grows I s₀ a Q' := by
  intro s hs hle
  obtain ⟨hI, hgrow, hQ⟩ := ha s hs hle
  exact ⟨hI, hgrow, fun x hx => h _ x hI (le_trans hle hgrow) (hQ x hx)⟩

theorem discard (ha : Grows I s₀ a Q) : Grows I s₀ (Functor.discard a) fun _ _ => True :=
  ha.bind (g := fun _ => Pure.pure ()) fun _ _ _ _ _ => pure fun _ _ => trivial

theorem ensure (b : Bool) (v : Violation) :
    Grows I s₀ (Act.ensure b v) fun _ _ => b = true := by
  cases b with
  | true => exact pure fun _ _ => rfl
  | false => exact fail _

theorem ofExcept {r : Except Violation α} (h : ∀ x, r = .ok x → ∀ s, s₀ ≤ s → Q s x) :
    Grows I s₀ (Act.ofExcept r) Q := by
  cases r with
  | ok x => exact pure (h x rfl)
  | error v => exact fail _

theorem get_bind {g : σ → Act σ β} (hg : ∀ s, I s → s₀ ≤ s → Grows I s (g s) R) :
    Grows I s₀ (get >>= g) R :=
  fun s hs hle => hg s hs hle s hs (le_refl s)

theorem modify {f : σ → σ} (hf : ∀ s, I s → s₀ ≤ s → I (f s) ∧ s ≤ f s) :
    Grows I s₀ (modify f : Act σ PUnit) fun _ _ => True :=
  fun s hs hle => ⟨(hf s hs hle).1, (hf s hs hle).2, fun _ _ => trivial⟩

/-- After an action whose answer does not matter. -/
theorem andThen (ha : Grows I s₀ a Q) (hg : ∀ s x, s₀ ≤ s → Grows I s (g x) R) :
    Grows I s₀ (a >>= g) R :=
  ha.bind fun s x _ hle _ => hg s x hle

/-- An action that may be left out, before another one. -/
theorem ite_bind {p : Prop} [Decidable p] {a : Act σ Unit} {b : Act σ β}
    (ha : Grows I s₀ a fun _ _ => True) (hb : ∀ s, s₀ ≤ s → Grows I s b R) :
    Grows I s₀ (if p then a >>= fun _ => b else b) R := by
  split
  · exact ha.andThen fun s _ hle => hb s hle
  · exact hb s₀ (le_refl s₀)

end Act.Grows

/-! ## 2. Tables -/

namespace Table

theorem insert_of_get?_none {same : κ → κ → Bool} {k : κ} {a : α} :
    ∀ {t : Table κ α}, t.get? same k = none → t.insert same k a = t ++ [(k, a)]
  | [], _ => rfl
  | p :: t, h => by
    rw [get?, Option.map_eq_none_iff, List.find?_cons] at h
    cases hp : same k p.1 with
    | true =>
      rw [hp] at h
      cases h
    | false =>
      rw [hp] at h
      have ih := insert_of_get?_none (a := a) (Option.map_eq_none_iff.mpr h)
      simp [insert, hp, ih]

theorem get?_of_prefix {same : κ → κ → Bool} {t t' : Table κ α} (ht : t <+: t') {k : κ} {a : α}
    (h : t.get? same k = some a) : t'.get? same k = some a := by
  obtain ⟨u, rfl⟩ := ht
  obtain ⟨p, hp, rfl⟩ := Option.map_eq_some_iff.mp h
  simp [get?, List.find?_append, hp]

theorem get?_insert_self [DecidableEq κ] {k : κ} {a : α} :
    ∀ t : Table κ α, (t.insert (fun x y => x = y) k a).get? (fun x y => x = y) k = some a
  | [] => by simp [insert, get?]
  | p :: t => by
    by_cases hp : k = p.1
    · simp [insert, get?, hp]
    · have ih := get?_insert_self (k := k) (a := a) t
      simpa [insert, get?, hp] using ih

theorem get?_insert_of_ne [DecidableEq κ] {k k' : κ} (hk : k' ≠ k) {a : α} :
    ∀ t : Table κ α,
      (t.insert (fun x y => x = y) k a).get? (fun x y => x = y) k' = t.get? (fun x y => x = y) k'
  | [] => by simp [insert, get?, hk]
  | p :: t => by
    by_cases hp : k = p.1
    · subst hp
      simp [insert, get?, hk]
    · have ih := get?_insert_of_ne hk (a := a) t
      by_cases hp' : k' = p.1
      · simp [insert, get?, hp, hp']
      · simpa [insert, get?, hp, hp'] using ih

end Table

/-! ## 3. Sound heaps -/

/-- The number of the reference was handed out. -/
def Ref.Issued (h : Heap) (r : Ref) : Prop := 1 ≤ r.id ∧ r.id < h.nextId

def RefExpr.Issued (h : Heap) : RefExpr → Prop
  | null => True
  | object r => r.Issued h

def Expr.Issued (h : Heap) : Expr → Prop
  | ref e => e.Issued h
  | _ => True

namespace Heap

variable {h h' : Heap} {v : Value} {r : Ref} {e : RefExpr}

/-- Objects have different numbers, the taken numbers are those of the objects, and all references
in the heap were handed out. -/
structure Sound (h : Heap) : Prop where
  nextId : 1 ≤ h.nextId
  issued : ∀ p ∈ h.objects, p.2.Issued h
  distinct : (h.objects.map (·.2.id)).Nodup
  bound : ∀ i, i ∈ h.bound ↔ ∃ p ∈ h.objects, p.2.id = i
  not_null : ∀ p ∈ h.objects, p.1 ≠ .null
  fields : ∀ p ∈ h.fields, p.2.Issued h
  elems : ∀ p ∈ h.elems, p.2.Issued h

theorem sound_empty : Sound {} := by
  constructor <;> simp

/-- Numbers and objects were only added. -/
structure Extends (h h' : Heap) : Prop where
  nextId : h.nextId ≤ h'.nextId
  objects : h.objects <+: h'.objects

/-- Besides, what is stored under the numbers of before is as it was. -/
structure Grown (h h' : Heap) : Prop extends Extends h h' where
  fields : ∀ k : FieldKey, k.ref < h.nextId → h'.field? k = h.field? k
  elems : h'.elems = h.elems

instance : Preorder Heap where
  le := Grown
  le_refl _ := ⟨⟨Nat.le_refl _, List.prefix_rfl⟩, fun _ _ => rfl, rfl⟩
  le_trans _ _ _ h₁ h₂ := by
    refine ⟨⟨Nat.le_trans h₁.nextId h₂.nextId, h₁.objects.trans h₂.objects⟩, fun k hk => ?_,
      h₂.elems.trans h₁.elems⟩
    rw [h₂.fields k (Nat.lt_of_lt_of_le hk h₁.nextId), h₁.fields k hk]

theorem Extends.refl (h : Heap) : Extends h h := ⟨Nat.le_refl _, List.prefix_rfl⟩

theorem Extends.trans {h'' : Heap} (h₁ : Extends h h') (h₂ : Extends h' h'') : Extends h h'' :=
  ⟨Nat.le_trans h₁.nextId h₂.nextId, h₁.objects.trans h₂.objects⟩

theorem Extends.object? (hext : Extends h h') (ho : h.object? v = some r) :
    h'.object? v = some r :=
  Table.get?_of_prefix hext.objects ho

theorem Extends.issued (hext : Extends h h') (hr : r.Issued h) : r.Issued h' :=
  ⟨hr.1, Nat.lt_of_lt_of_le hr.2 hext.nextId⟩

theorem Extends.issued_ref (hext : Extends h h') (he : e.Issued h) : e.Issued h' := by
  cases e with
  | null => trivial
  | object r => exact hext.issued he

theorem Extends.issued_expr {x : Expr} (hext : Extends h h') (hx : x.Issued h) : x.Issued h' := by
  cases x with
  | ref e => exact hext.issued_ref hx
  | _ => trivial

/-- The reference stands for the object.  An object that is not the same as itself has one, but is
not found under it. -/
structure Stands (h : Heap) (r : Ref) (v : Value) : Prop where
  bound : ∃ p ∈ h.objects, p.2 = r ∧ (p.1 = v ∨ v.same p.1 = true)
  found : v.same v = true → h.object? v = some r

theorem Extends.stands (hext : Extends h h') (hr : h.Stands r v) : h'.Stands r v := by
  obtain ⟨p, hp, hkey⟩ := hr.bound
  exact ⟨⟨p, hext.objects.subset hp, hkey⟩, fun hself => hext.object? (hr.found hself)⟩

theorem object?_mem (ho : h.object? v = some r) : ∃ p ∈ h.objects, v.same p.1 = true ∧ p.2 = r := by
  obtain ⟨p, hp, rfl⟩ := Option.map_eq_some_iff.mp ho
  have hsame := List.find?_some (p := fun p : Value × Ref => v.same p.1) hp
  exact ⟨p, List.mem_of_find?_eq_some hp, hsame, rfl⟩

theorem Sound.object?_issued (hs : h.Sound) (ho : h.object? v = some r) : r.Issued h := by
  obtain ⟨p, hp, -, rfl⟩ := object?_mem ho
  exact hs.issued p hp

theorem Sound.object?_null (hs : h.Sound) : h.object? .null = none := by
  refine Option.eq_none_iff_forall_ne_some.mpr fun r ho => ?_
  obtain ⟨p, hp, hsame, -⟩ := object?_mem ho
  exact hs.not_null p hp (by simpa [Value.same, eq_comm] using hsame)

/-! ## 4. Operations -/

/-- The heap after a number is handed out. -/
def issue (h : Heap) : Heap := { h with nextId := h.nextId + 1 }

/-- The heap in which `r` stands for `v`. -/
def record (h : Heap) (v : Value) (r : Ref) : Heap :=
  { h with objects := h.objects.insert Value.same v r, bound := r.id :: h.bound }

/-- The reference that is handed out next. -/
def next (h : Heap) (type : String) : Ref := ⟨h.nextId, type⟩

theorem new_apply (h : Heap) (type : String) : new type h = (.ok (h.next type), h.issue) := rfl

theorem newArray_apply (h : Heap) (type : String) (n : IntExpr) :
    newArray type n h =
      (.ok (h.next type), h.issue.putField (lengthKey (h.next type)) (.int n)) := rfl

theorem le_issue (h : Heap) : h ≤ h.issue :=
  ⟨⟨Nat.le_succ _, List.prefix_rfl⟩, fun _ _ => rfl, rfl⟩

theorem Sound.issue (hs : h.Sound) : h.issue.Sound := by
  have hext : Extends h h.issue := (le_issue h).toExtends
  exact ⟨Nat.le_succ_of_le hs.nextId, fun p hp => hext.issued (hs.issued p hp), hs.distinct,
    hs.bound, hs.not_null, fun p hp => hext.issued_expr (hs.fields p hp),
    fun p hp => hext.issued_expr (hs.elems p hp)⟩

theorem Sound.issued_next (hs : h.Sound) (type : String) : (h.next type).Issued h.issue :=
  ⟨hs.nextId, Nat.lt_succ_self _⟩

theorem Sound.next_not_bound (hs : h.Sound) (type : String) :
    (h.next type).id ∉ h.issue.bound := by
  intro hmem
  obtain ⟨p, hp, hid⟩ := (hs.bound _).mp hmem
  exact absurd (hs.issued p hp).2 (by rw [hid]; exact Nat.lt_irrefl _)

theorem objects_record (ho : h.object? v = none) :
    (h.record v r).objects = h.objects ++ [(v, r)] :=
  Table.insert_of_get?_none ho

/-- **An object that was not seen can be given any reference that is not taken.** -/
theorem Sound.record (hs : h.Sound) (hv : v ≠ .null) (ho : h.object? v = none)
    (hr : r.Issued h) (hfree : r.id ∉ h.bound) : (h.record v r).Sound := by
  have hobjects := objects_record (r := r) ho
  refine ⟨hs.nextId, fun p hp => ?_, ?_, fun i => ?_, fun p hp => ?_, hs.fields, hs.elems⟩
  · rw [hobjects] at hp
    rcases List.mem_append.mp hp with hold | hnew
    · exact hs.issued p hold
    · cases List.mem_singleton.mp hnew
      exact hr
  · rw [hobjects, List.map_append]
    refine List.nodup_append.mpr ⟨hs.distinct, by simp, ?_⟩
    intro i hi j hj hij
    obtain ⟨p, hp, rfl⟩ := List.mem_map.mp hi
    cases List.mem_singleton.mp hj
    exact hfree ((hs.bound _).mpr ⟨p, hp, hij⟩)
  · rw [hobjects]
    simp only [Heap.record, List.mem_cons, hs.bound, List.mem_append, List.not_mem_nil, or_false]
    constructor
    · rintro (rfl | ⟨p, hp, hid⟩)
      · exact ⟨(v, r), Or.inr rfl, rfl⟩
      · exact ⟨p, Or.inl hp, hid⟩
    · rintro ⟨p, hp | rfl, hid⟩
      · exact Or.inr ⟨p, hp, hid⟩
      · exact Or.inl hid.symm
  · rw [hobjects] at hp
    rcases List.mem_append.mp hp with hold | hnew
    · exact hs.not_null p hold
    · cases List.mem_singleton.mp hnew
      exact hv

theorem le_record (ho : h.object? v = none) : h ≤ h.record v r :=
  ⟨⟨Nat.le_refl _, ⟨[(v, r)], (objects_record ho).symm⟩⟩, fun _ _ => rfl, rfl⟩

theorem stands_record (ho : h.object? v = none) : (h.record v r).Stands r v := by
  have hobjects := objects_record (r := r) ho
  have hnone : h.objects.find? (fun p => v.same p.1) = none := Option.map_eq_none_iff.mp ho
  refine ⟨⟨(v, r), by simp [hobjects], rfl, Or.inl rfl⟩, fun hself => ?_⟩
  rw [Heap.object?, hobjects]
  simp [Table.get?, List.find?_append, hnone, hself]

theorem bind_apply (hv : v ≠ .null) :
    bind v r h =
      if v.isComparable then (.ok (), h.record v r)
      else (.error (.violation (.notComparable v)), h) := by
  cases hc : v.isComparable <;> simp [bind, Act.ensure, hv, hc] <;> rfl

theorem reference_null (h : Heap) : reference .null h = (.ok .null, h) := by
  simp [reference]

theorem reference_of_object? (hv : v ≠ .null) (ho : h.object? v = some r) :
    reference v h = (.ok (.object r), h) := by
  rw [reference, if_neg hv, Act.get_bind_apply, ho]
  rfl

theorem reference_of_none (hv : v ≠ .null) (ho : h.object? v = none) :
    reference v h =
      if v.isComparable then
        (.ok (.object (h.next v.className)), h.issue.record v (h.next v.className))
      else (.error (.violation (.notComparable v)), h.issue) := by
  have hbind := bind_apply (h := h.issue) (r := h.next v.className) hv
  rw [reference, if_neg hv, Act.get_bind_apply, ho]
  dsimp only
  rw [Act.bind_apply, new_apply]
  dsimp only
  rw [Act.bind_apply, hbind]
  cases v.isComparable <;> rfl

theorem resolve_eq_reference {e : RefExpr} (h : Heap)
    (he : v = .null ∨ h.object? v ≠ none ∨ ∀ r, e = .object r → r.id ∈ h.bound) :
    resolve e v h = reference v h := by
  by_cases hv : v = .null
  · simp [resolve, reference, hv]
  cases ho : h.object? v with
  | some r =>
    rw [reference_of_object? hv ho, resolve.eq_def, if_neg hv, Act.get_bind_apply, ho]
    rfl
  | none =>
    have hbound : ∀ r, e = .object r → r.id ∈ h.bound := by
      rcases he with he | he | he
      · exact absurd he hv
      · exact absurd ho he
      · exact he
    rw [resolve.eq_def, if_neg hv, Act.get_bind_apply, ho]
    cases e with
    | null => rfl
    | object r =>
      dsimp only
      rw [Act.get_bind_apply, if_pos (List.contains_iff_mem.mpr (hbound r rfl))]

theorem resolve_of_free (hv : v ≠ .null) (ho : h.object? v = none) (hr : r.id ∉ h.bound) :
    resolve (.object r) v h =
      if v.isComparable then (.ok (.object r), h.record v r)
      else (.error (.violation (.notComparable v)), h) := by
  have hcontains : ¬ h.bound.contains r.id = true := fun hmem => hr (List.contains_iff_mem.mp hmem)
  rw [resolve, if_neg hv, Act.get_bind_apply, ho]
  dsimp only
  rw [Act.get_bind_apply, if_neg hcontains, Act.bind_apply, bind_apply hv]
  cases v.isComparable <;> rfl

/-- **To resolve an object is to refer to it,** unless it was not seen and the reference is free. -/
theorem resolve_cases (h : Heap) (e : RefExpr) (v : Value) :
    resolve e v h = reference v h ∨
      ∃ r, e = .object r ∧ v ≠ .null ∧ h.object? v = none ∧ r.id ∉ h.bound := by
  by_cases hfree : ∃ r, e = .object r ∧ v ≠ .null ∧ h.object? v = none ∧ r.id ∉ h.bound
  · exact Or.inr hfree
  · refine Or.inl (resolve_eq_reference h ?_)
    grind

/-! ## 5. Operations keep heaps sound -/

theorem new_grows (h₀ : Heap) (type : String) :
    Act.Grows Sound h₀ (new type) fun h r => r.Issued h :=
  fun h hs _ => ⟨hs.issue, le_issue h, fun r hr => by cases hr; exact hs.issued_next type⟩

theorem newArray_grows (h₀ : Heap) (type : String) (n : IntExpr) :
    Act.Grows Sound h₀ (newArray type n) fun h r => r.Issued h := by
  intro h hs _
  rw [newArray_apply]
  have hsound := hs.issue
  refine ⟨⟨hsound.nextId, hsound.issued, hsound.distinct, hsound.bound, hsound.not_null,
    fun p hp => ?_, hsound.elems⟩, ⟨⟨Nat.le_succ _, List.prefix_rfl⟩, fun k hk => ?_, rfl⟩,
    fun r hr => ?_⟩
  · rcases Table.mem_insert hp with rfl | hold
    · trivial
    · exact hsound.fields p hold
  · -- The length is stored under a number that no field of before has.
    refine Table.get?_insert_of_ne ?_ _
    rintro rfl
    exact absurd hk (Nat.lt_irrefl _)
  · cases hr
    exact hs.issued_next type

theorem reference_grows (h₀ : Heap) (v : Value) :
    Act.Grows Sound h₀ (reference v) fun h e => e.Issued h := by
  intro h hs _
  by_cases hv : v = .null
  · rw [hv, reference_null]
    exact ⟨hs, le_refl h, fun e he => by cases he; trivial⟩
  cases ho : h.object? v with
  | some r =>
    rw [reference_of_object? hv ho]
    exact ⟨hs, le_refl h, fun e he => by cases he; exact hs.object?_issued ho⟩
  | none =>
    rw [reference_of_none hv ho]
    cases v.isComparable with
    | false => exact ⟨hs.issue, le_issue h, fun e he => by cases he⟩
    | true =>
      have hnext := hs.issued_next v.className
      refine ⟨hs.issue.record hv ho hnext (hs.next_not_bound _),
        le_trans (le_issue h) (le_record ho), fun e he => ?_⟩
      cases he
      exact hnext

theorem resolve_grows {h₀ : Heap} {e : RefExpr} (he : e.Issued h₀) (v : Value) :
    Act.Grows Sound h₀ (resolve e v) fun h e' => e'.Issued h := by
  intro h hs hle
  rcases resolve_cases h e v with heq | ⟨r, rfl, hv, ho, hr⟩
  · rw [heq]
    exact reference_grows h₀ v h hs hle
  · have hissued : r.Issued h := hle.issued he
    rw [resolve_of_free hv ho hr]
    cases v.isComparable with
    | false => exact ⟨hs, le_refl h, fun e he => by cases he⟩
    | true =>
      refine ⟨hs.record hv ho hissued hr, le_record ho, fun e he => ?_⟩
      cases he
      exact hissued

theorem constant_grows (h₀ : Heap) (w : Option Width) (v : Value) :
    Act.Grows Sound h₀ (constant w v) fun h x => x.Issued h := by
  have hany : ∀ {α : Type} (r : Except Violation α),
      Act.Grows Sound h₀ (Act.ofExcept r) fun _ _ => True :=
    fun _ => Act.Grows.ofExcept fun _ _ _ _ => trivial
  unfold constant
  split
  · exact (hany _).andThen fun _ _ _ => Act.Grows.pure fun _ _ => trivial
  · exact (hany _).andThen fun _ _ _ => Act.Grows.pure fun _ _ => trivial
  · exact (hany _).andThen fun _ _ _ => Act.Grows.pure fun _ _ => trivial
  · exact (hany _).andThen fun _ _ _ => Act.Grows.pure fun _ _ => trivial
  · refine (reference_grows h₀ v).bind fun h e _ _ he => ?_
    exact Act.Grows.pure fun h' hle => hle.issued_ref he
  · exact Act.Grows.fail _

theorem observe_grows {h₀ : Heap} (w : Option Width) (v : Value) {stored : Option Expr}
    (hstored : ∀ x, stored = some x → x.Issued h₀) :
    Act.Grows Sound h₀ (observe w v stored) fun h x => x.Issued h := by
  unfold observe
  split
  next e =>
    have he : e.Issued h₀ := hstored _ rfl
    refine (resolve_grows he v).bind fun h e' _ _ he' => ?_
    exact Act.Grows.pure fun h' hle => hle.issued_ref he'
  · exact constant_grows h₀ w v

theorem Sound.field?_issued (hs : h.Sound) {k : FieldKey} {x : Expr} (hx : h.field? k = some x) :
    x.Issued h := by
  obtain ⟨p, hp, rfl⟩ := Table.mem_of_get? hx
  exact hs.fields p hp

theorem Sound.elem?_issued (hs : h.Sound) {k : ElemKey} {x : Expr} (hx : h.elem? k = some x) :
    x.Issued h := by
  obtain ⟨p, hp, rfl⟩ := Table.mem_of_get? hx
  exact hs.elems p hp

theorem current_issued {stored : Option Expr} {observed : Expr}
    (hstored : ∀ x, stored = some x → x.Issued h) (ho : observed.Issued h) :
    (current stored observed).Issued h := by
  unfold current
  split
  next x =>
    split
    · exact hstored x rfl
    · exact ho
  · exact ho

/-- **An object that was referred to or resolved has the reference that was answered.** -/
theorem stands_of_reference (hr : (reference v h).1 = .ok (.object r)) :
    (reference v h).2.Stands r v := by
  by_cases hv : v = .null
  · rw [hv, reference_null] at hr
    cases hr
  cases ho : h.object? v with
  | some r' =>
    rw [reference_of_object? hv ho] at hr ⊢
    cases hr
    obtain ⟨p, hp, hsame, hr⟩ := object?_mem ho
    exact ⟨⟨p, hp, hr, Or.inr hsame⟩, fun _ => ho⟩
  | none =>
    rw [reference_of_none hv ho] at hr ⊢
    cases hc : v.isComparable with
    | false =>
      rw [hc] at hr
      cases hr
    | true =>
      rw [hc] at hr
      cases hr
      exact stands_record ho

theorem stands_of_resolve {e : RefExpr} (hr : (resolve e v h).1 = .ok (.object r)) :
    (resolve e v h).2.Stands r v := by
  rcases resolve_cases h e v with heq | ⟨r', rfl, hv, ho, hr'⟩
  · rw [heq] at hr ⊢
    exact stands_of_reference hr
  · rw [resolve_of_free hv ho hr'] at hr ⊢
    cases hc : v.isComparable with
    | false =>
      rw [hc] at hr
      cases hr
    | true =>
      rw [hc] at hr
      cases hr
      exact stands_record ho

theorem Sound.ne_null (hs : h.Sound) (ho : h.object? v = some r) : v ≠ .null := by
  rintro rfl
  rw [hs.object?_null] at ho
  cases ho

/-- **An object that has a reference is found under it, whatever it is expected to be.** -/
theorem Sound.resolve_of_object? (hs : h.Sound) (ho : h.object? v = some r) (e : RefExpr) :
    resolve e v h = (.ok (.object r), h) := by
  rw [resolve_eq_reference h (Or.inr (Or.inl (by simp [ho]))),
    reference_of_object? (hs.ne_null ho) ho]

end Heap

end Concolic
