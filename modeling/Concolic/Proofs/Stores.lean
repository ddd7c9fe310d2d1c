import Concolic.Proofs.Faults
import Concolic.Proofs.HeapIdentity
import Concolic.Proofs.Issued

/-
# Stores

The host knows its fields and elements by the objects they belong to; the heap keeps expressions
under the numbers of their references.  A `Place` is meant the first way and a `Location` the
second, and `Locates` is the link: the machine keeps the place at the location.  It stays so once it
is so (`Locates.mono`), and different places are kept at different locations
(`Machine.same_of_locates`), although static fields and the lengths of arrays share a table with the
fields of objects.

A store is an action that finds a location, followed by one that writes it (`exec_store`).  So an
instruction leaves every location as it is, or it is a store that did not fault, and the location is
that of its place (`exec_leaves`).
-/
namespace Concolic

/-! ## 1. Locations -/

/-- Where the heap keeps an expression. -/
inductive Location
  | field (k : FieldKey)
  | elem (k : ElemKey)
deriving DecidableEq, Repr

namespace Heap

/-- What is kept at a location. -/
def stored? (h : Heap) : Location → Option Expr
  | .field k => h.field? k
  | .elem k => h.elem? k

/-- The heap in which `x` is kept at `l`. -/
def put (h : Heap) (l : Location) (x : Expr) : Heap :=
  match l with
  | .field k => h.putField k x
  | .elem k => h.putElem k x

variable {h : Heap} {l l' : Location} {x : Expr}

theorem stored?_put_self (h : Heap) (l : Location) (x : Expr) : (h.put l x).stored? l = some x := by
  cases l with
  | field k => exact Table.get?_insert_self h.fields
  | elem k => exact Table.get?_insert_self h.elems

theorem stored?_put_of_ne (hl : l' ≠ l) : (h.put l x).stored? l' = h.stored? l' := by
  cases l with
  | field k =>
    cases l' with
    | field k' => exact Table.get?_insert_of_ne (fun hk => hl (congrArg _ hk)) h.fields
    | elem k' => rfl
  | elem k =>
    cases l' with
    | field k' => rfl
    | elem k' => exact Table.get?_insert_of_ne (fun hk => hl (congrArg _ hk)) h.elems

theorem extends_put (h : Heap) (l : Location) (x : Expr) : Extends h (h.put l x) := by
  cases l <;> exact ⟨Nat.le_refl _, List.prefix_rfl⟩

theorem Sound.put (hs : h.Sound) (l : Location) (hx : x.Issued h) : (h.put l x).Sound := by
  cases l with
  | field k =>
    refine ⟨hs.nextId, hs.issued, hs.distinct, hs.bound, hs.not_null, fun p hp => ?_, hs.elems⟩
    rcases Table.mem_insert hp with rfl | hold
    · exact hx
    · exact hs.fields p hold
  | elem k =>
    refine ⟨hs.nextId, hs.issued, hs.distinct, hs.bound, hs.not_null, hs.fields, fun p hp => ?_⟩
    rcases Table.mem_insert hp with rfl | hold
    · exact hx
    · exact hs.elems p hold

end Heap

/-! ## 2. Places -/

/-- Where the host keeps a value: a field of an object, a static field, an element of an array. -/
inductive Place
  | field (receiver : Value) (owner name : String)
  | static (owner name : String)
  | element (array : Value) (index : Int32)
deriving DecidableEq, Repr

/-- Whether two places are the same, as objects are. -/
def Place.same : Place → Place → Bool
  | field v o n, field v' o' n' => v.same v' && o = o' && n = n'
  | static o n, static o' n' => o = o' && n = n'
  | element v i, element v' i' => v.same v' && i = i'
  | _, _ => false

theorem Place.same_symm {p q : Place} (h : p.same q = true) : q.same p = true := by
  cases p <;> cases q <;> simp [same] at h ⊢
  · exact ⟨⟨Value.same_symm h.1.1, h.1.2.symm⟩, h.2.symm⟩
  · exact ⟨h.1.symm, h.2.symm⟩
  · exact ⟨Value.same_symm h.1, h.2.symm⟩

theorem Place.same_self {p q : Place} (h : p.same q = true) : p.same p = true := by
  cases p <;> cases q <;> simp [same] at h ⊢
  · exact Value.same_trans h.1.1 (Value.same_symm h.1.1)
  · exact Value.same_trans h.1 (Value.same_symm h.1)

/-- The number that a location belongs to; zero for static fields. -/
def Location.ref : Location → Nat
  | field k => k.ref
  | elem k => k.ref

namespace Heap

variable {h : Heap} {v v' : Value} {r : Ref}

theorem object?_congr (hsame : v.same v' = true) : h.object? v = h.object? v' := by
  have hkeys : (fun x : Value × Ref => v.same x.1) = fun x => v'.same x.1 := by
    funext x
    refine Bool.eq_iff_iff.mpr ⟨fun hx => ?_, fun hx => Value.same_trans hsame hx⟩
    exact Value.same_trans (Value.same_symm hsame) hx
  rw [object?, object?, Table.get?, Table.get?, hkeys]

/-- A reference stands for all values that are the same object. -/
theorem Stands.congr (hsame : v.same v' = true) (hr : h.Stands r v) : h.Stands r v' := by
  have hself : v.same v = true := Value.same_trans hsame (Value.same_symm hsame)
  have hfound : h.object? v' = some r := (object?_congr hsame).symm.trans (hr.found hself)
  exact (stands_of_object? hfound).2

theorem Sound.stands_issued (hs : h.Sound) (hr : h.Stands r v) : r.Issued h := by
  obtain ⟨p, hp, rfl, -⟩ := hr.bound
  exact hs.issued p hp

end Heap

namespace Machine

/-- The machine keeps the place at the location. -/
def Locates (m : Machine) : Place → Location → Prop
  | .field v owner name, l => ∃ r, m.heap.Stands r v ∧ l = .field ⟨r.id, owner, name⟩
  | .static owner name, l => owner ∈ m.prepared ∧ l = .field ⟨0, owner, name⟩
  | .element v i, l => ∃ r, m.heap.Stands r v ∧ r.isArray = true ∧ l = .elem ⟨r.id, i.toInt⟩

variable {m m' m₀ : Machine} {p q : Place} {l : Location}

theorem Locates.mono (hext : Heap.Extends m.heap m'.heap) (hprepared : m.prepared ⊆ m'.prepared)
    (h : m.Locates p l) : m'.Locates p l := by
  cases p with
  | field v owner name =>
    obtain ⟨r, hr, hl⟩ := h
    exact ⟨r, hext.stands hr, hl⟩
  | static owner name => exact ⟨hprepared h.1, h.2⟩
  | element v i =>
    obtain ⟨r, hr, harray, hl⟩ := h
    exact ⟨r, hext.stands hr, harray, hl⟩

theorem Locates.congr (hsame : p.same q = true) (h : m.Locates p l) : m.Locates q l := by
  cases p with
  | field v owner name =>
    cases q with
    | field v' owner' name' =>
      obtain ⟨⟨hv, rfl⟩, rfl⟩ : (v.same v' = true ∧ owner = owner') ∧ name = name' := by
        simpa [Place.same] using hsame
      obtain ⟨r, hr, hl⟩ := h
      exact ⟨r, hr.congr hv, hl⟩
    | _ => cases hsame
  | static owner name =>
    cases q with
    | static owner' name' =>
      obtain ⟨rfl, rfl⟩ : owner = owner' ∧ name = name' := by simpa [Place.same] using hsame
      exact h
    | _ => cases hsame
  | element v i =>
    cases q with
    | element v' i' =>
      obtain ⟨hv, rfl⟩ : v.same v' = true ∧ i = i' := by simpa [Place.same] using hsame
      obtain ⟨r, hr, harray, hl⟩ := h
      exact ⟨r, hr.congr hv, harray, hl⟩
    | _ => cases hsame

theorem Locates.ref_lt (hs : m.heap.Sound) (h : m.Locates p l) : l.ref < m.heap.nextId := by
  cases p with
  | field v owner name =>
    obtain ⟨r, hr, rfl⟩ := h
    exact (hs.stands_issued hr).2
  | static owner name =>
    obtain ⟨-, rfl⟩ := h
    exact hs.nextId
  | element v i =>
    obtain ⟨r, hr, -, rfl⟩ := h
    exact (hs.stands_issued hr).2

/-- **Different places are kept at different locations.** -/
theorem same_of_locates (hs : m.heap.Sound) (hself : p.same p = true) (hp : m.Locates p l)
    (hq : m.Locates q l) : p.same q = true := by
  cases p with
  | field v owner name =>
    obtain ⟨r, hr, rfl⟩ := hp
    have hv : v.same v = true := by simpa [Place.same] using hself
    cases q with
    | field v' owner' name' =>
      obtain ⟨r', hr', heq⟩ := hq
      obtain ⟨hid, rfl, rfl⟩ : r.id = r'.id ∧ owner = owner' ∧ name = name' := by simpa using heq
      simpa [Place.same] using hs.same_of_id hv hr hr' hid
    | static owner' name' =>
      have hpos := (hs.stands_issued hr).1
      have hzero : r.id = 0 := by simpa [Location.ref] using congrArg Location.ref hq.2
      omega
    | element v' i =>
      obtain ⟨r', -, -, heq⟩ := hq
      cases heq
  | static owner name =>
    obtain ⟨-, rfl⟩ := hp
    cases q with
    | field v' owner' name' =>
      obtain ⟨r', hr', heq⟩ := hq
      have hpos := (hs.stands_issued hr').1
      have hzero : 0 = r'.id := by simpa [Location.ref] using congrArg Location.ref heq
      omega
    | static owner' name' =>
      obtain ⟨rfl, rfl⟩ : owner = owner' ∧ name = name' := by simpa using hq.2
      exact hself
    | element v' i =>
      obtain ⟨r', -, -, heq⟩ := hq
      cases heq
  | element v i =>
    obtain ⟨r, hr, -, rfl⟩ := hp
    have hv : v.same v = true := by simpa [Place.same] using hself
    cases q with
    | field v' owner' name' =>
      obtain ⟨r', -, heq⟩ := hq
      cases heq
    | static owner' name' => cases hq.2
    | element v' i' =>
      obtain ⟨r', hr', -, heq⟩ := hq
      obtain ⟨hid, hi⟩ : r.id = r'.id ∧ i.toInt = i'.toInt := by simpa using heq
      have hsame := hs.same_of_id hv hr hr' hid
      simpa [Place.same, hsame] using Int32.toInt_inj.mp hi

/-! ## 3. What a store writes -/

/-- What a store into a field of `receiver` writes and where; nothing if it faults. -/
def fieldTarget (receiver : Value) (owner name desc : String) :
    Act Machine (Option (Location × Operand)) := do
  let o ← onStack Stack.pop
  let w ← fieldWidth desc
  Act.ensure (some o.width = w) (.putFieldWidth owner name w o.width)
  let e ← onStack Stack.popRef
  if receiver = .null then
    let _ ← nullAccess
    return none
  else
    match ← resolve e receiver with
    | .null => Act.violated (.unresolved receiver)
    | .object r => return some (.field ⟨r.id, owner, name⟩, o)

/-- What a store into a static field writes and where. -/
def staticTarget (owner name desc : String) : Act Machine (Option (Location × Operand)) := do
  prepare owner
  let o ← onStack Stack.pop
  let w ← fieldWidth desc
  Act.ensure (some o.width = w) (.putStaticWidth owner name w o.width)
  return some (.field ⟨0, owner, name⟩, o)

/-- What a store into an element writes and where; nothing if it faults. -/
def elemTarget (w : Width) (a : Option HostArray) (n : Int32) :
    Act Machine (Option (Location × Operand)) := do
  let o ← onStack Stack.pop
  Act.ensure (o.width = w) (.arrayStoreWidth w o.width)
  let index ← onStack Stack.popInt
  let e ← onStack Stack.popRef
  match ← checkAccess e a index n with
  | none => return none
  | some (r, _) => return some (.elem (slot r n), o)

/-- Writes what a store is to write; answers whether the store faulted. -/
def write : Option (Location × Operand) → Act Machine Bool
  | none => return true
  | some (l, o) => do
    modify fun m => { m with heap := m.heap.put l o.expr }
    return false

theorem fieldTarget_grows (receiver : Value) (owner name desc : String) :
    Act.Grows Sound m₀ (fieldTarget receiver owner name desc) fun m x => ∀ l o, x = some (l, o) →
      o.Issued m.heap ∧ m.Locates (.field receiver owner name) l := by
  refine pop_grows.bind fun m o _ _ ho => (fieldWidth_grows desc).andThen fun m₁ w hle₁ => ?_
  refine (Act.Grows.ensure _ _).andThen fun m₂ _ hle₂ => popRef_grows.bind fun m₃ e _ hle₃ he => ?_
  split
  · exact nullAccess_grows.andThen fun _ _ _ => Act.Grows.pure fun _ _ _ _ h => by cases h
  · refine (resolve_grows he receiver).bind fun m₄ x _ hle₄ hx => ?_
    cases x with
    | null => exact Act.Grows.fail _
    | object r =>
      refine Act.Grows.pure fun m₅ hle₅ l o' h => ?_
      cases h
      have hle : m ≤ m₅ := le_trans hle₁ (le_trans hle₂ (le_trans hle₃ (le_trans hle₄ hle₅)))
      exact ⟨hle.1.issued_operand ho, r, hle₅.1.stands (hx r rfl), rfl⟩

theorem staticTarget_grows (owner name desc : String) :
    Act.Grows Sound m₀ (staticTarget owner name desc) fun m x => ∀ l o, x = some (l, o) →
      o.Issued m.heap ∧ m.Locates (.static owner name) l := by
  refine (prepare_grows owner).bind fun _ _ _ _ hmem => pop_grows.bind fun m o _ hle ho => ?_
  refine (fieldWidth_grows desc).andThen fun m₁ w hle₁ => ?_
  refine (Act.Grows.ensure _ _).andThen fun m₂ _ hle₂ => Act.Grows.pure fun m₃ hle₃ l o' h => ?_
  cases h
  have hlater : m ≤ m₃ := le_trans hle₁ (le_trans hle₂ hle₃)
  exact ⟨hlater.1.issued_operand ho, (le_trans hle hlater).2 hmem, rfl⟩

theorem elemTarget_grows (w : Width) (a : Option HostArray) (n : Int32) :
    Act.Grows Sound m₀ (elemTarget w a n) fun m x => ∀ l o, x = some (l, o) →
      o.Issued m.heap ∧ ∃ a', a = some a' ∧ m.Locates (.element a'.toValue n) l := by
  refine pop_grows.bind fun m o _ _ ho => (Act.Grows.ensure _ _).andThen fun m₁ _ hle₁ => ?_
  refine popInt_grows.andThen fun m₂ index hle₂ => popRef_grows.bind fun m₃ e _ hle₃ he => ?_
  refine (checkAccess_grows he a index n).bind fun m₄ x _ hle₄ hx => ?_
  cases x with
  | none => exact Act.Grows.pure fun _ _ _ _ h => by cases h
  | some p =>
    obtain ⟨r, a'⟩ := p
    obtain ⟨ha, hr, harray⟩ := hx r a' rfl
    refine Act.Grows.pure fun m₅ hle₅ l o' h => ?_
    cases h
    have hle : m ≤ m₅ := le_trans hle₁ (le_trans hle₂ (le_trans hle₃ (le_trans hle₄ hle₅)))
    exact ⟨hle.1.issued_operand ho, a', ha, r, hle₅.1.stands hr, harray, rfl⟩

theorem prepare_operands {name : String} (h : prepare name m = (.ok (), m')) :
    m'.operands = m.operands := by
  obtain ⟨names, log, hleft, -⟩ := prepare_prepares name m
  rw [h] at hleft
  subst hleft
  rfl

end Machine

namespace Instruction

/-- What a store writes and where; nothing if it faults, or if the instruction is no store. -/
def target : Instruction → Act Machine (Option (Location × Operand))
  | putField v o n d => Machine.fieldTarget v o n d
  | putStatic o n d => Machine.staticTarget o n d
  | arrayStore w a n => Machine.elemTarget w a n
  | _ => return none

/-- The place that an instruction stores into, if it does not fault. -/
def place? : Instruction → Option Place
  | putField v o n _ => some (.field v o n)
  | putStatic o n _ => some (.static o n)
  | arrayStore _ (some a) n => some (.element a.toValue n)
  | _ => none

/-- The location that a store finds is that of its place. -/
theorem target_grows (m₀ : Machine) (i : Instruction) :
    Act.Grows Machine.Sound m₀ i.target fun m x => ∀ l o, x = some (l, o) →
      o.Issued m.heap ∧ ∃ p, i.place? = some p ∧ m.Locates p l := by
  cases i with
  | putField v owner name d =>
    refine (Machine.fieldTarget_grows v owner name d).imp fun m x _ _ hx l o h => ?_
    exact ⟨(hx l o h).1, _, rfl, (hx l o h).2⟩
  | putStatic owner name d =>
    refine (Machine.staticTarget_grows owner name d).imp fun m x _ _ hx l o h => ?_
    exact ⟨(hx l o h).1, _, rfl, (hx l o h).2⟩
  | arrayStore w a n =>
    refine (Machine.elemTarget_grows w a n).imp fun m x _ _ hx l o h => ?_
    obtain ⟨ho, a', rfl, hl⟩ := hx l o h
    exact ⟨ho, _, rfl, hl⟩
  | _ => exact Act.Grows.pure fun _ _ _ _ h => by cases h

/-- What a store writes is the operand on top. -/
theorem target_ok {i : Instruction} {m m' : Machine} {l : Location} {o : Operand}
    (h : i.target m = (.ok (some (l, o)), m')) : ∃ s, m.operands = o :: s := by
  cases i with
  | putField v owner name d =>
    obtain ⟨o', m₁, ho, h⟩ := Act.bind_ok h
    obtain ⟨w, m₂, -, h⟩ := Act.bind_ok h
    obtain ⟨-, h⟩ := Act.ensure_bind_ok h
    obtain ⟨e, m₃, -, h⟩ := Act.bind_ok h
    have heq : o' = o := by
      split at h
      · obtain ⟨_, _, -, h⟩ := Act.bind_ok h
        cases h
      · obtain ⟨x, m₄, -, h⟩ := Act.bind_ok h
        cases x with
        | null => cases h
        | object r =>
          cases h
          rfl
    exact ⟨_, heq ▸ Stack.pop_ok (Machine.onStack_ok ho).1⟩
  | putStatic owner name d =>
    obtain ⟨_, m₁, hprepare, h⟩ := Act.bind_ok h
    obtain ⟨o', m₂, ho, h⟩ := Act.bind_ok h
    obtain ⟨w, m₃, -, h⟩ := Act.bind_ok h
    obtain ⟨-, h⟩ := Act.ensure_bind_ok h
    cases h
    exact ⟨_, Machine.prepare_operands hprepare ▸ Stack.pop_ok (Machine.onStack_ok ho).1⟩
  | arrayStore w a n =>
    obtain ⟨o', m₁, ho, h⟩ := Act.bind_ok h
    obtain ⟨-, h⟩ := Act.ensure_bind_ok h
    obtain ⟨index, m₂, -, h⟩ := Act.bind_ok h
    obtain ⟨e, m₃, -, h⟩ := Act.bind_ok h
    obtain ⟨x, m₄, -, h⟩ := Act.bind_ok h
    have heq : o' = o := by
      cases x with
      | none => cases h
      | some _ =>
        cases h
        rfl
    exact ⟨_, heq ▸ Stack.pop_ok (Machine.onStack_ok ho).1⟩
  | _ => cases h

/-- **A store finds its location and then writes it.** -/
theorem exec_store {i : Instruction} (hi : i.isStore = true) :
    i.exec = i.target >>= Machine.write := by
  cases i with
  | putField v owner name d =>
    simp only [exec, target, Machine.putField, Machine.fieldTarget, bind_assoc]
    refine bind_congr fun o => bind_congr fun w => bind_congr fun _ => bind_congr fun e => ?_
    split
    · rw [bind_assoc, Machine.nullAccess, bind_assoc]
      rfl
    · rw [bind_assoc]
      refine bind_congr fun x => ?_
      cases x <;> rfl
  | putStatic owner name d =>
    simp only [exec, target, safely, Machine.putStatic, Machine.staticTarget, bind_assoc]
    rfl
  | arrayStore w a n =>
    simp only [exec, target, Machine.arrayStore, Machine.elemTarget, bind_assoc]
    refine bind_congr fun o => bind_congr fun _ => bind_congr fun index => bind_congr fun e => ?_
    refine bind_congr fun x => ?_
    cases x <;> rfl
  | _ => cases hi

/-- What a store does: it finds nothing to write and leaves the machine as its target found it, or
it writes what it found. -/
theorem exec_store_cases {i : Instruction} (hi : i.isStore = true) (m : Machine) :
    ((i.exec m).1 ≠ .ok false ∧ (i.exec m).2 = (i.target m).2) ∨
    ∃ l o m₁, i.target m = (.ok (some (l, o)), m₁) ∧
      i.exec m = (.ok false, { m₁ with heap := m₁.heap.put l o.expr }) := by
  rw [exec_store hi, Act.bind_apply]
  rcases i.target m with ⟨_ | x, m₁⟩
  · exact Or.inl ⟨nofun, rfl⟩
  · rcases x with _ | ⟨l, o⟩
    · exact Or.inl ⟨nofun, rfl⟩
    · exact Or.inr ⟨l, o, m₁, rfl, rfl⟩

end Instruction

/-! ## 4. Instructions and runs -/

theorem Heap.Grown.stored? {h h' : Heap} (hle : h ≤ h') {l : Location} (hl : l.ref < h.nextId) :
    h'.stored? l = h.stored? l := by
  cases l with
  | field k => exact hle.fields k hl
  | elem k =>
    change h'.elem? k = h.elem? k
    rw [Heap.elem?, hle.elems, Heap.elem?]

/-- What an instruction leaves as it is: the machine stays sound, what is known of it stays true,
and only a store that did not fault changes what is kept, and only at its place. -/
structure Leaves (m : Machine) (i : Instruction) : Prop where
  sound : (i.exec m).2.Sound
  extend : Heap.Extends m.heap (i.exec m).2.heap
  prepared : m.prepared ⊆ (i.exec m).2.prepared
  kept : ∀ l : Location, l.ref < m.heap.nextId →
    (i.exec m).2.heap.stored? l = m.heap.stored? l ∨
      (i.exec m).1 = .ok false ∧ ∃ p, i.place? = some p ∧ (i.exec m).2.Locates p l

theorem Leaves.of_le {m : Machine} {i : Instruction} (hs : (i.exec m).2.Sound)
    (hle : m ≤ (i.exec m).2) : Leaves m i :=
  ⟨hs, hle.1.toExtends, hle.2, fun _ hl => Or.inl (Heap.Grown.stored? hle.1 hl)⟩

namespace Instruction

variable {m : Machine} {i : Instruction} {p : Place} {l : Location}

/-- **Only a store changes what is kept, and only at its place.** -/
theorem exec_leaves (hm : m.Sound) (i : Instruction) : Leaves m i := by
  cases hi : i.isStore with
  | false =>
    obtain ⟨hs, hle, -⟩ := exec_grows m hi m hm (le_refl m)
    exact Leaves.of_le hs hle
  | true =>
    obtain ⟨hs, hle, htarget⟩ := target_grows m i m hm (le_refl m)
    rcases exec_store_cases hi m with ⟨-, heq⟩ | ⟨l, o, m₁, hfound, hexec⟩
    · rw [← heq] at hs hle
      exact Leaves.of_le hs hle
    · rw [hfound] at hs hle htarget
      obtain ⟨ho, p, hp, hlocates⟩ := htarget (some (l, o)) rfl l o rfl
      have hput := Heap.extends_put m₁.heap l o.expr
      have hsound : ({ m₁ with heap := m₁.heap.put l o.expr } : Machine).Sound := by
        refine ⟨hs.heap.put l ho, fun f hf => ?_⟩
        exact (hs.frames f hf).mono fun o' ho' => hput.issued_operand ho'
      constructor
      · rw [hexec]
        exact hsound
      · rw [hexec]
        exact hle.1.toExtends.trans hput
      · rw [hexec]
        exact hle.2
      · -- the target leaves all locations of before, and the write all but its own
        intro l' hl'
        rw [hexec]
        by_cases heq : l' = l
        · subst heq
          exact Or.inr ⟨rfl, p, hp, hlocates.mono hput (List.Subset.refl _)⟩
        · refine Or.inl ?_
          rw [Heap.stored?_put_of_ne heq]
          exact Heap.Grown.stored? hle.1 hl'

theorem isStore_of_place? (hp : i.place? = some p) : i.isStore = true := by
  cases i with
  | putField => rfl
  | putStatic => rfl
  | arrayStore => rfl
  | _ => cases hp

/-- **A store that does not fault leaves the operand at its place.** -/
theorem exec_stored {m₁ : Machine} {o : Operand} {s : Stack} (hm : m.Sound)
    (hp : i.place? = some p) (ho : m.operands = o :: s) (h : i.exec m = (.ok false, m₁)) :
    ∃ l, m₁.Locates p l ∧ m₁.heap.stored? l = some o.expr := by
  obtain ⟨-, -, htarget⟩ := target_grows m i m hm (le_refl m)
  rcases exec_store_cases (isStore_of_place? hp) m with ⟨hfault, -⟩ | ⟨l, o', m', hfound, hexec⟩
  · rw [h] at hfault
    exact absurd rfl hfault
  · obtain ⟨s', hs'⟩ := target_ok hfound
    obtain ⟨rfl, -⟩ : o = o' ∧ s = s' := by simpa [ho] using hs'
    obtain ⟨-, p', hp', hl⟩ := htarget (some (l, o)) (by rw [hfound]) l o rfl
    obtain rfl : p = p' := by simpa [hp] using hp'
    rw [hfound] at hl
    obtain ⟨-, rfl⟩ := Prod.mk.inj (h.symm.trans hexec)
    exact ⟨l, hl.mono (Heap.extends_put _ _ _) (List.Subset.refl _), Heap.stored?_put_self _ _ _⟩

/-- No instruction of the run stores into the place.  One that faults or fails stores nothing. -/
def Undisturbed (p : Place) : List Instruction → Machine → Prop
  | [], _ => True
  | i :: is, m =>
    ((i.exec m).1 = .ok false → ∀ q, i.place? = some q → p.same q = false) ∧
      Undisturbed p is (i.exec m).2

/-- **What is kept at a place stays there on every run that does not store into it.** -/
theorem run_keeps {is : List Instruction} (hself : p.same p = true) (hm : m.Sound)
    (hl : m.Locates p l) (hp : Undisturbed p is m) :
    (run is m).2.Sound ∧ (run is m).2.Locates p l ∧
      (run is m).2.heap.stored? l = m.heap.stored? l := by
  induction is generalizing m with
  | nil => exact ⟨hm, hl, rfl⟩
  | cons i is ih =>
    have hleaves := exec_leaves hm i
    have hl' := hl.mono hleaves.extend hleaves.prepared
    obtain ⟨hs, hlocates, hstored⟩ := ih hleaves.sound hl' hp.2
    refine ⟨hs, hlocates, hstored.trans ?_⟩
    rcases hleaves.kept l (hl.ref_lt hm.heap) with hkept | ⟨hok, q, hq, hql⟩
    · exact hkept
    · -- the instruction stored at `l`, so its place is `p`
      have hsame := Machine.same_of_locates hleaves.sound.heap hself hl' hql
      rw [hp.1 hok q hq] at hsame
      cases hsame

end Instruction

end Concolic
