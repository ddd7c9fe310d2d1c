import Concolic.Proofs.CallDiscipline
import Concolic.Proofs.IntRange
import Concolic.Proofs.ReadOverWrite

/-
# Accesses stay within the bounds of the host's arrays

An access to an array is checked before the host is asked for an element.  The check compares the
index with a length that comes from the heap, from a field that any instruction may have written.
Still it finds the bounds that the host has: what is kept in the field counts only while it has the
value that the host sees (`Heap.arrayLength_concrete`).  This needs no invariant of the heap, so it
holds of all machines.

That the host is never asked beyond the bounds is said by letting it do there what it likes.  With
another way to load or store, which differs beyond the bounds only, accesses and lines do the same
as before (`array_accesses_in_bounds`).

Up to a fault an access takes operands off the stack and looks references up (`Popped`).
-/
namespace Concolic

/-! ## 1. Bounds -/

namespace HostArray

/-- The index is that of an element. -/
def InBounds (a : HostArray) (n : Int32) : Prop := 0 ≤ n.toInt ∧ n.toInt < a.elems.length

instance (a : HostArray) (n : Int32) : Decidable (a.InBounds n) :=
  inferInstanceAs (Decidable (_ ∧ _))

/-- The number of elements is a word.  The host counts elements by words, so all its arrays are
addressable. -/
def Addressable (a : HostArray) : Prop := a.elems.length < 2 ^ 63

instance (a : HostArray) : Decidable a.Addressable :=
  inferInstanceAs (Decidable (a.elems.length < 2 ^ 63))

theorem Addressable.toInt_lengthWord {a : HostArray} (ha : a.Addressable) :
    (Machine.lengthWord a).toInt = a.elems.length :=
  Int64.toInt_ofNat_of_lt ha

end HostArray

/-- There is no array, or the index is negative, or it is not below the length. -/
def OutOfBounds (a : Option HostArray) (n : Int32) : Prop :=
  a = none ∨ n < 0 ∨ ∃ x, a = some x ∧ (x.elems.length : Int) ≤ n.toInt

theorem HostArray.InBounds.not_outOfBounds {x : HostArray} {n : Int32} (h : x.InBounds n) :
    ¬ OutOfBounds (some x) n := by
  rintro (hnone | hneg | ⟨y, hy, hle⟩)
  · cases hnone
  · have hlt : n.toInt < 0 := Int32.lt_iff_toInt_lt.mp hneg
    exact absurd h.1 (Int.not_le.mpr hlt)
  · cases hy
    exact absurd h.2 (Int.not_lt.mpr hle)

/-- What is done with an array of the host: to take its length, or to load or store the element of
an index. -/
inductive ArrayAccess
  | length
  | load (w : Width) (n : Int32)
  | store (w : Width) (n : Int32)
deriving DecidableEq, Repr

namespace ArrayAccess

/-- The instruction for an array, or for none. -/
def on (a : Option HostArray) : ArrayAccess → Instruction
  | length => .arrayLength a
  | load w n => .arrayLoad w a n
  | store w n => .arrayStore w a n

/-- How many operands there are. -/
def operands : ArrayAccess → Nat
  | length => 1
  | load .. => 2
  | store .. => 3

/-- The watched program faults: there is no array, or there is an index that is out of bounds. -/
def Faults (a : Option HostArray) : ArrayAccess → Prop
  | length => a = none
  | load _ n | store _ n => OutOfBounds a n

end ArrayAccess

/-! ## 2. Actions that pop operands -/

/-- After actions that agree as long as the first one answers. -/
theorem Act.bind_congr_ok {a : Act σ α} {g g' : α → Act σ β} {s : σ}
    (h : ∀ x s', a s = (.ok x, s') → g x s' = g' x s') : (a >>= g) s = (a >>= g') s := by
  rw [Act.bind_apply, Act.bind_apply]
  rcases ha : a s with ⟨e | x, s'⟩
  · rfl
  · exact h x s' ha

/-- Looking up a reference may add one, but stores nothing. -/
theorem Heap.resolve_maps (h : Heap) (e : RefExpr) (v : Value) :
    (resolve e v h).2.fields = h.fields ∧ (resolve e v h).2.elems = h.elems := by
  have hclosed : HeapClosed (fun _ => False) fun h' => h'.fields = h.fields ∧ h'.elems = h.elems :=
    ⟨fun hfields helems hold => ⟨hfields.trans hold.1, helems.trans hold.2⟩, fun _ _ he => he.elim⟩
  exact (resolve_over hclosed e v h ⟨rfl, rfl⟩).1

namespace Machine

/-- From `m` to `m'`, the frame on top loses `k` operands; the other frames and what the heap stores
stay as they are. -/
structure Popped (k : Nat) (m m' : Machine) : Prop where
  frames : ∃ f rest, m.frames = f :: rest ∧ k ≤ f.stack.length ∧
    m'.frames = { f with stack := f.stack.drop k } :: rest
  fields : m'.heap.fields = m.heap.fields
  elems : m'.heap.elems = m.heap.elems

variable {m m₁ m' : Machine} {j k : Nat}

theorem Popped.trans (h : Popped j m m₁) (h₁ : Popped k m₁ m') : Popped (j + k) m m' := by
  obtain ⟨f, rest, hf, hj, hm₁⟩ := h.frames
  obtain ⟨f₁, rest₁, hf₁, hk, hm'⟩ := h₁.frames
  rw [hm₁] at hf₁
  cases hf₁
  rw [List.length_drop] at hk
  refine ⟨⟨f, rest, hf, by omega, ?_⟩, h₁.fields.trans h.fields, h₁.elems.trans h.elems⟩
  rw [hm', List.drop_drop]

/-- There is a frame on top. -/
theorem Popped.exists_at (h : Popped k m m') : ∃ μ s, m'.core.At μ s m'.heap := by
  obtain ⟨f, rest, -, -, hf⟩ := h.frames
  exact ⟨_, _, _, rest, hf, rfl, rfl, rfl⟩

theorem popped_of_onStack {a : Act Stack α} {x : α} (h : onStack a m = (.ok x, m'))
    (hpop : ∀ s s', a s = (.ok x, s') → ∃ o, s = o :: s') : Popped 1 m m' := by
  obtain ⟨f, s, rest, hf, ha, hm'⟩ := onStack_frames h
  obtain ⟨o, hs⟩ := hpop _ _ ha
  have hheap : m'.heap = m.heap := (onStack_ok h).2.1
  refine ⟨⟨f, rest, hf, ?_, ?_⟩, by rw [hheap], by rw [hheap]⟩
  · rw [hs]
    exact Nat.succ_le_succ (Nat.zero_le _)
  · rw [hm', hs]
    rfl

/-- An action that tells something and leaves the rest of the machine alone. -/
theorem popped_of_tells {μ : MethodRef} {s : Stack} {h : Heap} {a : Act Machine α}
    {res : Except Failure α} {reps : List Report} (hat : m.core.At μ s h)
    (htells : Tells m.core a res m.core reps) {y : Except Failure α} (hrun : a m = (y, m')) :
    y = res ∧ Popped 0 m m' := by
  obtain ⟨log, hlog⟩ := htells m.collector m.log
  rw [machine_core, hrun] at hlog
  obtain ⟨rfl, rfl⟩ := Prod.mk.inj hlog
  obtain ⟨f, rest, hf, -⟩ := hat
  exact ⟨rfl, ⟨f, rest, hf, Nat.zero_le _, hf⟩, rfl, rfl⟩

theorem resolveArray_popped {μ : MethodRef} {s : Stack} {h : Heap} {e : RefExpr} {a : HostArray}
    {r : Ref} (hat : m.core.At μ s h) (hrun : resolveArray e a m = (.ok r, m')) :
    Popped 0 m m' := by
  obtain ⟨y, m₁, hresolve, hrest⟩ := Act.bind_ok hrun
  cases y with
  | null => cases hrest
  | object r' =>
    obtain ⟨-, hpure⟩ := Act.ensure_bind_ok hrest
    cases hpure
    obtain ⟨-, rfl⟩ := Prod.mk.inj hresolve
    obtain ⟨f, rest, hf, -⟩ := hat
    obtain ⟨hfields, helems⟩ := m.heap.resolve_maps e a.toValue
    exact ⟨⟨f, rest, hf, Nat.zero_le _, hf⟩, hfields, helems⟩

/-! ## 3. The checks -/

theorem nullAccess_tells {c : Core} {μ : MethodRef} {s : Stack} {h : Heap} (hat : c.At μ s h) :
    Tells c nullAccess (.ok true) c [] :=
  (hat.fault _).silent_bind (Tells.pure true)

theorem length_le_iff {x : HostArray} (hx : x.Addressable) (n : Int32) :
    lengthWord x ≤ n.toInt64 ↔ (x.elems.length : Int) ≤ n.toInt := by
  rw [Int64.le_iff_toInt_le, hx.toInt_lengthWord, Int32.toInt_toInt64]

/-- The checks of an access store nothing.  They pass if there is an array and the index is neither
negative nor beyond its length; the length may come from a field, but it has the value that the
host sees. -/
theorem checkAccess_cases {μ : MethodRef} {s : Stack} {h : Heap} (hat : m.core.At μ s h)
    {e : RefExpr} {a : Option HostArray} {index : IntExpr} {n : Int32}
    {o : Option (Ref × HostArray)} (hrun : checkAccess e a index n m = (.ok o, m')) :
    Popped 0 m m' ∧
      (o = none ∧ (a = none ∨ n < 0 ∨ ∃ x, a = some x ∧ lengthWord x ≤ n.toInt64) ∨
        ∃ r x, o = some (r, x) ∧ a = some x ∧ ¬ n < 0 ∧ ¬ lengthWord x ≤ n.toInt64) := by
  cases a with
  | none =>
    have htells : Tells m.core (checkAccess e none index n) (.ok none) m.core [] :=
      ((nullAccess_tells hat).silent_bind (Tells.pure ())).silent_bind (Tells.pure none)
    obtain ⟨ho, hpopped⟩ := popped_of_tells hat htells hrun
    cases ho
    exact ⟨hpopped, Or.inl ⟨rfl, Or.inl rfl⟩⟩
  | some x =>
    obtain ⟨negative, m₁, hsign, hrest⟩ := Act.bind_ok hrun
    obtain ⟨reps, htells, -⟩ := negativeIndex_asks hat index index n
    obtain ⟨hnegative, hpopped₁⟩ := popped_of_tells hat htells hsign
    cases hnegative
    by_cases hn : n < 0
    · rw [if_pos (decide_eq_true hn)] at hrest
      cases hrest
      exact ⟨hpopped₁, Or.inl ⟨rfl, Or.inr (Or.inl hn)⟩⟩
    rw [if_neg (by simpa using hn)] at hrest
    obtain ⟨r, m₂, hresolve, hrest⟩ := Act.bind_ok hrest
    obtain ⟨μ₁, s₁, hat₁⟩ := hpopped₁.exists_at
    have hpopped₂ := hpopped₁.trans (resolveArray_popped hat₁ hresolve)
    obtain ⟨μ₂, s₂, hat₂⟩ := hpopped₂.exists_at
    rw [Act.get_bind_apply] at hrest
    obtain ⟨tooBig, m₃, hbig, hrest⟩ := Act.bind_ok hrest
    obtain ⟨reps', htells', -⟩ :=
      indexTooBig_asks hat₂ index (m₂.heap.arrayLength r (lengthWord x)) n
    obtain ⟨htooBig, hpopped₃⟩ := popped_of_tells hat₂ htells' hbig
    rw [Heap.arrayLength_concrete] at htooBig
    cases htooBig
    by_cases hle : lengthWord x ≤ n.toInt64
    · rw [if_pos (decide_eq_true hle)] at hrest
      cases hrest
      exact ⟨hpopped₂.trans hpopped₃, Or.inl ⟨rfl, Or.inr (Or.inr ⟨x, rfl, hle⟩)⟩⟩
    · rw [if_neg (by simpa using hle)] at hrest
      cases hrest
      exact ⟨hpopped₂.trans hpopped₃, Or.inr ⟨r, x, rfl, rfl, hn, hle⟩⟩

/-- **The checks of an access store nothing, and pass exactly within the bounds.** -/
theorem checkAccess_bounds {μ : MethodRef} {s : Stack} {h : Heap} (hat : m.core.At μ s h)
    {e : RefExpr} {a : Option HostArray} (ha : ∀ x ∈ a, x.Addressable) {index : IntExpr} {n : Int32}
    {o : Option (Ref × HostArray)} (hrun : checkAccess e a index n m = (.ok o, m')) :
    Popped 0 m m' ∧ (OutOfBounds a n ∧ o = none ∨
      ∃ r x, o = some (r, x) ∧ a = some x ∧ x.InBounds n) := by
  obtain ⟨hpopped, ⟨rfl, hout⟩ | ⟨r, x, rfl, rfl, hn, hlt⟩⟩ := checkAccess_cases hat hrun
  · refine ⟨hpopped, Or.inl ⟨?_, rfl⟩⟩
    rcases hout with rfl | hn | ⟨x, rfl, hle⟩
    · exact Or.inl rfl
    · exact Or.inr (Or.inl hn)
    · exact Or.inr (Or.inr ⟨x, rfl, (length_le_iff (ha x rfl) n).mp hle⟩)
  · have hpos : 0 ≤ n.toInt := Int32.le_iff_toInt_le.mp (Int32.not_lt.mp hn)
    rw [length_le_iff (ha x rfl)] at hlt
    exact ⟨hpopped, Or.inr ⟨r, x, rfl, rfl, hpos, Int.not_le.mp hlt⟩⟩

/-! ## 4. Instructions -/

/-- An access, from its index on: it faults and pops its two operands, or it is within bounds. -/
theorem access_bounds {a : Option HostArray} (ha : ∀ x ∈ a, x.Addressable) {n : Int32} {b : Bool}
    {g : Option (Ref × HostArray) → Act Machine Bool}
    (hrun : (do
      let index ← onStack Stack.popInt
      let e ← onStack Stack.popRef
      checkAccess e a index n >>= g) m = (.ok b, m'))
    (hnone : g none = pure true) (hsome : ∀ p m₁ m₂, g (some p) m₁ = (.ok b, m₂) → b = false) :
    OutOfBounds a n ∧ b = true ∧ Popped 2 m m' ∨ (∃ x, a = some x ∧ x.InBounds n) ∧ b = false := by
  obtain ⟨index, m₁, hindex, hrest⟩ := Act.bind_ok hrun
  obtain ⟨e, m₂, he, hrest⟩ := Act.bind_ok hrest
  obtain ⟨o, m₃, hcheck, hend⟩ := Act.bind_ok hrest
  have hpopped : Popped 2 m m₂ :=
    (popped_of_onStack hindex fun _ _ h => ⟨_, Stack.popInt_ok h⟩).trans
      (popped_of_onStack he fun _ _ h => ⟨_, Stack.popRef_ok h⟩)
  obtain ⟨μ, s, hat⟩ := hpopped.exists_at
  obtain ⟨hpopped', hfault | hfine⟩ := checkAccess_bounds hat ha hcheck
  · obtain ⟨hout, rfl⟩ := hfault
    rw [hnone] at hend
    cases hend
    exact Or.inl ⟨hout, rfl, hpopped.trans hpopped'⟩
  · obtain ⟨r, x, rfl, hx⟩ := hfine
    exact Or.inr ⟨⟨x, hx⟩, hsome _ _ _ hend⟩

theorem arrayLoad_bounds {a : Option HostArray} (ha : ∀ x ∈ a, x.Addressable) {w : Width}
    {n : Int32} {b : Bool} (hrun : arrayLoad w a n m = (.ok b, m')) :
    OutOfBounds a n ∧ b = true ∧ Popped 2 m m' ∨ (∃ x, a = some x ∧ x.InBounds n) ∧ b = false := by
  refine access_bounds ha hrun rfl fun p m₁ m₂ h => ?_
  obtain ⟨v, _, -, h⟩ := Act.bind_ok h
  obtain ⟨_, _, -, h⟩ := Act.bind_ok h
  obtain ⟨observed, _, -, h⟩ := Act.bind_ok h
  obtain ⟨_, _, -, h⟩ := Act.bind_ok h
  obtain ⟨o, _, -, h⟩ := Act.bind_ok h
  obtain ⟨_, _, -, h⟩ := Act.bind_ok h
  cases h
  rfl

theorem arrayStore_bounds {a : Option HostArray} (ha : ∀ x ∈ a, x.Addressable) {w : Width}
    {n : Int32} {b : Bool} (hrun : arrayStore w a n m = (.ok b, m')) :
    OutOfBounds a n ∧ b = true ∧ Popped 3 m m' ∨ (∃ x, a = some x ∧ x.InBounds n) ∧ b = false := by
  obtain ⟨o, m₁, ho, hrun⟩ := Act.bind_ok hrun
  obtain ⟨-, hrun⟩ := Act.ensure_bind_ok hrun
  have hpopped : Popped 1 m m₁ := popped_of_onStack ho fun _ _ h => ⟨_, Stack.pop_ok h⟩
  have hsome : ∀ (r : Ref) (m₂ m₃ : Machine),
      (do
        modify fun m => { m with heap := m.heap.putElem (slot r n) o.expr }
        return false : Act Machine Bool) m₂ = (.ok b, m₃) → b = false := by
    intro r m₂ m₃ h
    cases h
    rfl
  rcases access_bounds ha hrun rfl fun p => hsome p.1 with ⟨hout, hb, hpopped'⟩ | hfine
  · exact Or.inl ⟨hout, hb, hpopped.trans hpopped'⟩
  · exact Or.inr hfine

/-- The length of the array stands in place of the operand on top. -/
def LengthPushed (a : Option HostArray) (m m' : Machine) : Prop :=
  ∃ x f rest o s e, a = some x ∧ m.frames = f :: rest ∧ f.stack = o :: s ∧
    m'.frames = { f with stack := .bv32 e :: s } :: rest ∧ e.concrete.toInt = x.elems.length

theorem arrayLength_bounds {a : Option HostArray} (ha : ∀ x ∈ a, x.Addressable) {b : Bool}
    (hrun : arrayLength a m = (.ok b, m')) :
    a = none ∧ b = true ∧ Popped 1 m m' ∨ LengthPushed a m m' ∧ b = false := by
  obtain ⟨e, m₁, he, hrun⟩ := Act.bind_ok hrun
  have hpopped : Popped 1 m m₁ := popped_of_onStack he fun _ _ h => ⟨_, Stack.popRef_ok h⟩
  obtain ⟨μ, s, hat⟩ := hpopped.exists_at
  cases a with
  | none =>
    obtain ⟨hb, hpopped'⟩ := popped_of_tells hat (nullAccess_tells hat) hrun
    cases hb
    exact Or.inl ⟨rfl, rfl, hpopped.trans hpopped'⟩
  | some x =>
    obtain ⟨r, m₂, hresolve, hrun⟩ := Act.bind_ok hrun
    have hpopped' := hpopped.trans (resolveArray_popped hat hresolve)
    rw [Act.get_bind_apply] at hrun
    obtain ⟨_, m₃, hpush, hrun⟩ := Act.bind_ok hrun
    cases hrun
    obtain ⟨f, rest, hf, hk, hm₂⟩ := hpopped'.frames
    obtain ⟨o, s', hs⟩ := List.exists_cons_of_length_pos hk
    obtain ⟨f₂, s₂, rest₂, hf₂, hpushed, hm'⟩ := onStack_frames hpush
    rw [hm₂] at hf₂
    cases hf₂
    cases hpushed
    refine Or.inr ⟨⟨x, f, rest, o, s', m₂.heap.arrayLength r (lengthWord x), rfl, hf, hs, ?_, ?_⟩,
      rfl⟩
    · rw [hm', hs]
      rfl
    · rw [Heap.arrayLength_concrete]
      exact (ha x rfl).toInt_lengthWord

end Machine

/-- An access that answers faults as the watched program does, and then pops its operands only. -/
theorem ArrayAccess.exec_cases (access : ArrayAccess) {a : Option HostArray}
    (ha : ∀ x ∈ a, x.Addressable) {m m' : Machine} {b : Bool}
    (hrun : (access.on a).exec m = (.ok b, m')) :
    access.Faults a ∧ b = true ∧ m.Popped access.operands m' ∨ ¬ access.Faults a ∧ b = false := by
  cases access with
  | length =>
    rcases Machine.arrayLength_bounds ha hrun with hfault | ⟨⟨x, _, _, _, _, _, rfl, -⟩, hb⟩
    · exact Or.inl hfault
    · exact Or.inr ⟨Option.some_ne_none x, hb⟩
  | load w n =>
    rcases Machine.arrayLoad_bounds ha hrun with hfault | ⟨⟨x, rfl, hx⟩, hb⟩
    · exact Or.inl hfault
    · exact Or.inr ⟨hx.not_outOfBounds, hb⟩
  | store w n =>
    rcases Machine.arrayStore_bounds ha hrun with hfault | ⟨⟨x, rfl, hx⟩, hb⟩
    · exact Or.inl hfault
    · exact Or.inr ⟨hx.not_outOfBounds, hb⟩

/-! ## 5. Loads -/

/-- `Machine.arrayLoad` with another way for the host to read an element. -/
def Machine.arrayLoadWith (load : HostArray → Int32 → Act Machine Value) (w : Width)
    (a : Option HostArray) (n : Int32) : Act Machine Bool := do
  let index ← onStack Stack.popInt
  let e ← onStack Stack.popRef
  match ← checkAccess e a index n with
  | none => return true
  | some (r, a) =>
    let v ← load a n
    let stored := (← get).heap.elem? (slot r n)
    let observed ← onHeap (Heap.observe (some w) v stored)
    push (← Act.ofExcept (Operand.ofExpr w ((← get).heap.elem (slot r n) observed)))
    return false

/-- How the host reads beyond the bounds does not matter, as it is not asked to. -/
theorem Machine.arrayLoadWith_eq {load : HostArray → Int32 → Act Machine Value}
    (hload : ∀ x n, x.InBounds n → load x n = element x n) {a : Option HostArray}
    (ha : ∀ x ∈ a, x.Addressable) (w : Width) (n : Int32) (m : Machine) :
    arrayLoadWith load w a n m = arrayLoad w a n m := by
  refine Act.bind_congr_ok fun index m₁ hindex => Act.bind_congr_ok fun e m₂ he => ?_
  refine Act.bind_congr_ok fun o m₃ hcheck => ?_
  have hpopped : Popped 1 m₁ m₂ := popped_of_onStack he fun _ _ h => ⟨_, Stack.popRef_ok h⟩
  obtain ⟨μ, s, hat⟩ := hpopped.exists_at
  obtain ⟨-, ⟨-, rfl⟩ | ⟨r, x, rfl, -, hx⟩⟩ := checkAccess_bounds hat ha hcheck
  · rfl
  · dsimp only
    rw [hload x n hx]

/-! ## 6. Stores of a replay -/

/-- No array has more elements than a word can count. -/
def Host.Addressable (h : Host) : Prop := ∀ a ∈ h.arrays, a.Addressable

namespace Replay

/-- The store is into an element that the host has. -/
def HostStore.InBounds (s : HostStore) (h : Host) : Prop :=
  s.array ∈ h.arrays ∧ s.array.InBounds s.index

instance (s : HostStore) (h : Host) : Decidable (s.InBounds h) :=
  inferInstanceAs (Decidable (s.array ∈ h.arrays ∧ s.array.InBounds s.index))

/-- `Replay.stored` with another way to store. -/
def storedWith (store : HostStore → Host → Except Crash Host) (r : Replay) :
    Option HostStore → Except Crash Replay
  | none => .ok r
  | some s => (store s r.host).map fun h => { r with host := h }

/-- `Replay.perform` with another way to store. -/
def performWith (store : HostStore → Host → Except Crash Host) (name line : String) (s : Step)
    (r : Replay) : Reply Error Bool × Replay :=
  let (result, m) := s.instruction.exec r.machine
  let r := { r with machine := m }
  match result with
  | .error .endless => (.endless, r)
  | .error f => (.error (.inside name (.failure f)), r)
  | .ok true => (.ok true, r.faulted line)
  | .ok false =>
    match r.storedWith store s.store with
    | .ok r => (.ok false, r)
    | .error c => (.error (.inside name (.failure (.crash c))), r)

/-- `Replay.exec` with another way to store. -/
def execWith (store : HostStore → Host → Except Crash Host) (line : String) (r : Replay) :
    Reply Error Bool × Replay :=
  match r.read line with
  | .error e => (.error e, r)
  | .ok none => (.ok false, r)
  | .ok (some (name, s)) => r.performWith store name line s

/-- What the step stores goes into an array of the host, at the index of its instruction. -/
def StoresElement (r : Replay) (s : Step) : Prop :=
  ∀ st, s.store = some st → st.array ∈ r.host.arrays ∧
    ∃ w, s.instruction = (ArrayAccess.store w st.index).on (some st.array)

section

variable {Q : Replay → Step → Prop}
  (hok : ∀ r i, Yields (.ok { instruction := i } : Except Cause Step) (Q r))

include hok

theorem readLookupSwitch_gives_of : readLookupSwitch.Gives Q := by
  refine fun r args => Yields.any_bind fun ws => ?_
  cases ws with
  | nil => exact Yields.error _
  | cons => exact hok r _

theorem readNewMultiArray_gives_of : readNewMultiArray.Gives Q := by
  refine fun r type count => Yields.any_bind fun n => ?_
  split
  · exact Yields.error _
  refine Yields.any_bind fun size => ?_
  split
  · exact Yields.error _
  · exact Yields.any_bind fun dims => hok r _

theorem readCall_gives_of : readCall.Gives Q := by
  intro r args
  dsimp only
  split
  · exact Yields.any_bind fun _ => hok r _
  · exact Yields.any_bind fun _ => Yields.any_bind fun _ => hok r _
  · exact Yields.error _

end

/-- A property of all steps without a store, and of those that the readers of stores give. -/
theorem readers_give_of {Q : Replay → Step → Prop} (hplain : ∀ r i, Q r { instruction := i })
    (hstore : ∀ w, (readArrayStore w).Gives Q) : ∀ p ∈ readers, p.2.Gives Q := by
  have hok : ∀ r i, Yields (.ok { instruction := i } : Except Cause Step) (Q r) :=
    fun r i => Yields.ok (hplain r i)
  have hindexed : ∀ f, (indexed f).Gives Q := fun f r _ => Yields.any_bind fun v => hok r (f v)
  simp only [readers, List.forall_mem_append, List.forall_mem_map]
  refine ⟨⟨⟨⟨⟨⟨⟨?plain, ?onLocal⟩, ?branch⟩, ?intDivision⟩, ?longDivision⟩, ?load⟩, ?store⟩, ?other⟩
  case plain => exact fun p _ r => hok r p.2
  case onLocal => exact fun p _ => hindexed p.2
  case branch => exact fun p _ => hindexed p.2
  case intDivision => exact fun p _ r => Yields.any_bind fun _ => hok r _
  case longDivision => exact fun p _ r => Yields.any_bind fun _ => hok r _
  case load => exact fun p _ r _ => Yields.any_bind fun _ => Yields.any_bind fun _ => hok r _
  case store => exact fun p _ => hstore p.2
  case other =>
    simp only [List.forall_mem_cons]
    exact ⟨hindexed _, hindexed _, hindexed _,
      -- constants and increments
      fun r _ => Yields.any_bind fun _ => hok r _,
      fun r _ => Yields.any_bind fun _ => hok r _,
      fun r _ => Yields.any_bind fun _ => hok r _,
      fun r _ _ => Yields.any_bind fun _ => hok r _,
      fun r _ _ => Yields.any_bind fun _ => Yields.any_bind fun _ => hok r _,
      -- switches
      fun r _ _ _ => Yields.any_bind fun _ => Yields.any_bind fun _ => Yields.any_bind fun _ =>
        hok r _,
      readLookupSwitch_gives_of hok,
      -- objects, arrays and fields
      fun r _ => hok r _,
      fun r _ => Yields.any_bind fun _ => hok r _,
      fun r _ => Yields.any_bind fun _ => hok r _,
      readNewMultiArray_gives_of hok,
      fun r _ => Yields.any_bind fun _ => hok r _,
      fun r _ _ _ _ _ => Yields.any_bind fun _ => Yields.any_bind fun _ => hok r _,
      fun r _ _ _ _ => Yields.any_bind fun _ => hok r _,
      fun r _ _ _ _ => Yields.any_bind fun _ => hok r _,
      fun r _ _ _ => hok r _,
      fun r _ => hok r _,
      fun r _ _ => Yields.any_bind fun _ => hok r _,
      fun r _ => Yields.any_bind fun _ => hok r _,
      fun r _ => Yields.any_bind fun _ => hok r _,
      -- calls
      fun r _ _ _ _ _ => Yields.any_bind fun _ => Yields.any_bind fun _ => hok r _,
      readCall_gives_of hok,
      fun r _ _ => Yields.any_bind fun _ => Yields.any_bind fun _ => hok r _,
      fun _ h => absurd h List.not_mem_nil⟩

theorem readArrayStore_stores (w : Width) : (readArrayStore w).Gives StoresElement := by
  have hstep : ∀ (r : Replay) (a : Option HostArray) (v : StackValue),
      (∀ x, a = some x → x ∈ r.host.arrays) → Yields (storeStep w r a v) (StoresElement r) := by
    intro r a v ha
    refine Yields.any_bind fun n => Yields.ok fun st hst => ?_
    obtain ⟨x, rfl, rfl⟩ := Option.map_eq_some_iff.mp hst
    exact ⟨ha x rfl, w, rfl⟩
  cases w with
  | ref =>
    exact fun r name _ => ((r.host.array_yields name).mapError _).bind fun a ha =>
      Yields.any_bind fun _ => hstep r a _ ha
  | _ =>
    exact fun r name => ((r.host.array_yields name).mapError _).bind fun a ha =>
      Yields.any_bind fun _ => hstep r a _ ha

/-- **Only stores of elements store into the host.** -/
theorem read_storesElement {r : Replay} {line name : String} {s : Step}
    (h : r.read line = .ok (some (name, s))) : StoresElement r s := by
  obtain ⟨word, args, l, -, hmem, hread⟩ := read_ok h
  have hgives := readers_give_of (Q := StoresElement) (fun r i st hst => by cases hst)
    readArrayStore_stores _ hmem
  exact hgives.read name r args s hread

section

variable {store : HostStore → Host → Except Crash Host}
  (hstore : ∀ s h, HostStore.InBounds s h → store s h = s.apply h) {r : Replay}
  (hr : r.host.Addressable)

include hstore hr

/-- One step: its store follows an instruction that has found the index within bounds. -/
theorem performWith_eq {s : Step} (hs : StoresElement r s) (name line : String) :
    r.performWith store name line s = r.perform name line s := by
  unfold performWith perform
  rcases hexec : s.instruction.exec r.machine with ⟨f | b, m⟩
  · cases f <;> rfl
  cases b with
  | true => rfl
  | false =>
    have hsame : ({ r with machine := m } : Replay).storedWith store s.store =
        ({ r with machine := m } : Replay).stored s.store := by
      cases hst : s.store with
      | none => rfl
      | some st =>
        obtain ⟨hmem, w, hi⟩ := hs st hst
        have ha : ∀ x ∈ some st.array, x.Addressable := by
          intro x hx
          cases hx
          exact hr _ hmem
        rw [hi] at hexec
        rcases Machine.arrayStore_bounds ha hexec with ⟨-, hb, -⟩ | ⟨⟨x, hx, hbounds⟩, -⟩
        · cases hb
        · cases hx
          rw [storedWith, stored, hstore st r.host ⟨hmem, hbounds⟩]
    cases hstored : ({ r with machine := m } : Replay).stored s.store <;>
      simp only [hsame, hstored]

/-- One line. -/
theorem execWith_eq (line : String) : r.execWith store line = r.exec line := by
  unfold execWith exec
  cases hread : r.read line with
  | error e => rfl
  | ok x =>
    cases x with
    | none => rfl
    | some p => exact performWith_eq hstore hr (read_storesElement hread) p.1 line

end

theorem exec_addressable {r : Replay} (hr : r.host.Addressable) (line : String) :
    (r.exec line).2.host.Addressable := by
  unfold exec
  split
  · exact hr
  · exact hr
  next name s _ =>
    intro a' ha'
    obtain ⟨a, ha, hlen⟩ := r.perform_lengths name line s a' ha'
    rw [HostArray.Addressable, hlen]
    exact hr a ha

theorem after_addressable {r : Replay} (hr : r.host.Addressable) (ls : List String) :
    (r.after ls).host.Addressable := by
  induction ls generalizing r with
  | nil => exact hr
  | cons line ls ih => exact ih (exec_addressable hr line)

end Replay

/-! ## 7. All accesses -/

/-- **Accesses fault as the watched program does, and stay within the bounds of the host's arrays.**
An access that answers tells a fault exactly if there is no array or the index is out of bounds; it
then has popped its operands, pushed nothing and stored nothing.  A length that is pushed has the
value that the host sees.  How the host loads beyond the bounds makes no difference to an access,
and how it stores there makes none to any line of a replay. -/
theorem array_accesses_in_bounds :
    (∀ (access : ArrayAccess) (a : Option HostArray) (m m' : Machine) (b : Bool),
      (∀ x ∈ a, x.Addressable) → (access.on a).exec m = (.ok b, m') →
        (b = true ↔ access.Faults a) ∧ (b = true → m.Popped access.operands m') ∧
          (b = false → access = .length → Machine.LengthPushed a m m')) ∧
    (Machine.arrayLoadWith Machine.element = Machine.arrayLoad ∧
      ∀ load : HostArray → Int32 → Act Machine Value,
        (∀ x n, x.InBounds n → load x n = Machine.element x n) →
          ∀ (w : Width) (a : Option HostArray) (n : Int32) (m : Machine),
            (∀ x ∈ a, x.Addressable) →
              Machine.arrayLoadWith load w a n m = Machine.arrayLoad w a n m) ∧
    Replay.execWith Replay.HostStore.apply = Replay.exec ∧
      ∀ store : Replay.HostStore → Host → Except Crash Host,
        (∀ s h, Replay.HostStore.InBounds s h → store s h = s.apply h) →
          ∀ r : Replay, r.host.Addressable → ∀ (ls : List String) (line : String),
            (r.after ls).execWith store line = (r.after ls).exec line := by
  refine ⟨?_, ⟨rfl, ?_⟩, ?_, ?_⟩
  · intro access a m m' b ha hrun
    rcases access.exec_cases ha hrun with ⟨hfault, rfl, hpopped⟩ | ⟨hfine, rfl⟩
    · exact ⟨iff_of_true rfl hfault, fun _ => hpopped, fun hb => absurd hb.symm Bool.false_ne_true⟩
    · refine ⟨iff_of_false Bool.false_ne_true hfine, fun hb => absurd hb Bool.false_ne_true, ?_⟩
      rintro - rfl
      rcases Machine.arrayLength_bounds ha hrun with ⟨-, hb, -⟩ | ⟨hpushed, -⟩
      · cases hb
      · exact hpushed
  · intro load hload w a n m ha
    exact Machine.arrayLoadWith_eq hload ha w n m
  · funext line r
    rfl
  · intro store hstore r hr ls line
    exact Replay.execWith_eq hstore (Replay.after_addressable hr ls) line

def twoInts : HostArray := ⟨"a", "[I", [.int 7, .int 8]⟩

/-- An input as index and an array on the stack; under the name of the array's length the heap has a
reference. -/
def oddLength : Machine where
  frames := [⟨⟨"A", "f", "(I)V"⟩,
    [.bv32 (.var ⟨"i", 2, -9, 9⟩), .ref (.object ⟨1, "[I"⟩)], ⟨[]⟩, false⟩]
  heap :=
    { nextId := 2, objects := [(twoInts.toValue, ⟨1, "[I"⟩)], bound := [1],
      fields := [(Heap.lengthKey ⟨1, "[I"⟩, .ref .null)] }
  collector := .path {}
  classes := none

/-- A host that refuses to load beyond the bounds. -/
def guardedLoad (x : HostArray) (n : Int32) : Act Machine Value :=
  if x.InBounds n then Machine.element x n else Act.fail (.crash .elementIndex)

/-- A host that refuses to store beyond the bounds. -/
def guardedStore (s : Replay.HostStore) (h : Host) : Except Crash Host :=
  if s.InBounds h then s.apply h else .error .elementIndex

/-- The index two is beyond two elements; hosts that refuse what is out of bounds do as well as
others. -/
theorem oddLength_guarded :
    (∀ x ∈ some twoInts, x.Addressable) ∧
    (∃ m', ((ArrayAccess.load .bv32 2).on (some twoInts)).exec oddLength = (.ok true, m') ∧
      (ArrayAccess.load .bv32 2).Faults (some twoInts) ∧ oddLength.Popped 2 m') ∧
    (∀ x n, x.InBounds n → guardedLoad x n = Machine.element x n) ∧
    Machine.arrayLoadWith guardedLoad .bv32 (some twoInts) 2 oddLength =
      Machine.arrayLoad .bv32 (some twoInts) 2 oddLength ∧
    (∀ s h, Replay.HostStore.InBounds s h → guardedStore s h = s.apply h) ∧
    Host.Addressable ⟨[], [twoInts], []⟩ ∧
    ∀ (ls : List String) (line : String),
      ((⟨oddLength, ⟨[], [twoInts], []⟩, 0⟩ : Replay).after ls).execWith guardedStore line =
        ((⟨oddLength, ⟨[], [twoInts], []⟩, 0⟩ : Replay).after ls).exec line := by
  have hshort : twoInts.Addressable := by decide
  have harray : ∀ x ∈ some twoInts, x.Addressable := by
    intro x hx
    cases hx
    exact hshort
  have hhost : Host.Addressable ⟨[], [twoInts], []⟩ := by
    intro x hx
    cases List.mem_singleton.mp hx
    exact hshort
  have hload : ∀ x n, x.InBounds n → guardedLoad x n = Machine.element x n :=
    fun _ _ h => if_pos h
  have hstore : ∀ s h, Replay.HostStore.InBounds s h → guardedStore s h = s.apply h :=
    fun _ _ h => if_pos h
  obtain ⟨haccess, ⟨-, hloads⟩, -, hstores⟩ := array_accesses_in_bounds
  obtain ⟨m', hrun⟩ : ∃ m', ((ArrayAccess.load .bv32 2).on (some twoInts)).exec oddLength =
      (.ok true, m') := ⟨_, rfl⟩
  obtain ⟨hfaults, hpopped, -⟩ := haccess _ _ _ _ _ harray hrun
  exact ⟨harray, ⟨m', hrun, hfaults.mp rfl, hpopped rfl⟩, hload, hloads _ hload _ _ _ _ harray,
    hstore, hhost, hstores _ hstore _ hhost⟩

end Concolic
