import Concolic.Proofs.HostLoads

/-
# Elements that come back

A store into an array of integers goes two ways.  The machine keeps the operand under the reference
of the array, with all its symbolic structure, and the replay writes the concrete value into the
array of the host, cut to the type of its components.  A load takes the element from the host and
looks up what the machine keeps; the two meet again if the cut has lost nothing.

What is kept of an element (`Replay.Keeps`) survives every line that does not store into it, failing
lines included (`exec_keeps`).  So a value that fits its type comes back as the operand that was
stored, by whatever reference the array is reached then, and the host has the value in between
(`load_returns_stored`).
-/
namespace Concolic

/-! ## 1. Elements of integer types -/

theorem toNat_ofInt16 (v : Int) : ((UInt16.ofInt v).toNat : Int) = v % 2 ^ 16 := by
  rw [UInt16.ofInt, UInt16.toNat_ofNat']
  omega

theorem toUInt16_toUInt64 (v : Int64) : v.toUInt64.toUInt16 = UInt16.ofInt v.toInt := by
  have hword : v.toInt = (v.toUInt64.toNat : Int).bmod (2 ^ 64) := BitVec.toInt_eq_toNat_bmod _
  refine UInt16.toNat_inj.mp (Int.natCast_inj.mp ?_)
  rw [toNat_ofInt16, UInt64.toNat_toUInt16, hword, Int.bmod_def]
  split <;> omega

namespace Host.IntType

/-- The value is one of the type. -/
def Has (k : IntType) (v : Int) : Prop := k.lo ≤ v ∧ v ≤ k.hi

instance (k : IntType) (v : Int) : Decidable (k.Has v) := inferInstanceAs (Decidable (_ ∧ _))

/-- The width of the operands that are elements of the type. -/
def width : IntType → Width
  | long => .bv64
  | _ => .bv32

def operand (k : IntType) (e : IntExpr) : Operand := if k = .long then .bv64 e else .bv32 e

/-- The integer as an element of an array, cut to the type of the components. -/
def element : IntType → Int → Value
  | boolean, v => .bool (v ≠ 0)
  | byte, v => .byte (Int8.ofInt v)
  | char, v => .char (UInt16.ofInt v)
  | short, v => .short (Int16.ofInt v)
  | int, v => .int (Int32.ofInt v)
  | long, v => .long (Int64.ofInt v)

/-- The instruction that loads elements of the type.  Truth values are loaded as bytes. -/
def loadName : IntType → String
  | boolean | byte => "BALOAD"
  | char => "CALOAD"
  | short => "SALOAD"
  | int => "IALOAD"
  | long => "LALOAD"

/-- The instruction that stores elements of the type. -/
def storeName : IntType → String
  | boolean | byte => "BASTORE"
  | char => "CASTORE"
  | short => "SASTORE"
  | int => "IASTORE"
  | long => "LASTORE"

theorem width_operand (k : IntType) (e : IntExpr) : (k.operand e).width = k.width := by
  cases k <;> rfl

theorem expr_operand (k : IntType) (e : IntExpr) : (k.operand e).expr = .int e := by
  cases k <;> rfl

/-- **What is of the type is not changed by the cut.** -/
theorem integer?_element {k : IntType} {v : Int} (hv : k.Has v) :
    (k.element v).integer? = some v := by
  obtain ⟨hlo, hhi⟩ := hv
  cases k with
  | boolean =>
    have hcases : v = 0 ∨ v = 1 := by
      simp only [lo, hi] at hlo hhi
      omega
    rcases hcases with rfl | rfl <;> rfl
  | byte =>
    exact congrArg some (Int8.toInt_ofInt_of_le hlo (Int.lt_of_le_of_lt hhi (by decide)))
  | char =>
    simp only [lo, hi] at hlo hhi
    refine congrArg some ?_
    rw [toNat_ofInt16]
    omega
  | short =>
    exact congrArg some (Int16.toInt_ofInt_of_le hlo (Int.lt_of_le_of_lt hhi (by decide)))
  | int =>
    exact congrArg some (Int32.toInt_ofInt_of_le hlo (Int.lt_of_le_of_lt hhi (by decide)))
  | long =>
    exact congrArg some (Int64.toInt_ofInt_of_le hlo (Int.lt_of_le_of_lt hhi (by decide)))

/-- A stack value becomes the element. -/
theorem toElem_element {desc : String} {k : IntType} (hk : ofDesc? desc = some k) (v : Int64) :
    Replay.StackValue.toElem desc (.int v) = .ok (k.element v.toInt) := by
  unfold ofDesc? at hk
  split at hk <;> cases hk
  · have hzero : v = 0 ↔ v.toInt = 0 := Int64.toInt_inj.symm
    exact congrArg (fun b => Except.ok (Value.bool b)) (decide_eq_decide.mpr (not_congr hzero))
  · exact congrArg (fun n => Except.ok (Value.byte n)) (Int8.ofInt_int64ToInt v).symm
  · exact congrArg (fun n => Except.ok (Value.char n)) (toUInt16_toUInt64 v)
  · exact congrArg (fun n => Except.ok (Value.short n)) (Int16.ofInt_int64ToInt v).symm
  · exact congrArg (fun n => Except.ok (Value.int n)) (Int32.ofInt_int64ToInt v).symm
  · exact congrArg (fun n => Except.ok (Value.long n)) (Int64.ofInt_toInt v).symm

/-- **The host reports the concrete value of what was stored,** if it is of the type. -/
theorem reports_element {k : IntType} {e : IntExpr} (he : k.Has e.concrete.toInt) (h : Heap) :
    h.Reports (k.element e.concrete.toInt) (k.operand e) := by
  by_cases hlong : k = .long
  · subst hlong
    exact congrArg Except.ok (Int64.ofInt_toInt e.concrete)
  · obtain ⟨n, hn⟩ : ∃ n, (k.element e.concrete.toInt).toInt = .ok n := by
      cases k with
      | long => exact absurd rfl hlong
      | _ => exact ⟨_, rfl⟩
    rw [operand, if_neg hlong]
    refine ⟨n, hn, ?_⟩
    obtain ⟨v, hv, hcut⟩ := Value.integer?_of_toInt hn
    obtain rfl : e.concrete.toInt = v := Option.some.inj ((integer?_element he).symm.trans hv)
    have hint := isInt hlong he
    rw [Int64.ofInt_toInt] at hint
    obtain ⟨hlo, hhi⟩ := hint
    rw [← Int64.toInt_inj, Int32.toInt_toInt64, hcut, Int.bmod_eq_of_le (by omega) (by omega)]

end Host.IntType

/-! ## 2. Lines -/

/-- The line gives the instruction with the name one argument. -/
def Says (line name arg : String) : Prop :=
  ∃ word, Text.fields line = [word, arg] ∧ Text.upper word = name

namespace Replay

variable {r : Replay} {line name : String} {k : Host.IntType} {a : HostArray} {e index : IntExpr}
  {s : Stack}

theorem read_of_says {arg : String} {f : Replay → String → Except Cause Step} {st : Step}
    (hline : Says line name arg) (hname : readers.lookup name = some (.args1 f))
    (hf : f r arg = .ok st) : r.read line = .ok (some (name, st)) := by
  obtain ⟨word, hfields, rfl⟩ := hline
  unfold read
  rw [hfields]
  dsimp only
  rw [hname]
  dsimp only [LineReader.read]
  rw [hf]
  rfl

theorem peek_eq {i : Nat} {o : Operand} (ho : r.machine.operands[i]? = some o) :
    r.peek i = .ok o := by
  cases hf : r.machine.frames with
  | nil =>
    rw [Machine.operands, Core.operands, show r.machine.core.frames = [] from hf] at ho
    cases ho
  | cons f rest =>
    have hoperands : r.machine.operands = f.stack := Core.operands_eq hf
    obtain ⟨log, hrun⟩ := Machine.onStack_tells (c := r.machine.core) hf (Stack.peek i)
      r.machine.collector r.machine.log
    rw [peek, show (Machine.onStack (Stack.peek i) r.machine).1 = _ from congrArg Prod.fst hrun,
      stack_peek, ← hoperands, ho]
    rfl

theorem peekInt_eq {i : Nat} {o : Operand} (ho : r.machine.operands[i]? = some o)
    (he : o.expr = .int e) : r.peekInt i = .ok e.concrete := by
  rw [peekInt, peek_eq ho]
  simp only [bind, Except.bind, he]
  rfl

theorem lookup_storeName (k : Host.IntType) :
    readers.lookup k.storeName = some (.args1 fun r name => do
      let a ← ofValue (r.host.array name)
      storeStep k.width r a (.int (← r.peekInt 0))) := by
  cases k <;> rfl

theorem lookup_loadName (k : Host.IntType) :
    readers.lookup k.loadName = some (.args1 fun r name => do
      let a ← ofValue (r.host.array name)
      return { instruction := .arrayLoad k.width a (← r.peekInt 0).toInt32 }) := by
  cases k <;> rfl

theorem read_store (ha : r.host.array name = .ok (some a))
    (hstack : r.machine.operands = k.operand e :: .bv32 index :: s)
    (hline : Says line k.storeName name) :
    r.read line = .ok (some (k.storeName, ⟨.arrayStore k.width (some a) index.concrete.toInt32,
      some ⟨a, index.concrete.toInt32, .int e.concrete⟩⟩)) := by
  have hvalue : r.peekInt 0 = .ok e.concrete := peekInt_eq (by rw [hstack]; rfl) (k.expr_operand e)
  have hindex : r.peekInt 1 = .ok index.concrete := peekInt_eq (by rw [hstack]; rfl) rfl
  refine read_of_says hline (lookup_storeName k) ?_
  simp only [ha, hvalue, hindex, storeStep]
  rfl

theorem read_load (ha : r.host.array name = .ok (some a))
    (hstack : r.machine.operands = .bv32 index :: s) (hline : Says line k.loadName name) :
    r.read line = .ok (some (k.loadName,
      { instruction := .arrayLoad k.width (some a) index.concrete.toInt32 })) := by
  have hindex : r.peekInt 0 = .ok index.concrete := peekInt_eq (by rw [hstack]; rfl) rfl
  refine read_of_says hline (lookup_loadName k) ?_
  simp only [ha, hindex]
  rfl

end Replay

/-! ## 3. Stores -/

theorem HostArray.InBounds.toNat_lt {a : HostArray} {n : Int32} (h : a.InBounds n) :
    n.toInt.toNat < a.elems.length := by
  obtain ⟨hpos, hlt⟩ := h
  omega

/-- Whatever is not null and has an identity gets a reference. -/
theorem Heap.exists_resolve {v : Value} (hv : v ≠ .null) (hc : v.isComparable = true) (x : RefExpr)
    (h : Heap) : ∃ r h', resolve x v h = (.ok (.object r), h') := by
  rcases resolve_cases h x v with heq | ⟨r, rfl, -, ho, hr⟩
  · rw [heq]
    cases ho : h.object? v with
    | some r => exact ⟨r, h, reference_of_object? hv ho⟩
    | none => exact ⟨_, _, (reference_of_none hv ho).trans (if_pos hc)⟩
  · exact ⟨r, _, (resolve_of_free hv ho hr).trans (if_pos hc)⟩

namespace Machine

variable {c : Core} {μ : MethodRef} {s : Stack} {h : Heap} {a : HostArray} {n : Int32}

/-- An access within bounds passes its checks, unless the reference for the array is not of an
array type. -/
theorem checkAccess_answers (hc : c.At μ s h) (ha : a.Addressable) (hn : a.InBounds n)
    (x : RefExpr) (index : IntExpr) :
    ∃ r c₁ reps, Tells c (checkAccess x (some a) index n) (.ok (some (r, a))) c₁ reps ∨
      r.isArray = false ∧
        Tells c (checkAccess x (some a) index n) (.error (.violation (.notArray r))) c₁ reps := by
  have hsign : 0 ≤ n := Int32.le_iff_toInt_le.mpr hn.1
  obtain ⟨r, h', hx⟩ := Heap.exists_resolve (v := a.toValue) (by simp [HostArray.toValue]) rfl x h
  cases harray : r.isArray with
  | true =>
    obtain ⟨c₁, reps, hcheck, -⟩ := checkAccess_tells hc hx harray index ha hsign hn.toNat_lt
    exact ⟨r, c₁, reps, Or.inl hcheck⟩
  | false =>
    obtain ⟨reps, hnegative, -⟩ := negativeIndex_asks hc index index n
    rw [decide_eq_false (Int32.not_lt.mpr hsign)] at hnegative
    obtain ⟨c₁, hresolve, -⟩ := hc.onHeap hx
    have hfail : Tells c (resolveArray x a) (.error (.violation (.notArray r))) c₁ [] := by
      refine hresolve.silent_bind ?_
      dsimp only
      rw [harray]
      exact Tells.fail _
    exact ⟨r, c₁, reps ++ [], Or.inr ⟨harray, hnegative.bind hfail.bind_error⟩⟩

/-- **A store within bounds answers that there is no fault,** or it fails since the reference for
the array is not of an array type. -/
theorem arrayStore_answers {m : Machine} {o : Operand} {index : IntExpr} {x : RefExpr}
    (hs : m.operands = o :: .bv32 index :: .ref x :: s) (ha : a.Addressable) (hn : a.InBounds n) :
    (arrayStore o.width (some a) n m).1 = .ok false ∨ ∃ r, r.isArray = false ∧
      (arrayStore o.width (some a) n m).1 = .error (.violation (.notArray r)) := by
  obtain ⟨μ, hc⟩ := exists_at hs
  obtain ⟨c₁, hpop, hc₁⟩ := hc.onStack (a := Stack.pop) rfl
  obtain ⟨c₂, hindex, hc₂⟩ := hc₁.popInt
  obtain ⟨c₃, hx, hc₃⟩ := hc₂.popRef
  have hwidth : Tells c₁ (Act.ensure (o.width = o.width) (.arrayStoreWidth o.width o.width))
      (.ok ()) c₁ [] := Tells.ensure (decide_eq_true rfl) _
  obtain ⟨r, c₄, reps, hcheck | ⟨harray, hcheck⟩⟩ := checkAccess_answers hc₃ ha hn x index
  · have hwrite : Tells c₄ (do
        modify fun m => { m with heap := m.heap.putElem (slot r n) o.expr }
        return false) (.ok false) { c₄ with heap := c₄.heap.putElem (slot r n) o.expr } [] :=
      fun _ log => ⟨log, rfl⟩
    have hstore : Tells m.core (arrayStore o.width (some a) n) (.ok false) _ (reps ++ []) :=
      hpop.silent_bind (hwidth.silent_bind (hindex.silent_bind (hx.silent_bind
        (hcheck.bind hwrite))))
    obtain ⟨log, hrun⟩ := hstore m.collector m.log
    exact Or.inl (congrArg Prod.fst hrun)
  · have hstore : Tells m.core (arrayStore o.width (some a) n) (.error (.violation (.notArray r)))
        c₄ reps :=
      hpop.silent_bind (hwidth.silent_bind (hindex.silent_bind (hx.silent_bind
        hcheck.bind_error)))
    obtain ⟨log, hrun⟩ := hstore m.collector m.log
    exact Or.inr ⟨r, harray, congrArg Prod.fst hrun⟩

end Machine

/-! ## 4. What lines leave alone -/

theorem HostArray.element_same_self (a : HostArray) (n : Int32) :
    (Place.element a.toValue n).same (.element a.toValue n) = true := by
  simp [Place.same, a.toValue_same_self]

theorem Machine.Sound.of_core {m m' : Machine} (hm : m.Sound) (h : m'.core = m.core) :
    m'.Sound := by
  have hheap : m'.heap = m.heap := congrArg Core.heap h
  have hframes : m'.frames = m.frames := congrArg Core.frames h
  refine ⟨hheap ▸ hm.heap, fun f hf => ?_⟩
  rw [hheap]
  exact hm.frames f (hframes ▸ hf)

theorem Machine.Locates.of_core {m m' : Machine} {p : Place} {l : Location} (hl : m.Locates p l)
    (h : m'.core = m.core) : m'.Locates p l := by
  have hheap : m'.heap = m.heap := congrArg Core.heap h
  have hprepared : m'.prepared = m.prepared := congrArg Core.prepared h
  refine hl.mono ?_ ?_
  · rw [hheap]
    exact ⟨Nat.le_refl _, List.prefix_rfl⟩
  · rw [hprepared]
    exact List.Subset.refl _

/-- What is found under a name after a store. -/
theorem Host.array?_setElem (h : Host) (name : String) (i : Nat) (v : Value) (name' : String) :
    (h.setElem name i v).array? name' = (h.array? name').map fun a =>
      if a.name = name then { a with elems := a.elems.set i v } else a := by
  rw [array?, setElem, List.find?_map, array?]
  congr 2
  funext a
  dsimp only [Function.comp]
  split <;> rfl

namespace Replay

/-- The place that a line has stored into, if it did. -/
def storedBy (r : Replay) (line : String) : List Place :=
  match r.read line with
  | .ok (some (_, s)) =>
    match (s.instruction.exec r.machine).1 with
    | .ok false => s.instruction.place?.toList
    | _ => []
  | _ => []

/-- The places that lines have stored into. -/
def stores (r : Replay) : List String → List Place
  | [] => []
  | line :: ls => r.storedBy line ++ (r.exec line).2.stores ls

theorem stores_append (r : Replay) (ls ls' : List String) :
    r.stores (ls ++ ls') = r.stores ls ++ (r.after ls).stores ls' := by
  induction ls generalizing r with
  | nil => rfl
  | cons line ls ih => rw [List.cons_append, stores, stores, ih, List.append_assoc, after]

theorem mem_storedBy {r : Replay} {line name : String} {s : Step} {p : Place}
    (hread : r.read line = .ok (some (name, s)))
    (hexec : (s.instruction.exec r.machine).1 = .ok false) (hp : s.instruction.place? = some p) :
    p ∈ r.storedBy line := by
  rw [storedBy, hread]
  dsimp only
  rw [hexec, hp]
  exact List.mem_singleton_self p

/-- Arrays are stored into under the name by which they are found. -/
def StoresFound (r : Replay) (s : Step) : Prop :=
  ∀ st, s.store = some st → r.host.array? st.array.name = some st.array

theorem array_found (h : Host) (name : String) :
    Yields (h.array name) fun x => ∀ a, x = some a → h.array? a.name = some a := by
  unfold Host.array
  split
  · exact Yields.ok fun a ha => by cases ha
  · split
    next a ha =>
      refine Yields.ok fun a' heq => ?_
      cases heq
      have hname : a.name = name := by simpa using List.find?_some ha
      rw [hname, ha]
    · exact Yields.error _
    · exact Yields.error _

theorem read_storesFound {r : Replay} {line name : String} {s : Step}
    (h : r.read line = .ok (some (name, s))) : StoresFound r s := by
  have hstep : ∀ (w : Width) (r : Replay) (a : Option HostArray) (v : StackValue),
      (∀ x, a = some x → r.host.array? x.name = some x) →
        Yields (storeStep w r a v) (StoresFound r) := by
    intro w r a v ha
    refine Yields.any_bind fun n => Yields.ok fun st hst => ?_
    obtain ⟨x, rfl, rfl⟩ := Option.map_eq_some_iff.mp hst
    exact ha x rfl
  have hstore : ∀ w, (readArrayStore w).Gives StoresFound := by
    intro w
    cases w with
    | ref =>
      exact fun r name _ => ((array_found r.host name).mapError _).bind fun a ha =>
        Yields.any_bind fun _ => hstep _ r a _ ha
    | _ =>
      exact fun r name => ((array_found r.host name).mapError _).bind fun a ha =>
        Yields.any_bind fun _ => hstep _ r a _ ha
  obtain ⟨word, args, l, -, hmem, hread⟩ := read_ok h
  have hgives := readers_give_of (Q := StoresFound) (fun r i st hst => by cases hst) hstore _ hmem
  exact hgives.read name r args s hread

/-- A step leaves the host alone or makes its store, after an instruction without a fault. -/
theorem perform_host (name line : String) (s : Step) (r : Replay) :
    (r.perform name line s).2.host = r.host ∨
      ∃ st v, s.store = some st ∧ (s.instruction.exec r.machine).1 = .ok false ∧
        (r.perform name line s).2.host =
          r.host.setElem st.array.name st.index.toInt.toNat v := by
  have h := r.performs name line s
  generalize r.perform name line s = p at h ⊢
  cases h with
  | endless | failed | faulted | done | misfit => exact Or.inl rfl
  | stored hrun hst hv => exact Or.inr ⟨_, _, hst, congrArg Prod.fst hrun, rfl⟩

/-- The element `n` of the array is `v` in the host and `x` in the heap. -/
structure Keeps (r : Replay) (a : HostArray) (n : Int32) (v : Value) (x : Expr) : Prop where
  sound : r.machine.Sound
  heap : ∃ l, r.machine.Locates (.element a.toValue n) l ∧ r.machine.heap.stored? l = some x
  host : ∃ elems, r.host.array? a.name = some { a with elems := elems } ∧
    elems.length = a.elems.length ∧ elems[n.toInt.toNat]? = some v

/-- The element that a step stores into the host is one that the line stores into, and its index is
not negative. -/
theorem element_stored {r : Replay} {line name : String} {s : Step} {st : HostStore}
    (hread : r.read line = .ok (some (name, s))) (hst : s.store = some st)
    (ha : st.array.Addressable) (hexec : (s.instruction.exec r.machine).1 = .ok false) :
    Place.element st.array.toValue st.index ∈ r.storedBy line ∧ 0 ≤ st.index.toInt := by
  obtain ⟨-, w, hi⟩ := read_storesElement hread st hst
  refine ⟨mem_storedBy hread hexec (by rw [hi]; rfl), ?_⟩
  have hrun : s.instruction.exec r.machine = (.ok false, (s.instruction.exec r.machine).2) :=
    Prod.ext hexec rfl
  rw [hi] at hrun
  rcases Machine.arrayStore_bounds (fun y hy => Option.some.inj hy ▸ ha) hrun with
    ⟨-, hb, -⟩ | ⟨⟨y, hy, hbounds⟩, -⟩
  · cases hb
  · exact hbounds.1

/-- The store of a line that does not store into the element leaves the element of the host. -/
theorem perform_keeps_host {r : Replay} {a : HostArray} {n : Int32} {v : Value} {x : Expr}
    (ha : a.Addressable) (hn : 0 ≤ n.toInt) (h : r.Keeps a n v x) {line name : String} {s : Step}
    (hread : r.read line = .ok (some (name, s)))
    (hline : ∀ q ∈ r.storedBy line, (Place.element a.toValue n).same q = false) :
    ∃ elems, (r.perform name line s).2.host.array? a.name = some { a with elems := elems } ∧
      elems.length = a.elems.length ∧ elems[n.toInt.toNat]? = some v := by
  obtain ⟨elems, hfound, hlen, hv⟩ := h.host
  rcases r.perform_host name line s with hsame | ⟨st, v', hst, hexec, hset⟩
  · rw [hsame]
    exact h.host
  rw [hset, Host.array?_setElem, hfound, Option.map_some]
  by_cases hname : a.name = st.array.name
  · -- the same array, so it is another element; an index that is not negative tells them apart
    have harray : st.array = { a with elems := elems } := by
      have hstore := read_storesFound hread st hst
      rw [← hname, hfound] at hstore
      exact (Option.some.inj hstore).symm
    have haddressable : st.array.Addressable := by
      rw [harray, HostArray.Addressable, hlen]
      exact ha
    obtain ⟨hmem, hindex⟩ := element_stored hread hst haddressable hexec
    have hother : st.index ≠ n := by
      rintro rfl
      have hspared := hline _ hmem
      rw [harray] at hspared
      exact Bool.noConfusion (hspared.symm.trans (a.element_same_self st.index))
    have hne : st.index.toInt.toNat ≠ n.toInt.toNat := by
      intro heq
      exact hother (Int32.toInt_inj.mp (by omega))
    refine ⟨elems.set st.index.toInt.toNat v', ?_, ?_, ?_⟩
    · rw [if_pos hname]
    · rw [List.length_set, hlen]
    · rw [List.getElem?_set_ne hne, hv]
  · exact ⟨elems, by rw [if_neg hname], hlen, hv⟩

/-- **One line.**  What is kept of an element stays if the line does not store into it. -/
theorem exec_keeps {r : Replay} {a : HostArray} {n : Int32} {v : Value} {x : Expr}
    (ha : a.Addressable) (hn : 0 ≤ n.toInt) (h : r.Keeps a n v x) {line : String}
    (hline : ∀ q ∈ r.storedBy line, (Place.element a.toValue n).same q = false) :
    (r.exec line).2.Keeps a n v x := by
  unfold exec
  cases hread : r.read line with
  | error e => exact h
  | ok o =>
    cases o with
    | none => exact h
    | some p =>
      obtain ⟨name, s⟩ := p
      obtain ⟨l, hl, hx⟩ := h.heap
      have hcore := (r.perform_machine name line s).1
      have hspared : Instruction.Undisturbed (.element a.toValue n) [s.instruction] r.machine :=
        ⟨fun hexec q hq => hline q (mem_storedBy hread hexec hq), trivial⟩
      obtain ⟨hsound, hlocates, hkept⟩ := Instruction.run_keeps (a.element_same_self n) h.sound hl
        hspared
      refine ⟨hsound.of_core hcore, ⟨l, hlocates.of_core hcore, ?_⟩,
        perform_keeps_host ha hn h hread hline⟩
      rw [show (r.perform name line s).2.machine.heap = _ from congrArg Core.heap hcore]
      exact hkept.trans hx

/-- **All lines.** -/
theorem after_keeps {r : Replay} {a : HostArray} {n : Int32} {v : Value} {x : Expr}
    (ha : a.Addressable) (hn : 0 ≤ n.toInt) (h : r.Keeps a n v x) {ls : List String}
    (hls : ∀ q ∈ r.stores ls, (Place.element a.toValue n).same q = false) :
    (r.after ls).Keeps a n v x := by
  induction ls generalizing r with
  | nil => exact h
  | cons line ls ih =>
    rw [stores, List.forall_mem_append] at hls
    exact ih (exec_keeps ha hn h hls.1) hls.2

/-! ## 5. Stores and loads -/

/-- A trace and some lines lead to the state.  The lines may fail. -/
def Reached (r : Replay) : Prop := ∃ t r₀ log ls, start t = (.ok r₀, log) ∧ r₀.after ls = r

theorem exec_sound {r : Replay} (h : r.machine.Sound) (line : String) :
    (r.exec line).2.machine.Sound := by
  unfold exec
  split
  · exact h
  · exact h
  next name s _ =>
    exact (Instruction.exec_leaves h s.instruction).sound.of_core (r.perform_machine name line s).1

theorem after_sound {r : Replay} (h : r.machine.Sound) (ls : List String) :
    (r.after ls).machine.Sound := by
  induction ls generalizing r with
  | nil => exact h
  | cons line ls ih => exact ih (exec_sound h line)

theorem Reached.sound {r : Replay} (hr : r.Reached) : r.machine.Sound := by
  obtain ⟨t, r₀, log, ls, hstart, rfl⟩ := hr
  exact after_sound (start_intsFit hstart).sound ls

theorem array_eq_some_iff {h : Host} {name : String} {a : HostArray} :
    h.array name = .ok (some a) ↔ Host.isNull name = false ∧ h.array? name = some a := by
  unfold Host.array
  cases Host.isNull name with
  | true => simp
  | false =>
    cases harray : h.array? name with
    | some a' => simp
    | none => cases h.value? name <;> simp

section

variable {r : Replay} {k : Host.IntType} {name line : String} {a : HostArray} {e index : IntExpr}
  {x : RefExpr} {s : Stack}

theorem perform_failed {st : Step} {m : Machine} {f : Failure}
    (hrun : st.instruction.exec r.machine = (.error f, m)) (hf : f ≠ .endless) :
    r.perform name line st = (.error (.inside name (.failure f)), { r with machine := m }) := by
  unfold perform
  rw [hrun]
  cases f with
  | endless => exact absurd rfl hf
  | _ => rfl

theorem perform_stored {st : Step} {m : Machine} {r' : Replay}
    (hrun : st.instruction.exec r.machine = (.ok false, m))
    (hstored : ({ r with machine := m } : Replay).stored st.store = .ok r') :
    r.perform name line st = (.ok false, r') := by
  unfold perform
  rw [hrun]
  dsimp only
  rw [hstored]

/-- **A store keeps the element,** or it fails since the reference for the array is not of an array
type. -/
theorem exec_store (hr : r.machine.Sound) (ha : r.host.array name = .ok (some a))
    (hk : Host.IntType.ofDesc? (Host.componentType a.type) = some k) (hlen : a.Addressable)
    (hstack : r.machine.operands = k.operand e :: .bv32 index :: .ref x :: s)
    (hin : a.InBounds index.concrete.toInt32) (hline : Says line k.storeName name) :
    (∃ ref, ref.isArray = false ∧ (r.exec line).1 =
      .error (.inside k.storeName (.failure (.violation (.notArray ref))))) ∨
    (r.exec line).1 = .ok false ∧ (r.exec line).2.Keeps a index.concrete.toInt32
      (k.element e.concrete.toInt) (.int e) := by
  have hread := read_store ha hstack hline
  generalize index.concrete.toInt32 = n at hin hread ⊢
  have hanswers := Machine.arrayStore_answers hstack hlen hin
  rw [k.width_operand] at hanswers
  have hleaves := Instruction.exec_leaves hr (.arrayStore k.width (some a) n)
  rw [exec, hread]
  dsimp only
  rcases hrun : (Instruction.arrayStore k.width (some a) n).exec r.machine with ⟨res, m⟩
  have hres : (Machine.arrayStore k.width (some a) n r.machine).1 = res := congrArg Prod.fst hrun
  rw [hres] at hanswers
  rcases hanswers with rfl | ⟨ref, harray, rfl⟩
  · have hsound := hleaves.sound
    rw [hrun] at hsound
    obtain ⟨l, hl, hkept⟩ := Instruction.exec_stored hr rfl hstack hrun
    rw [k.expr_operand] at hkept
    have hhost : ({ r with machine := m } : Replay).stored (some ⟨a, n, .int e.concrete⟩) =
        .ok ⟨m, r.host.setElem a.name n.toInt.toNat (k.element e.concrete.toInt), r.faults⟩ := by
      rw [stored, HostStore.apply, Host.IntType.toElem_element hk]
      rfl
    rw [perform_stored hrun hhost]
    refine Or.inr ⟨rfl, hsound, ⟨l, hl, hkept⟩, ?_⟩
    refine ⟨a.elems.set n.toInt.toNat (k.element e.concrete.toInt), ?_, List.length_set, ?_⟩
    · rw [Host.array?_setElem, array_found r.host name _ ha a rfl, Option.map_some, if_pos rfl]
    · rw [List.getElem?_set_self hin.toNat_lt]
  · rw [perform_failed hrun (by simp)]
    exact Or.inl ⟨ref, harray, rfl⟩

/-- **A load takes what is kept of the element,** if the host reports the concrete value. -/
theorem exec_load {n : Int32} {v : Value} (h : r.Keeps a n v (.int e))
    (hname : Host.isNull a.name = false) (hlen : a.Addressable) (hn : 0 ≤ n.toInt)
    (hv : r.machine.heap.Reports v (k.operand e))
    (hstack : r.machine.operands = .bv32 index :: .ref x :: s)
    (hindex : index.concrete.toInt32 = n) (hline : Says line k.loadName a.name) :
    ∃ r', r.exec line = (.ok false, r') ∧ r'.machine.operands = k.operand e :: s ∧
      r'.host = r.host := by
  subst hindex
  obtain ⟨l, hl, hstored⟩ := h.heap
  obtain ⟨elems, hfound, hcount, hat⟩ := h.host
  obtain ⟨f, rest, hf, -, hframe, -⟩ := (Machine.exists_at hstack).choose_spec
  have hload : Loads (k.operand e).width v
      (.arrayLoad k.width (some { a with elems := elems }) index.concrete.toInt32)
      (.element a.toValue index.concrete.toInt32) (.bv32 index :: .ref x :: s) s := by
    rw [k.width_operand]
    exact .element (hcount ▸ hlen) (Int32.le_iff_toInt_le.mpr hn) hat
  rw [← k.expr_operand e] at hstored
  obtain ⟨c, h', reps, htells, hc⟩ := hload.tells hf hframe h.sound (a.element_same_self _) hl
    hstored hv
  obtain ⟨log, hrun⟩ := htells r.machine.collector r.machine.log
  rw [exec, read_load (array_eq_some_iff.mpr ⟨hname, hfound⟩) hstack hline]
  refine ⟨⟨c.machine (r.machine.collector.feedAll reps) log, r.host, r.faults⟩, ?_, ?_, rfl⟩
  · exact perform_stored hrun rfl
  · exact hc.operands_eq

end

end Replay

/-- The array with the name has `v` as its element `n`. -/
def Host.HasElement (h : Host) (name : String) (n : Int32) (v : Value) : Prop :=
  ∃ a, h.array name = .ok (some a) ∧ a.elems[n.toInt.toNat]? = some v

namespace Replay

/-- **Elements come back as they were stored.**  From every state that lines lead to, a store of a
value that fits the components of an array, at an index within bounds, succeeds unless the
reference for the array is not of an array type.  As long as no line stores into the element again,
the host has the value there, cut to the type of the components, which is the value itself; and a
load of the element by any reference pushes the operand that was stored. -/
theorem load_returns_stored {r : Replay} (hr : r.Reached) {k : Host.IntType} {name : String}
    {a : HostArray} (ha : r.host.array name = .ok (some a))
    (hk : Host.IntType.ofDesc? (Host.componentType a.type) = some k) (hlen : a.Addressable)
    {e index : IntExpr} {x : RefExpr} {s : Stack}
    (hstack : r.machine.operands = k.operand e :: .bv32 index :: .ref x :: s)
    (hin : a.InBounds index.concrete.toInt32) (he : k.Has e.concrete.toInt) {line : String}
    (hline : Says line k.storeName name) :
    (∃ ref, ref.isArray = false ∧ (r.exec line).1 =
      .error (.inside k.storeName (.failure (.violation (.notArray ref))))) ∨
    (r.exec line).1 = .ok false ∧
    (k.element e.concrete.toInt).integer? = some e.concrete.toInt ∧
    ∀ ls, (∀ q ∈ (r.exec line).2.stores ls,
        (Place.element a.toValue index.concrete.toInt32).same q = false) →
      (∀ ls', ls' <+: ls → ((r.exec line).2.after ls').host.HasElement name
        index.concrete.toInt32 (k.element e.concrete.toInt)) ∧
      ∀ line' index' x' s', Says line' k.loadName name →
        index'.concrete.toInt32 = index.concrete.toInt32 →
        ((r.exec line).2.after ls).machine.operands = .bv32 index' :: .ref x' :: s' →
        ∃ r', ((r.exec line).2.after ls).exec line' = (.ok false, r') ∧
          r'.machine.operands = k.operand e :: s' ∧
          r'.host = ((r.exec line).2.after ls).host := by
  obtain ⟨hnull, hfound⟩ := array_eq_some_iff.mp ha
  obtain rfl : a.name = name := by simpa using List.find?_some hfound
  rcases exec_store hr.sound ha hk hlen hstack hin hline with hfail | ⟨hok, hkeeps⟩
  · exact Or.inl hfail
  refine Or.inr ⟨hok, Host.IntType.integer?_element he, fun ls hls => ⟨fun ls' hprefix => ?_, ?_⟩⟩
  · obtain ⟨rest, rfl⟩ := hprefix
    rw [stores_append, List.forall_mem_append] at hls
    obtain ⟨elems, harray, -, hat⟩ := (after_keeps hlen hin.1 hkeeps hls.1).host
    exact ⟨_, array_eq_some_iff.mpr ⟨hnull, harray⟩, hat⟩
  · intro line' index' x' s' hline' hindex' hstack'
    exact exec_load (after_keeps hlen hin.1 hkeeps hls) hnull hlen hin.1
      (Host.IntType.reports_element he _) hstack' hindex' hline'

/-- An array of bytes and an int that is one. -/
def bytesTrace : Trace where
  method := ⟨"A", "f", "([BI)V"⟩
  static := true
  maxLocals := 2
  args := [{ type := "[B", ref := "a" }, { type := "I", name := "x", value := "-7" }]
  arrays := [("a", { type := "[B", elems := ["1", "2"] })]

/-- The int, to be stored. -/
def byteInput : IntExpr := .var ⟨"x", -7, -2147483648, 2147483647⟩

/-- A store into the other element, a line that fails, and a new array that the host has not
seen. -/
def betweenLines : List String :=
  ["ALOAD 0", "ICONST 0", "ICONST 9", "BASTORE a", "LADD", "ICONST 3", "NEWARRAY B", "ICONST 1"]

/-- The array is reached by the reference of the new one then, and the int comes back. -/
theorem byteInput_returned :
    ∃ r, Reached r ∧ r.machine.operands =
        [.bv32 byteInput, .bv32 (.const 1), .ref (.object ⟨1, "[B"⟩)] ∧
      (r.exec "bastore a").1 = .ok false ∧
      (∀ ls, ls <+: betweenLines →
        ((r.exec "bastore a").2.after ls).host.HasElement "a" 1 (.byte (-7))) ∧
      ∃ r', ((r.exec "bastore a").2.after betweenLines).exec "BALOAD a" = (.ok false, r') ∧
        r'.machine.operands = [.bv32 byteInput] := by
  have hrun : (start bytesTrace).1.toOption.map (fun r₀ =>
      let r := r₀.after ["ALOAD 0", "ICONST 1", "ILOAD 1"]
      let r₁ := (r.exec "bastore a").2
      ((r.machine.operands, r.host.array "a"), (r.exec "bastore a").1,
        r₁.stores betweenLines, (r₁.after betweenLines).machine.operands)) =
      some (([.bv32 byteInput, .bv32 (.const 1), .ref (.object ⟨1, "[B"⟩)],
          .ok (some ⟨"a", "[B", [.byte 1, .byte 2]⟩)), .ok false,
        [.element (.array "a" "[B") 0], [.bv32 (.const 1), .ref (.object ⟨2, "[B"⟩)]) := by
    decide +kernel
  obtain ⟨r₀, hr₀, hall⟩ := Option.map_eq_some_iff.mp hrun
  obtain ⟨hbefore, hafter⟩ := Prod.mk.inj hall
  obtain ⟨hstack, ha⟩ := Prod.mk.inj hbefore
  obtain ⟨hok, hafter⟩ := Prod.mk.inj hafter
  obtain ⟨hstores, hstack'⟩ := Prod.mk.inj hafter
  have hr : Reached (r₀.after ["ALOAD 0", "ICONST 1", "ILOAD 1"]) :=
    ⟨bytesTrace, r₀, _, _, start_of_toOption hr₀, rfl⟩
  have hstore : Says "bastore a" (Host.IntType.byte).storeName "a" :=
    ⟨"bastore", by decide, by decide⟩
  have hload : Says "BALOAD a" (Host.IntType.byte).loadName "a" := ⟨"BALOAD", by decide, by decide⟩
  refine ⟨_, hr, hstack, hok, ?_⟩
  rcases load_returns_stored (k := .byte) hr ha rfl (by decide) hstack (by decide) (by decide)
    hstore with ⟨ref, -, hfail⟩ | ⟨-, -, hkept⟩
  · rw [hok] at hfail
    cases hfail
  obtain ⟨hhost, hpushed⟩ := hkept betweenLines (by rw [hstores]; decide)
  obtain ⟨r', hexec, hoperands, -⟩ := hpushed "BALOAD a" _ _ _ hload rfl hstack'
  exact ⟨hhost, r', hexec, hoperands⟩

end Replay

end Concolic
