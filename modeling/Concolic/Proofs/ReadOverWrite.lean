import Concolic.Proofs.Stores

/-
# Reading what was written

A store is followed by any instructions that do not store into the same place.  Then a load from
that place pushes the operand that was stored, with all its symbolic structure, as long as the host
reports its concrete value (`load_pushes_stored`).

The store puts the expression at the location of the place, and the run leaves it there
(`Instruction.run_keeps`).  The load comes to the same location, since it finds the reference of the
object in the heap and not on the stack, and what is stored there agrees with what it observes
(`Heap.observe_reported`).
-/
namespace Concolic

/-! ## 1. What the host reports -/

/-- The host reports the concrete value of the operand.  Of a reference, it reports an object that
has its number, or one that has no number yet, as the reference has no object. -/
def Heap.Reports (h : Heap) (v : Value) : Operand → Prop
  | .bv32 e => ∃ n, v.toInt = .ok n ∧ e.concrete = n.toInt64
  | .bv64 e => v.toLong = .ok e.concrete
  | .fp32 e => ∃ x, v.toReal = .ok x ∧ e.concrete = x.single
  | .fp64 e => v.toReal = .ok e.concrete
  | .ref .null => v = .null
  | .ref (.object r) => (∃ r', h.object? v = some r' ∧ r.id = r'.id) ∨
      v ≠ .null ∧ v.isComparable = true ∧ h.object? v = none ∧ r.id ∉ h.bound

theorem Heap.current_of_agrees {x y : Expr} (h : x.agrees y = true) : current (some x) y = x :=
  if_pos h

theorem Operand.ofExpr_expr (o : Operand) : ofExpr o.width o.expr = .ok o := by
  cases o <;> rfl

/-- **The value that the host reports agrees with what is stored.**  To look at it changes nothing
that is stored, but it may bind the stored reference. -/
theorem Heap.observe_reported {h : Heap} {v : Value} {o : Operand} (hs : h.Sound)
    (hv : h.Reports v o) :
    ∃ y h', observe (some o.width) v (some o.expr) h = (.ok y, h') ∧ o.expr.agrees y = true ∧
      ∀ l, h'.stored? l = h.stored? l := by
  cases o with
  | bv32 e =>
    obtain ⟨n, hn, he⟩ := hv
    refine ⟨.int (.const n.toInt64), h, ?_, decide_eq_true he, fun _ => rfl⟩
    change constant (some .bv32) v h = _
    rw [constant, hn]
    rfl
  | bv64 e =>
    refine ⟨.int (.const e.concrete), h, ?_, decide_eq_true rfl, fun _ => rfl⟩
    change constant (some .bv64) v h = _
    rw [constant, show v.toLong = .ok e.concrete from hv]
    rfl
  | fp32 e =>
    obtain ⟨x, hx, he⟩ := hv
    refine ⟨.real (.const x.single), h, ?_, decide_eq_true he, fun _ => rfl⟩
    change constant (some .fp32) v h = _
    rw [constant, hx]
    rfl
  | fp64 e =>
    refine ⟨.real (.const e.concrete), h, ?_, decide_eq_true rfl, fun _ => rfl⟩
    change constant (some .fp64) v h = _
    rw [constant, show v.toReal = .ok e.concrete from hv]
    rfl
  | ref e =>
    have hresolve : ∀ {e' : RefExpr} {h' : Heap}, resolve e v h = (.ok e', h') →
        observe (some .ref) v (some (.ref e)) h = (.ok (.ref e'), h') := by
      intro e' h' heq
      change (resolve e v >>= fun e' => pure (Expr.ref e')) h = _
      rw [Act.bind_apply, heq]
      rfl
    cases e with
    | null =>
      cases (show v = .null from hv)
      exact ⟨_, h, hresolve rfl, rfl, fun _ => rfl⟩
    | object r =>
      rcases hv with ⟨r', ho, hid⟩ | ⟨hnull, hc, ho, hr⟩
      · exact ⟨_, h, hresolve (hs.resolve_of_object? ho _), decide_eq_true hid, fun _ => rfl⟩
      · -- neither was bound: the stored reference is bound now, so it is what is observed
        have hbind := resolve_of_free hnull ho hr
        rw [if_pos hc] at hbind
        refine ⟨_, _, hresolve hbind, decide_eq_true rfl, fun l => ?_⟩
        cases l <;> rfl

theorem Heap.arrayLength_concrete (h : Heap) (r : Ref) (n : Int64) :
    (h.arrayLength r n).concrete = n := by
  rw [arrayLength, field]
  cases h.field? (lengthKey r) with
  | none => rfl
  | some x =>
    by_cases hx : x.agrees (.int (.const n)) = true
    · rw [current_of_agrees hx]
      cases x with
      | int e => exact of_decide_eq_true hx
      | _ => rfl
    · rw [current, if_neg hx]
      rfl

/-! ## 2. Loads -/

/-- The instruction loads a value of width `w` from a place, at which the host reports `v`.  It
starts with the first stack and pushes onto the second. -/
inductive Loads (w : Width) (v : Value) : Instruction → Place → Stack → Stack → Prop
  | field {receiver : Value} {owner name desc : String} {x : RefExpr} {s : Stack}
      (hw : Descriptor.width (Text.bytes desc) = .ok (some w)) :
      Loads w v (.getField receiver owner name desc v) (.field receiver owner name) (.ref x :: s) s
  | static {owner name desc : String} {s : Stack}
      (hw : Descriptor.width (Text.bytes desc) = .ok (some w)) :
      Loads w v (.getStatic owner name desc v) (.static owner name) s s
  | element {a : HostArray} {n : Int32} {index : IntExpr} {x : RefExpr} {s : Stack}
      (hlen : a.elems.length < 2 ^ 63) (hn : 0 ≤ n) (hv : a.elems[n.toInt.toNat]? = some v) :
      Loads w v (.arrayLoad w (some a) n) (.element a.toValue n) (.bv32 index :: .ref x :: s) s

namespace Machine

/-- The operand of width `w` for a location at which the host reports `v`. -/
def reread (l : Location) (w : Width) (v : Value) : Act Machine Operand := do
  let observed ← onHeap (Heap.observe (some w) v ((← get).heap.stored? l))
  Act.ofExcept (Operand.ofExpr w (Heap.current ((← get).heap.stored? l) observed))

variable {c : Core} {μ : MethodRef} {s : Stack} {h : Heap} {o : Operand} {v : Value} {l : Location}
  {x : RefExpr} {r : Ref}

theorem reread_tells (hc : c.At μ s h) (hs : h.Sound) (hl : h.stored? l = some o.expr)
    (hv : h.Reports v o) :
    ∃ c₁ h', Tells c (reread l o.width v) (.ok o) c₁ [] ∧ c₁.At μ s h' := by
  obtain ⟨y, h', hobserve, hagrees, hkept⟩ := Heap.observe_reported hs hv
  obtain ⟨c₁, hobserve, hc₁⟩ := hc.onHeap hobserve
  have hheap : (c.machine (.calls []) []).heap = h := hc.heap_eq
  have hheap₁ : (c₁.machine (.calls []) []).heap = h' := hc₁.heap_eq
  refine ⟨c₁, h', Tells.get_bind (fun _ _ _ => rfl) ?_, hc₁⟩
  rw [hheap, hl]
  refine hobserve.silent_bind (Tells.get_bind (fun _ _ _ => rfl) ?_)
  rw [hheap₁, hkept, hl, Heap.current_of_agrees hagrees, Operand.ofExpr_expr]
  exact Tells.pure o

/-- A location is read again and pushed. -/
theorem rereadPush_tells (hc : c.At μ s h) (hs : h.Sound) (hl : h.stored? l = some o.expr)
    (hv : h.Reports v o) (b : β) :
    ∃ c₁ h', Tells c (do
        push (← reread l o.width v)
        return b) (.ok b) c₁ [] ∧ c₁.At μ (o :: s) h' := by
  obtain ⟨c₁, h', hread, hc₁⟩ := reread_tells hc hs hl hv
  obtain ⟨c₂, hpush, hc₂⟩ := hc₁.onStack (a := Stack.push o) rfl
  exact ⟨c₂, h', hread.silent_bind (hpush.silent_bind (Tells.pure b)), hc₂⟩

theorem getField_tells {receiver : Value} {owner name desc : String}
    (hc : c.At μ (.ref x :: s) h) (hs : h.Sound) (hr : h.object? receiver = some r)
    (hw : Descriptor.width (Text.bytes desc) = .ok (some o.width))
    (hl : h.stored? (.field ⟨r.id, owner, name⟩) = some o.expr) (hv : h.Reports v o) :
    ∃ c₁ h', Tells c (getField receiver owner name desc v) (.ok false) c₁ [] ∧
      c₁.At μ (o :: s) h' := by
  obtain ⟨c₁, hpop, hc₁⟩ := hc.popRef
  obtain ⟨c₂, hresolve, hc₂⟩ := hc₁.onHeap (hs.resolve_of_object? hr x)
  obtain ⟨c₃, h', hread, hc₃⟩ := rereadPush_tells hc₂ hs hl hv false
  refine ⟨c₃, h', hpop.silent_bind ?_, hc₃⟩
  rw [if_neg (hs.ne_null hr)]
  refine hresolve.silent_bind ?_
  dsimp only
  rw [fieldWidth, hw]
  exact hread

theorem prepare_tells {name : String} (hname : name ∈ c.prepared) :
    Tells c (prepare name) (.ok ()) c [] := by
  refine Tells.get_bind (fun _ _ _ => rfl) (Tells.get_bind (fun _ _ _ => rfl) ?_)
  have hcontains : (c.machine (.calls []) []).prepared.contains name = true :=
    List.contains_iff_mem.mpr hname
  rw [if_pos hcontains]
  exact Tells.pure ()

theorem getStatic_tells {owner name desc : String} (hc : c.At μ s h) (hs : h.Sound)
    (howner : owner ∈ c.prepared) (hw : Descriptor.width (Text.bytes desc) = .ok (some o.width))
    (hl : h.stored? (.field ⟨0, owner, name⟩) = some o.expr) (hv : h.Reports v o) :
    ∃ c₁ h', Tells c (Instruction.safely (getStatic owner name desc v)) (.ok false) c₁ [] ∧
      c₁.At μ (o :: s) h' := by
  obtain ⟨c₁, h', hread, hc₁⟩ := reread_tells hc hs hl hv
  obtain ⟨c₂, hpush, hc₂⟩ := hc₁.onStack (a := Stack.push o) rfl
  refine ⟨c₂, h', Tells.silent_bind (x := ()) ((prepare_tells howner).silent_bind ?_)
    (Tells.pure false), hc₂⟩
  rw [fieldWidth, hw]
  exact hread.silent_bind hpush

/-- An access within the bounds that the host sees passes its checks. -/
theorem checkAccess_tells {a : HostArray} {n : Int32} {h' : Heap} (hc : c.At μ s h)
    (hx : Heap.resolve x a.toValue h = (.ok (.object r), h')) (harray : r.isArray = true)
    (index : IntExpr) (hlen : a.elems.length < 2 ^ 63) (hn : 0 ≤ n)
    (hlt : n.toInt.toNat < a.elems.length) :
    ∃ c₁ reps, Tells c (checkAccess x (some a) index n) (.ok (some (r, a))) c₁ reps ∧
      c₁.At μ s h' := by
  have hsign : ¬ n < 0 := Int32.not_lt.mpr hn
  obtain ⟨c₁, hresolve, hc₁⟩ := resolveArray_tells hc hx harray
  have hheap₁ : (c₁.machine (.calls []) []).heap = h' := hc₁.heap_eq
  have hfits : ¬ (h'.arrayLength r (lengthWord a)).concrete ≤ n.toInt64 := by
    rw [Heap.arrayLength_concrete, lengthWord, Int64.le_iff_toInt_le, Int32.toInt_toInt64,
      Int64.toInt_ofNat_of_lt hlen]
    have hn' : 0 ≤ n.toInt := Int32.le_iff_toInt_le.mp hn
    omega
  obtain ⟨reps, hnegative, -⟩ := negativeIndex_asks hc index index n
  obtain ⟨reps', hbig, -⟩ := indexTooBig_asks hc₁ index (h'.arrayLength r (lengthWord a)) n
  rw [decide_eq_false hsign] at hnegative
  rw [decide_eq_false hfits] at hbig
  refine ⟨c₁, reps ++ (reps' ++ []), hnegative.bind (hresolve.silent_bind ?_), hc₁⟩
  refine Tells.get_bind (fun _ _ _ => rfl) ?_
  rw [hheap₁]
  exact hbig.bind (Tells.pure _)

theorem arrayLoad_tells {a : HostArray} {n : Int32} {index : IntExpr}
    (hc : c.At μ (.bv32 index :: .ref x :: s) h) (hs : h.Sound)
    (hr : h.object? a.toValue = some r) (harray : r.isArray = true)
    (hlen : a.elems.length < 2 ^ 63) (hn : 0 ≤ n) (hat : a.elems[n.toInt.toNat]? = some v)
    (hl : h.stored? (.elem (slot r n)) = some o.expr) (hv : h.Reports v o) :
    ∃ c₁ h' reps, Tells c (arrayLoad o.width (some a) n) (.ok false) c₁ reps ∧
      c₁.At μ (o :: s) h' := by
  obtain ⟨hlt, -⟩ := List.getElem?_eq_some_iff.mp hat
  obtain ⟨c₁, hindex, hc₁⟩ := hc.popInt
  obtain ⟨c₂, hx, hc₂⟩ := hc₁.popRef
  obtain ⟨c₃, reps, hcheck, hc₃⟩ :=
    checkAccess_tells hc₂ (hs.resolve_of_object? hr x) harray index hlen hn hlt
  obtain ⟨c₄, h', hread, hc₄⟩ := rereadPush_tells hc₃ hs hl hv false
  refine ⟨c₄, h', reps ++ [], ?_, hc₄⟩
  refine hindex.silent_bind (hx.silent_bind (hcheck.bind ?_))
  have helement : element a n = pure v := by rw [element, hat]
  simp only [reread, bind_assoc] at hread
  dsimp only
  rw [helement, pure_bind]
  exact hread

end Machine

/-- **A load pushes what is kept at its place,** if the host reports the concrete value. -/
theorem Loads.tells {v : Value} {j : Instruction} {q : Place} {before s : Stack} {m : Machine}
    {f : Frame} {rest : List Frame} {l : Location} {o : Operand} (hj : Loads o.width v j q before s)
    (hf : m.frames = f :: rest) (hbefore : f.stack = before) (hm : m.Sound)
    (hself : q.same q = true) (hq : m.Locates q l) (hl : m.heap.stored? l = some o.expr)
    (hv : m.heap.Reports v o) :
    ∃ c₁ h' reps, Tells m.core j.exec (.ok false) c₁ reps ∧ c₁.At f.method (o :: s) h' := by
  have hc : m.core.At f.method before m.heap := ⟨f, rest, hf, rfl, hbefore, rfl⟩
  cases hj with
  | field hw =>
    obtain ⟨r, hr, rfl⟩ := hq
    have hfound := hr.found (by simpa [Place.same] using hself)
    obtain ⟨c₁, h', htells, hc₁⟩ := Machine.getField_tells hc hm.heap hfound hw hl hv
    exact ⟨c₁, h', [], htells, hc₁⟩
  | static hw =>
    obtain ⟨howner, rfl⟩ := hq
    obtain ⟨c₁, h', htells, hc₁⟩ := Machine.getStatic_tells hc hm.heap howner hw hl hv
    exact ⟨c₁, h', [], htells, hc₁⟩
  | element hlen hn hat =>
    obtain ⟨r, hr, harray, rfl⟩ := hq
    have hfound := hr.found (by simpa [Place.same] using hself)
    exact Machine.arrayLoad_tells hc hm.heap hfound harray hlen hn hat hl hv

/-! ## 3. Runs -/

/-- The machine comes from one whose references were all handed out by its heap, by any
instructions. -/
inductive Machine.Reachable : Machine → Prop
  | start {m : Machine} {t : History} (ht : History.Leads {} t) (hheap : m.heap = t.heap)
      (hframes : ∀ f ∈ m.frames, f.Each fun o => ∀ r, o = .ref (.object r) → r ∈ t.issued) :
      Reachable m
  | step {m : Machine} (i : Instruction) : Reachable m → Reachable (i.exec m).2

theorem Machine.Reachable.sound {m : Machine} (h : m.Reachable) : m.Sound := by
  induction h with
  | @start m t ht hheap hframes =>
    obtain ⟨hs, -⟩ := History.sound_empty.leads ht
    refine ⟨hheap ▸ hs.heap, fun f hf => (hframes f hf).mono fun o ho => ?_⟩
    rw [hheap]
    cases o with
    | ref e =>
      cases e with
      | null => trivial
      | object r => exact hs.issued r (ho r rfl)
    | _ => trivial
  | step i _ ih => exact (Instruction.exec_leaves ih i).sound

/-- **Read over write.**  A store into the place `p` takes the operand `o` and does not fault.  Any
instructions follow, none of which stores into the same place; they may fault or fail, make objects
and arrays, bind references, enter and leave methods.  Then a load from the same place at the same
width, for which the host reports the concrete value of `o`, pushes exactly `o`. -/
theorem load_pushes_stored {m m₁ : Machine} {i j : Instruction} {is : List Instruction}
    {p q : Place} {o : Operand} {s₀ s : Stack} {v : Value} {f : Frame} {rest : List Frame}
    (hm : m.Reachable) (hp : i.place? = some p) (ho : m.operands = o :: s₀)
    (hstore : i.exec m = (.ok false, m₁)) (his : Instruction.Undisturbed p is m₁)
    (hf : (Instruction.run is m₁).2.frames = f :: rest) (hj : Loads o.width v j q f.stack s)
    (hq : p.same q = true) (hv : (Instruction.run is m₁).2.heap.Reports v o) :
    ∃ m₂, j.exec (Instruction.run is m₁).2 = (.ok false, m₂) ∧ m₂.operands = o :: s := by
  have hm₁ : m₁.Sound := by
    have hleft := (Instruction.exec_leaves hm.sound i).sound
    rwa [hstore] at hleft
  obtain ⟨l, hl, hstored⟩ := Instruction.exec_stored hm.sound hp ho hstore
  have hself : p.same p = true := Place.same_self hq
  have hself' : q.same q = true := Place.same_self (Place.same_symm hq)
  obtain ⟨hm₂, hl', hkept⟩ := Instruction.run_keeps hself hm₁ hl his
  -- the load names the place in its own way, and comes to the same location
  obtain ⟨c, h, reps, htells, hc⟩ :=
    hj.tells hf rfl hm₂ hself' (hl'.congr hq) (hkept.trans hstored) hv
  obtain ⟨log, hexec⟩ := htells _ (Instruction.run is m₁).2.log
  exact ⟨_, hexec, hc.operands_eq⟩

/-- An int input with the value 5. -/
def storedInput : IntExpr := .var ⟨"x", 5, -2147483648, 2147483647⟩

/-- A machine that is about to store the input into a field. -/
def atStore : Machine :=
  { Machine.recording none with
    frames := [⟨⟨"A", "f", "(I)V"⟩,
      [.bv32 storedInput, .ref (.object ⟨1, "A"⟩), .ref (.object ⟨1, "A"⟩)], ⟨[]⟩, false⟩]
    prepared := ["A"]
    heap := (Heap.reference (.object "a" "A") {}).2 }

def storeInput : Instruction := .putField (.object "a" "A") "A" "x" "I"

/-- A new array, and stores into the same field of another object and into a static field of the
same name. -/
def elsewhere : List Instruction :=
  [.pushInt 3, .newArray 3 "I", .pushInt 9, .putField (.object "b" "A") "A" "x" "I",
    .pushInt 4, .putStatic "A" "x" "I"]

theorem atStore_reachable : atStore.Reachable := by
  refine .start (t := ({} : History).next (.reference (.object "a" "A")))
    (.next _ .refl trivial) rfl fun f hf => ?_
  obtain rfl := List.mem_singleton.mp hf
  refine ⟨fun o ho r hr => ?_, fun o ho => ?_⟩
  · subst hr
    have hr : r = ⟨1, "A"⟩ := by simpa using ho
    subst hr
    decide
  · cases ho

theorem elsewhere_undisturbed :
    Instruction.Undisturbed (.field (.object "a" "A") "A" "x") elsewhere
      (storeInput.exec atStore).2 := by
  refine ⟨fun _ _ h => ?_, fun _ _ h => ?_, fun _ _ h => ?_, fun _ _ h => ?_, fun _ _ h => ?_,
    fun _ _ h => ?_, trivial⟩
  all_goals cases h
  · decide
  · decide

theorem loadInput_pushes_stored :
    atStore.Reachable ∧ (storeInput.exec atStore).1 = .ok false ∧
    Instruction.Undisturbed (.field (.object "a" "A") "A" "x") elsewhere
      (storeInput.exec atStore).2 ∧
    (Instruction.run elsewhere (storeInput.exec atStore).2).2.heap.Reports (.int 5)
      (.bv32 storedInput) ∧
    ∃ m, (Instruction.getField (.object "a" "A") "A" "x" "I" (.int 5)).exec
        (Instruction.run elsewhere (storeInput.exec atStore).2).2 = (.ok false, m) ∧
      m.operands = [.bv32 storedInput] := by
  have hstore : storeInput.exec atStore = (.ok false, (storeInput.exec atStore).2) := rfl
  have hframe : (Instruction.run elsewhere (storeInput.exec atStore).2).2.frames =
      [⟨⟨"A", "f", "(I)V"⟩, [.ref (.object ⟨1, "A"⟩)], ⟨[]⟩, false⟩] := by
    decide +kernel
  have hreports : (Instruction.run elsewhere (storeInput.exec atStore).2).2.heap.Reports (.int 5)
      (.bv32 storedInput) := ⟨5, rfl, rfl⟩
  refine ⟨atStore_reachable, rfl, elsewhere_undisturbed, hreports, ?_⟩
  exact load_pushes_stored atStore_reachable rfl rfl hstore elsewhere_undisturbed hframe
    (.field rfl) (by decide) hreports

end Concolic
