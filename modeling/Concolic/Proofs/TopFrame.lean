import Concolic.Proofs.Stores

/-
# What an instruction touches

An instruction that is no call and no return works on the frame on top and on the heap.  It leaves
the frames below as they are, whether it fails or not.  `Over E H fs` is the invariant that says so:
the frames below the top one are those of `fs`.  The invariant also says what is in the part that is
touched, since that needs the same walk through all instructions: `E` of the ints on the stack and
in the locals of the top frame, and `H` of the heap.  Calls and returns keep what is said of the
ints and the heap too, once it is said of all frames (`Fits`).

Two kinds of instructions meet the heap at a place that the host names.  A store finds its location
and then writes it (`Instruction.target`); a load finds its location and then reads it
(`Instruction.origin`).  The invariants are kept while they search.  What is written or read then
depends on the place, and is left to those who know about places.
-/
namespace Concolic

/-! ## 1. Rules -/

namespace Act.Keeps

variable {I : σ → Prop} {a : Act σ α} {Q : α → Prop}

theorem imp {Q' : α → Prop} (ha : Keeps I a Q) (h : ∀ x, Q x → Q' x) : Keeps I a Q' :=
  fun s hs => ⟨(ha s hs).1, fun x hx => h x ((ha s hs).2 x hx)⟩

theorem discard (ha : Keeps I a Q) : Keeps I (Functor.discard a) fun _ => True :=
  ha.bind (g := fun _ => Pure.pure ()) fun _ _ => pure trivial

/-- An action that may be left out, before another one. -/
theorem ite_bind {p : Prop} [Decidable p] {a : Act σ Unit} {b : Act σ β} {R : β → Prop}
    (ha : Keeps I a fun _ => True) (hb : Keeps I b R) :
    Keeps I (if p then a >>= fun _ => b else b) R := by
  split
  · exact ha.bind fun _ _ => hb
  · exact hb

end Act.Keeps

theorem Act.ofExcept_ok {r : Except Violation α} {x : α} {s s' : σ}
    (h : Act.ofExcept r s = (.ok x, s')) : r = .ok x ∧ s' = s := by
  cases r with
  | error => cases h
  | ok =>
    cases h
    exact ⟨rfl, rfl⟩

/-- The operand satisfies `E` if it is an int. -/
def Operand.Ints (E : IntExpr → Prop) : Operand → Prop
  | bv32 e => E e
  | _ => True

/-- What the instructions make of ints with `E` has `E`. -/
structure IntClosed (E : IntExpr → Prop) : Prop where
  const : ∀ v : Int32, E (.const v.toInt64)
  wordOp : ∀ (op : WordOp) {l r : IntExpr}, E l → E r →
    E (l.combine op.operator r (op.onInt l.concreteInt r.concreteInt).toInt64)
  shiftOp : ∀ (op : ShiftOp) {l r : IntExpr}, E l → E r →
    E (l.combine op.operator r (op.onInt l.concreteInt r.concreteInt).toInt64)
  divOp : ∀ (op : DivOp) {l r : IntExpr} (d : Int32), E l → E r →
    E (l.combine op.operator r (op.onInt l.concreteInt d).toInt64)
  negate : ∀ {e : IntExpr}, E e → E (e.apply .neg (-e.concreteInt).toInt64)
  narrow : ∀ e : IntExpr, E (e.apply .narrow e.concreteInt.toInt64)
  threeWay : ∀ l r : IntExpr, E (l.threeWay r (threeWayInt l.concrete r.concrete))
  threeWayReal : ∀ l r : RealExpr, E (.threeWayReal l r (threeWayDouble l.concrete r.concrete))
  castReal : ∀ x : RealExpr, E (.castReal x (Machine.truncateInt x.concrete))

/-- The heap keeps `H` if references are added, and if a length with `E` is stored. -/
structure HeapClosed (E : IntExpr → Prop) (H : Heap → Prop) : Prop where
  refs : ∀ {h h' : Heap}, h'.fields = h.fields → h'.elems = h.elems → H h → H h'
  length : ∀ {h : Heap} (r : Ref) {e : IntExpr}, E e → H h →
    H (h.putField (Heap.lengthKey r) (.int e))

theorem intClosed_true : IntClosed fun _ => True :=
  ⟨fun _ => trivial, fun _ _ _ _ _ => trivial, fun _ _ _ _ _ => trivial,
    fun _ _ _ _ _ _ => trivial, fun _ => trivial, fun _ => trivial, fun _ _ => trivial,
    fun _ _ => trivial, fun _ => trivial⟩

theorem heapClosed_true (E : IntExpr → Prop) : HeapClosed E fun _ => True :=
  ⟨fun _ _ _ => trivial, fun _ _ _ _ => trivial⟩

variable {E : IntExpr → Prop} {H : Heap → Prop} {fs : List Frame}

theorem IntClosed.ofBool (hE : IntClosed E) (b : Bool) : E (.ofBool b) := by
  cases b with
  | true => exact hE.const 1
  | false => exact hE.const 0

/-- The sum with a constant. -/
theorem IntClosed.increment (hE : IntClosed E) {e : IntExpr} (he : E e) (d : Int32) :
    E (e.combine .add (.const d.toInt64) (e.concreteInt + d).toInt64) := by
  have hsum := hE.wordOp .add he (hE.const d)
  rwa [show (IntExpr.const d.toInt64).concreteInt = d from Int32.toInt32_toInt64 d] at hsum

namespace Heap

theorem new_over (hH : HeapClosed E H) (type : String) :
    Act.Keeps H (new type) fun _ => True :=
  Act.Keeps.get_bind fun h hh =>
    Act.Keeps.set_bind (hH.refs (h := h) rfl rfl hh) (Act.Keeps.pure trivial)

theorem newArray_over (hH : HeapClosed E H) (type : String) {length : IntExpr} (hl : E length) :
    Act.Keeps H (newArray type length) fun _ => True := by
  refine (new_over hH type).bind fun r _ => ?_
  exact (Act.Keeps.modify fun _ hh => hH.length r hl hh).bind fun _ _ => Act.Keeps.pure trivial

theorem bind_over (hH : HeapClosed E H) (v : Value) (r : Ref) :
    Act.Keeps H (bind v r) fun _ => True :=
  (Act.Keeps.ensure _ _).bind fun _ _ => (Act.Keeps.ensure _ _).bind fun _ _ =>
    Act.Keeps.modify fun h hh => hH.refs (h := h) rfl rfl hh

theorem reference_over (hH : HeapClosed E H) (v : Value) :
    Act.Keeps H (reference v) fun _ => True := by
  unfold reference
  split
  · exact Act.Keeps.pure trivial
  · refine Act.Keeps.get_bind fun h _ => ?_
    split
    · exact Act.Keeps.pure trivial
    · refine (new_over hH _).bind fun r _ => ?_
      exact (bind_over hH v r).bind fun _ _ => Act.Keeps.pure trivial

theorem resolve_over (hH : HeapClosed E H) (e : RefExpr) (v : Value) :
    Act.Keeps H (resolve e v) fun _ => True := by
  unfold resolve
  split
  · exact Act.Keeps.pure trivial
  · refine Act.Keeps.get_bind fun h _ => ?_
    split
    · exact Act.Keeps.pure trivial
    · cases e with
      | null => exact reference_over hH v
      | object r =>
        refine Act.Keeps.get_bind fun h _ => ?_
        split
        · exact reference_over hH v
        · exact (bind_over hH v r).bind fun _ _ => Act.Keeps.pure trivial

/-- A constant of the width of ints is an int. -/
theorem constant_over (hE : IntClosed E) (hH : HeapClosed E H) (w : Option Width) (v : Value) :
    Act.Keeps H (constant w v) fun x => ∀ e, w = some .bv32 → x = .int e → E e := by
  have hany : ∀ {α : Type} (r : Except Violation α), Act.Keeps H (Act.ofExcept r) fun _ => True :=
    fun _ => Act.Keeps.ofExcept fun _ _ => trivial
  unfold constant
  split
  · refine (hany _).bind fun n _ => Act.Keeps.pure fun e _ he => ?_
    cases he
    exact hE.const n
  · exact (hany _).bind fun _ _ => Act.Keeps.pure nofun
  · exact (hany _).bind fun _ _ => Act.Keeps.pure nofun
  · exact (hany _).bind fun _ _ => Act.Keeps.pure nofun
  · exact (reference_over hH v).bind fun _ _ => Act.Keeps.pure nofun
  · exact Act.Keeps.fail _

theorem observe_over (hE : IntClosed E) (hH : HeapClosed E H) (w : Option Width) (v : Value)
    (stored : Option Expr) :
    Act.Keeps H (observe w v stored) fun x => ∀ e, w = some .bv32 → x = .int e → E e := by
  unfold observe
  split
  · exact (resolve_over hH _ v).bind fun _ _ => Act.Keeps.pure nofun
  · exact constant_over hE hH w v

/-- What is read is what is stored or what is observed. -/
theorem current_eq (stored : Option Expr) (y : Expr) :
    stored = some (current stored y) ∨ current stored y = y := by
  cases stored with
  | none => exact Or.inr rfl
  | some x =>
    by_cases hx : x.agrees y = true
    · exact Or.inl (congrArg some (if_pos hx).symm)
    · exact Or.inr (if_neg hx)

end Heap

/-! ## 2. Parts of the machine -/

namespace Machine

/-- The frames are as many as those of `fs` and the same below the top one.  The ints of the top one
satisfy `E` and the heap `H`. -/
structure Over (E : IntExpr → Prop) (H : Heap → Prop) (fs : List Frame) (m : Machine) : Prop where
  heap : H m.heap
  below : m.frames.tail = fs.tail
  length : m.frames.length = fs.length
  top : ∀ f ∈ m.frames.head?, f.Each (Operand.Ints E)

theorem over_true (m : Machine) : Over (fun _ => True) (fun _ => True) m.frames m :=
  ⟨trivial, rfl, rfl, fun _ _ =>
    ⟨fun o _ => by cases o <;> trivial, fun o _ => by cases o <;> trivial⟩⟩

theorem Over.cons {m : Machine} (hm : m.Over E H fs) {f : Frame} {rest : List Frame}
    (hfs : fs = f :: rest) : ∃ g, m.frames = g :: rest := by
  obtain ⟨g, gs, hframes⟩ : ∃ g gs, m.frames = g :: gs := by
    refine List.exists_cons_of_length_eq_add_one (n := rest.length) ?_
    rw [hm.length, hfs, List.length_cons]
  have hbelow := hm.below
  rw [hframes, hfs] at hbelow
  cases hbelow
  exact ⟨g, hframes⟩

theorem onTop_over {a : Act Frame α} {Q : α → Prop}
    (ha : Act.Keeps (Frame.Each (Operand.Ints E)) a Q) :
    Act.Keeps (Over E H fs) (onTop a) Q := by
  rintro ⟨frames, prepared, heap, collector, log, classes⟩ hm
  cases frames with
  | nil => exact ⟨hm, nofun⟩
  | cons f rest =>
    obtain ⟨hf, hQ⟩ := ha f (hm.top f rfl)
    refine ⟨⟨hm.heap, hm.below, hm.length, fun f' hf' => ?_⟩, hQ⟩
    cases hf'
    exact hf

theorem onStack_over {a : Act Stack α} {Q : α → Prop}
    (ha : Act.Keeps (Stack.Each (Operand.Ints E)) a Q) :
    Act.Keeps (Over E H fs) (onStack a) Q :=
  onTop_over fun f hf => ⟨⟨(ha f.stack hf.stack).1, hf.locals⟩, (ha f.stack hf.stack).2⟩

theorem onLocals_over {a : Act Locals α} {Q : α → Prop}
    (ha : Act.Keeps (Locals.Each (Operand.Ints E)) a Q) :
    Act.Keeps (Over E H fs) (onLocals a) Q :=
  onTop_over fun f hf => ⟨⟨hf.stack, (ha f.locals hf.locals).1⟩, (ha f.locals hf.locals).2⟩

theorem onHeap_over {a : Act Heap α} {Q : α → Prop} (ha : Act.Keeps H a Q) :
    Act.Keeps (Over E H fs) (onHeap a) Q :=
  fun m hm => ⟨⟨(ha m.heap hm.heap).1, hm.below, hm.length, hm.top⟩, (ha m.heap hm.heap).2⟩

/-- A change that leaves frames and heap alone. -/
theorem modify_over {g : Machine → Machine} (hframes : ∀ m, (g m).frames = m.frames)
    (hheap : ∀ m, (g m).heap = m.heap) :
    Act.Keeps (Over E H fs) (modify g : Act Machine PUnit) fun _ => True := by
  refine Act.Keeps.modify fun m hm => ?_
  constructor
  · rw [hheap]
    exact hm.heap
  · rw [hframes]
    exact hm.below
  · rw [hframes]
    exact hm.length
  · rw [hframes]
    exact hm.top

theorem tell_over (e : Event) : Act.Keeps (Over E H fs) (tell e) fun _ => True :=
  modify_over (fun _ => rfl) fun _ => rfl

theorem topFrame_over : Act.Keeps (Over E H fs) topFrame fun _ => True := by
  refine Act.Keeps.get_bind fun m _ => ?_
  split
  · exact Act.Keeps.fail _
  · exact Act.Keeps.pure trivial

theorem fault_over (x : Fault) : Act.Keeps (Over E H fs) (fault x) fun _ => True :=
  topFrame_over.bind fun _ _ => tell_over _

theorem report_over (rep : Report) : Act.Keeps (Over E H fs) (report rep) fun _ => True := by
  refine Act.Keeps.get_bind fun m _ => ?_
  split
  · exact Act.Keeps.fail _
  · refine Act.Keeps.bind (modify_over ?_ ?_) fun _ _ => ?_
    · exact fun _ => rfl
    · exact fun _ => rfl
    split
    · exact tell_over _
    · exact Act.Keeps.pure trivial

theorem support_over (d : Constraint) : Act.Keeps (Over E H fs) (support d) fun _ => True := by
  unfold support
  split
  · exact report_over _
  · exact Act.Keeps.pure trivial

theorem decideAccess_over (d : Constraint) (negated : Bool) :
    Act.Keeps (Over E H fs) (decideAccess d negated) fun _ => True := by
  unfold decideAccess
  split
  · exact topFrame_over.bind fun _ _ => report_over _
  · exact Act.Keeps.pure trivial

theorem decideBranch_over (d : Constraint) (branch : Int) :
    Act.Keeps (Over E H fs) (decideBranch d branch) fun _ => True := by
  unfold decideBranch
  split
  · exact topFrame_over.bind fun _ _ => report_over _
  · exact Act.Keeps.pure trivial

theorem prepare_over (name : String) : Act.Keeps (Over E H fs) (prepare name) fun _ => True := by
  intro m hm
  obtain ⟨names, log, hleft, -⟩ := prepare_prepares name m
  rw [hleft]
  exact ⟨⟨hm.heap, hm.below, hm.length, hm.top⟩, fun _ _ => trivial⟩

/-! ## 3. Operands -/

theorem push_over {o : Operand} (ho : o.Ints E) :
    Act.Keeps (Over E H fs) (push o) fun _ => True :=
  onStack_over (Stack.push_keeps ho)

theorem pop_over : Act.Keeps (Over E H fs) (onStack Stack.pop) (Operand.Ints E) :=
  onStack_over Stack.pop_keeps

theorem popInt_over : Act.Keeps (Over E H fs) (onStack Stack.popInt) E :=
  onStack_over Stack.popInt_keeps

theorem popLong_over : Act.Keeps (Over E H fs) (onStack Stack.popLong) fun _ => True :=
  onStack_over Stack.popLong_keeps

theorem popFloat_over : Act.Keeps (Over E H fs) (onStack Stack.popFloat) fun _ => True :=
  onStack_over Stack.popFloat_keeps

theorem popDouble_over : Act.Keeps (Over E H fs) (onStack Stack.popDouble) fun _ => True :=
  onStack_over Stack.popDouble_keeps

theorem popRef_over : Act.Keeps (Over E H fs) (onStack Stack.popRef) fun _ => True :=
  onStack_over Stack.popRef_keeps

/-- The reference of a value is pushed. -/
theorem pushReference_over (hH : HeapClosed E H) (v : Value) :
    Act.Keeps (Over E H fs) (onHeap (Heap.reference v) >>= fun x => push (.ref x)) fun _ => True :=
  (onHeap_over (Heap.reference_over hH v)).bind fun _ _ => push_over trivial

theorem pushConstant_over (hE : IntClosed E) (hH : HeapClosed E H) (v : Value) :
    Act.Keeps (Over E H fs) (pushConstant v) fun _ => True := by
  cases v with
  | int v => exact push_over (hE.const v)
  | long v => exact push_over trivial
  | float v => exact push_over trivial
  | double v => exact push_over trivial
  | text bs => exact topFrame_over.discard.bind fun _ _ => pushReference_over hH _
  | _ => exact Act.Keeps.fail _

theorem load_over (w : Width) (i : Int) : Act.Keeps (Over E H fs) (load w i) fun _ => True :=
  (onLocals_over (Locals.read_keeps i)).bind fun _ ho =>
    (Act.Keeps.ensure _ _).bind fun _ _ => push_over ho

theorem store_over (w : Width) (i : Int) : Act.Keeps (Over E H fs) (store w i) fun _ => True :=
  pop_over.bind fun _ ho => (Act.Keeps.ensure _ _).bind fun _ _ =>
    onLocals_over (Locals.write_keeps i ho)

theorem increment_over (hE : IntClosed E) (i : Int) (d : Int32) :
    Act.Keeps (Over E H fs) (increment i d) fun _ => True :=
  onLocals_over ((Locals.readInt_keeps i).bind fun _ he =>
    Locals.write_keeps i (o := .bv32 _) (hE.increment he d))

theorem convert_over (hE : IntClosed E) (c : Conversion) :
    Act.Keeps (Over E H fs) (convert c) fun _ => True := by
  cases c with
  | intToLong | intToFloat | intToDouble => exact popInt_over.bind fun _ _ => push_over trivial
  | longToInt => exact popLong_over.bind fun e _ => push_over (o := .bv32 _) (hE.narrow e)
  | longToFloat | longToDouble => exact popLong_over.bind fun _ _ => push_over trivial
  | floatToInt => exact popFloat_over.bind fun e _ => push_over (o := .bv32 _) (hE.castReal e)
  | floatToLong | floatToDouble => exact popFloat_over.bind fun _ _ => push_over trivial
  | doubleToInt => exact popDouble_over.bind fun e _ => push_over (o := .bv32 _) (hE.castReal e)
  | doubleToLong | doubleToFloat => exact popDouble_over.bind fun _ _ => push_over trivial
  | intToSmall =>
    exact (onStack_over (Stack.peek_keeps 0)).bind fun _ _ =>
      (Act.Keeps.ensure _ _).imp fun _ _ => trivial

/-! ## 4. Tests and branches -/

/-- A fault is told if there is one. -/
theorem faultIf_over (p : Prop) [Decidable p] (x : Fault) (b : Bool) :
    Act.Keeps (Over E H fs) (do
      if p then fault x
      return b) fun _ => True :=
  Act.Keeps.ite_bind (fault_over x) (Act.Keeps.pure trivial)

theorem zeroDivisor_over (e : IntExpr) (isZero : Bool) :
    Act.Keeps (Over E H fs) (zeroDivisor e isZero) fun _ => True :=
  (support_over _).bind fun _ _ => faultIf_over _ _ _

theorem negativeLength_over (e : IntExpr) (n : Int32) :
    Act.Keeps (Over E H fs) (negativeLength e n) fun _ => True :=
  (support_over _).bind fun _ _ => faultIf_over _ _ _

theorem negativeIndex_over (e : IntExpr) (n : Int32) :
    Act.Keeps (Over E H fs) (negativeIndex e n) fun _ => True :=
  (decideAccess_over _ _).bind fun _ _ => faultIf_over _ _ _

theorem indexTooBig_over (e : IntExpr) (n : Int32) (length : IntExpr) :
    Act.Keeps (Over E H fs) (indexTooBig e n length) fun _ => True :=
  (decideAccess_over _ _).bind fun _ _ => faultIf_over _ _ _

theorem nullAccess_over : Act.Keeps (Over E H fs) nullAccess fun _ => True :=
  (fault_over _).bind fun _ _ => Act.Keeps.pure trivial

/-- What follows a test that finds no fault. -/
theorem unless_over {a : Act Machine Bool} {b : Act Machine α} {x : α} {Q : α → Prop}
    (ha : Act.Keeps (Over E H fs) a fun _ => True) (hx : Q x)
    (hb : Act.Keeps (Over E H fs) b Q) :
    Act.Keeps (Over E H fs) (do
      if ← a then return x
      b) Q := by
  refine ha.bind fun faulted _ => ?_
  cases faulted with
  | true => exact Act.Keeps.pure hx
  | false => exact hb

theorem pushAnswer_over {o : Operand} (ho : o.Ints E) {x : α} :
    Act.Keeps (Over E H fs) (do push o; return x) fun _ => True :=
  (push_over ho).bind fun _ _ => Act.Keeps.pure trivial

theorem intDivide_over (hE : IntClosed E) (op : DivOp) (d : Int32) :
    Act.Keeps (Over E H fs) (intDivide op d) fun _ => True :=
  popInt_over.bind fun _ hr => popInt_over.bind fun _ hl =>
    unless_over (zeroDivisor_over _ _) trivial
      (pushAnswer_over (o := .bv32 _) (hE.divOp op d hl hr))

theorem longDivide_over (op : DivOp) (d : Int64) :
    Act.Keeps (Over E H fs) (longDivide op d) fun _ => True :=
  popLong_over.bind fun _ _ => popLong_over.bind fun _ _ =>
    unless_over (zeroDivisor_over _ _) trivial (pushAnswer_over (o := .bv64 _) trivial)

theorem tableSwitch_over (branch : Int) (low high : Int32) :
    Act.Keeps (Over E H fs) (tableSwitch branch low high) fun _ => True := by
  refine popInt_over.bind fun _ _ => ?_
  split
  · exact decideBranch_over _ _
  · split
    · exact decideBranch_over _ _
    · exact decideBranch_over _ _

theorem excludeKeys_over (branch : Int) (e : IntExpr) (keys : List Int32) :
    Act.Keeps (Over E H fs) (excludeKeys branch e keys) fun _ => True := by
  induction keys with
  | nil => exact Act.Keeps.pure trivial
  | cons k ks ih => exact (decideBranch_over _ _).bind fun _ _ => ih

theorem lookupSwitch_over (branch : Int) (keys : List Int32) :
    Act.Keeps (Over E H fs) (lookupSwitch branch keys) fun _ => True := by
  refine popInt_over.bind fun _ _ => ?_
  split
  · exact decideBranch_over _ _
  · exact excludeKeys_over _ _ _

/-! ## 5. Objects and arrays -/

theorem newObject_over (hH : HeapClosed E H) (className : String) :
    Act.Keeps (Over E H fs) (newObject className) fun _ => True := by
  refine (prepare_over className).bind fun _ _ => topFrame_over.discard.bind fun _ _ => ?_
  exact (onHeap_over (Heap.new_over hH _)).bind fun _ _ => push_over trivial

/-- A reference to a new array is pushed. -/
theorem pushArray_over (hH : HeapClosed E H) (type : String) {length : IntExpr} (hl : E length) :
    Act.Keeps (Over E H fs) (do
      push (.ref (.object (← onHeap (Heap.newArray type length))))
      return false) fun _ => True :=
  (onHeap_over (Heap.newArray_over hH _ hl)).bind fun r _ =>
    pushAnswer_over (o := .ref (.object r)) trivial

theorem newArray_over (hH : HeapClosed E H) (n : Int32) (component : String) :
    Act.Keeps (Over E H fs) (newArray n component) fun _ => True := by
  unfold newArray
  split
  · exact Act.Keeps.fail _
  · exact popInt_over.bind fun _ hl =>
      unless_over (negativeLength_over _ _) trivial (pushArray_over hH _ hl)

theorem anyNegative_over (ls : List (IntExpr × Int32)) :
    Act.Keeps (Over E H fs) (anyNegative ls) fun _ => True := by
  induction ls with
  | nil => exact Act.Keeps.pure trivial
  | cons p ls ih => exact unless_over (negativeLength_over _ _) trivial ih

theorem newMultiArray_over (hH : HeapClosed E H) (type : String) (dims : List Int32) :
    Act.Keeps (Over E H fs) (newMultiArray type dims) fun _ => True := by
  refine (Act.Keeps.ensure _ _).bind fun _ _ => ?_
  refine (onStack_over (popLengths_keeps dims.length)).bind fun lengths hls => ?_
  refine unless_over (anyNegative_over _) trivial ?_
  cases lengths with
  | nil => exact Act.Keeps.fail _
  | cons outer _ => exact pushArray_over hH _ (hls outer List.mem_cons_self)

theorem resolve_over (hH : HeapClosed E H) (e : RefExpr) (v : Value) :
    Act.Keeps (Over E H fs) (resolve e v) fun _ => True :=
  onHeap_over (Heap.resolve_over hH e v)

theorem resolveArray_over (hH : HeapClosed E H) (e : RefExpr) (a : HostArray) :
    Act.Keeps (Over E H fs) (resolveArray e a) fun _ => True := by
  refine (resolve_over hH e a.toValue).bind fun x _ => ?_
  cases x with
  | null => exact Act.Keeps.fail _
  | object r => exact (Act.Keeps.ensure _ _).bind fun _ _ => Act.Keeps.pure trivial

theorem arrayLength_over (hH : HeapClosed E H) {a : Option HostArray}
    (hlen : ∀ a', a = some a' → ∀ h r, H h → E (h.arrayLength r (lengthWord a'))) :
    Act.Keeps (Over E H fs) (arrayLength a) fun _ => True := by
  refine popRef_over.bind fun e _ => ?_
  cases a with
  | none => exact nullAccess_over
  | some a =>
    refine (resolveArray_over hH e a).bind fun r _ => Act.Keeps.get_bind fun m hm => ?_
    exact pushAnswer_over (o := .bv32 _) (hlen a rfl m.heap r hm.heap)

theorem checkAccess_over (hH : HeapClosed E H) (e : RefExpr) (a : Option HostArray)
    (index : IntExpr) (n : Int32) :
    Act.Keeps (Over E H fs) (checkAccess e a index n) fun _ => True := by
  cases a with
  | none => exact nullAccess_over.discard.bind fun _ _ => Act.Keeps.pure trivial
  | some a =>
    refine unless_over (negativeIndex_over _ _) trivial ?_
    refine (resolveArray_over hH e a).bind fun r _ => Act.Keeps.get_bind fun m _ => ?_
    exact unless_over (indexTooBig_over _ _ _) trivial (Act.Keeps.pure trivial)

theorem fieldWidth_over (desc : String) :
    Act.Keeps (Over E H fs) (fieldWidth desc) fun _ => True :=
  Act.Keeps.ofExcept fun _ _ => trivial

theorem checkCast_over (type : String) :
    Act.Keeps (Over E H fs) (checkCast type) fun _ => True :=
  (onStack_over (Stack.peek_keeps 0)).bind fun _ _ =>
    (Act.Keeps.ensure _ _).imp fun _ _ => trivial

theorem instanceOf_over (hE : IntClosed E) (v : Value) (type : String) :
    Act.Keeps (Over E H fs) (instanceOf v type) fun _ => True := by
  refine popRef_over.discard.bind fun _ _ => ?_
  split
  · exact push_over (hE.ofBool false)
  · refine Act.Keeps.get_bind fun m _ => ?_
    split
    · exact Act.Keeps.fail _
    · split
      · exact Act.Keeps.fail _
      next b _ => exact push_over (hE.ofBool b)
      · exact Act.Keeps.fail _

theorem monitor_over (v : Value) : Act.Keeps (Over E H fs) (monitor v) fun _ => True := by
  refine popRef_over.discard.bind fun _ _ => ?_
  split
  · exact nullAccess_over
  · exact Act.Keeps.pure trivial

/-! ## 6. Calls -/

theorem popArguments_over (desc : String) :
    Act.Keeps (Over E H fs) (popArguments desc) fun os => ∀ o ∈ os, o.Ints E :=
  (Act.Keeps.ofExcept (Q := fun _ => True) fun _ _ => trivial).bind fun _ _ =>
    onStack_over (popArgs_keeps desc _)

/-- The frame that a call is to push, with receiver and arguments from the caller's stack. -/
def handOver (method : MethodRef) (static : Bool) (size : Int) : Act Machine Frame := do
  discard topFrame
  let args ← popArguments method.desc
  match Frame.enter method size with
  | .error e => Act.fail e
  | .ok f =>
    if static then fill f (writeArguments 0 args)
    else
      let receiver ← onStack Stack.popRef
      let f ← fill f (Locals.write 0 (.ref receiver))
      fill f (writeArguments 1 args)

/-- **A call fills the new frame and then pushes it.** -/
theorem enter_eq (method : MethodRef) (static : Bool) (size : Int) :
    enter method static size = handOver method static size >>= pushFrame := by
  rw [enter, handOver, bind_assoc]
  refine bind_congr fun _ => ?_
  rw [bind_assoc]
  refine bind_congr fun args => ?_
  cases Frame.enter method size with
  | error e => rfl
  | ok f =>
    cases static with
    | true => rfl
    | false => simp only [Bool.false_eq_true, if_false, bind_assoc]

theorem fill_over {f : Frame} (hf : f.Each (Operand.Ints E)) {a : Act Locals Unit}
    (ha : Act.Keeps (Locals.Each (Operand.Ints E)) a fun _ => True) :
    Act.Keeps (Over E H fs) (fill f a) (Frame.Each (Operand.Ints E)) := by
  have hlocals := (ha f.locals hf.locals).1
  unfold fill
  split
  next t h =>
    rw [h] at hlocals
    exact Act.Keeps.pure ⟨hf.stack, hlocals⟩
  · exact Act.Keeps.fail _

theorem handOver_over (method : MethodRef) (static : Bool) (size : Int) :
    Act.Keeps (Over E H fs) (handOver method static size) (Frame.Each (Operand.Ints E)) := by
  refine topFrame_over.discard.bind fun _ _ => (popArguments_over _).bind fun args hargs => ?_
  split
  · exact Act.Keeps.fail _
  next f hf =>
    split
    · exact fill_over (each_enter hf) (writeArguments_keeps hargs 0)
    · refine popRef_over.bind fun e _ => ?_
      refine (fill_over (each_enter hf) (Locals.write_keeps 0 (o := .ref e) trivial)).bind
        fun f' hf' => ?_
      exact fill_over hf' (writeArguments_keeps hargs 1)

/-- An operand made of an expression is an int only if the expression is. -/
theorem ints_ofExpr {w : Width} {x : Expr} {o : Operand} (h : Operand.ofExpr w x = .ok o)
    (hx : ∀ e, w = .bv32 → x = .int e → E e) : o.Ints E := by
  unfold Operand.ofExpr at h
  split at h
  · cases h
    exact hx _ rfl rfl
  -- the other widths hold no ints, and an expression of the wrong kind is no operand
  iterate 4
    · cases h
      trivial
  all_goals cases h

theorem callUnwatched_over (hE : IntClosed E) (hH : HeapClosed E H) (desc : String)
    (static : Bool) (result : Value) :
    Act.Keeps (Over E H fs) (callUnwatched desc static result) fun _ => True := by
  refine topFrame_over.discard.bind fun _ _ => (popArguments_over desc).discard.bind fun _ _ => ?_
  refine Act.Keeps.ite_bind popRef_over.discard ?_
  refine (Act.Keeps.ofExcept (Q := fun _ => True) fun _ _ => trivial).bind fun ws _ => ?_
  obtain ⟨_, w⟩ := ws
  cases w with
  | none => exact Act.Keeps.pure trivial
  | some w =>
    refine (onHeap_over (Heap.constant_over hE hH _ _)).bind fun x hx => ?_
    refine (Act.Keeps.ofExcept fun o ho => ?_).bind fun _ ho => push_over ho
    exact ints_ofExpr ho fun e hw => hx e (congrArg some hw)

/-! ## 7. Stores -/

theorem fieldTarget_over (hH : HeapClosed E H) (receiver : Value) (owner name desc : String) :
    Act.Keeps (Over E H fs) (fieldTarget receiver owner name desc) fun x =>
      ∀ l o, x = some (l, o) → o.Ints E := by
  refine pop_over.bind fun o ho => (fieldWidth_over desc).bind fun w _ => ?_
  refine (Act.Keeps.ensure _ _).bind fun _ _ => popRef_over.bind fun e _ => ?_
  split
  · exact nullAccess_over.bind fun _ _ => Act.Keeps.pure nofun
  · refine (resolve_over hH e receiver).bind fun x _ => ?_
    cases x with
    | null => exact Act.Keeps.fail _
    | object r =>
      refine Act.Keeps.pure fun l o' h => ?_
      cases h
      exact ho

theorem staticTarget_over (owner name desc : String) :
    Act.Keeps (Over E H fs) (staticTarget owner name desc) fun x =>
      ∀ l o, x = some (l, o) → o.Ints E := by
  refine (prepare_over owner).bind fun _ _ => pop_over.bind fun o ho => ?_
  refine (fieldWidth_over desc).bind fun w _ => (Act.Keeps.ensure _ _).bind fun _ _ => ?_
  refine Act.Keeps.pure fun l o' h => ?_
  cases h
  exact ho

theorem elemTarget_over (hH : HeapClosed E H) (w : Width) (a : Option HostArray) (n : Int32) :
    Act.Keeps (Over E H fs) (elemTarget w a n) fun x =>
      ∀ l o, x = some (l, o) → o.Ints E := by
  refine pop_over.bind fun o ho => (Act.Keeps.ensure _ _).bind fun _ _ => ?_
  refine popInt_over.bind fun index _ => popRef_over.bind fun e _ => ?_
  refine (checkAccess_over hH e a index n).bind fun x _ => ?_
  cases x with
  | none => exact Act.Keeps.pure nofun
  | some p =>
    refine Act.Keeps.pure fun l o' h => ?_
    cases h
    exact ho

/-! ## 8. Loads -/

/-- Where a load from a field of `receiver` reads, with the width of the field and what the host
saw there; nothing if it faults. -/
def fieldOrigin (receiver : Value) (owner name desc : String) (v : Value) :
    Act Machine (Option (Location × Option Width × Value)) := do
  let e ← onStack Stack.popRef
  if receiver = .null then
    let _ ← nullAccess
    return none
  else
    match ← resolve e receiver with
    | .null => Act.violated (.unresolved receiver)
    | .object r =>
      let w ← fieldWidth desc
      return some (.field ⟨r.id, owner, name⟩, w, v)

/-- Where a load from a static field reads. -/
def staticOrigin (owner name desc : String) (v : Value) :
    Act Machine (Option (Location × Option Width × Value)) := do
  prepare owner
  let w ← fieldWidth desc
  return some (.field ⟨0, owner, name⟩, w, v)

/-- Where a load from an element reads, with what the host sees there; nothing if it faults. -/
def elemOrigin (w : Width) (a : Option HostArray) (n : Int32) :
    Act Machine (Option (Location × Option Width × Value)) := do
  let index ← onStack Stack.popInt
  let e ← onStack Stack.popRef
  match ← checkAccess e a index n with
  | none => return none
  | some (r, a) =>
    let v ← element a n
    return some (.elem (slot r n), some w, v)

/-- The operand for a location at which the host saw `v`. -/
def loaded (l : Location) (w : Option Width) (v : Value) : Act Machine Operand := do
  let observed ← onHeap (Heap.observe w v ((← get).heap.stored? l))
  match w with
  | some w => Act.ofExcept (Operand.ofExpr w (Heap.current ((← get).heap.stored? l) observed))
  | none => Act.violated (.invalidWidth 0)

/-- Pushes what a load is to read; answers whether the load faulted. -/
def fetch : Option (Location × Option Width × Value) → Act Machine Bool
  | none => return true
  | some (l, w, v) => do
    push (← loaded l w v)
    return false

theorem element_over (a : HostArray) (n : Int32) :
    Act.Keeps (Over E H fs) (element a n) fun _ => True := by
  unfold element
  split
  · exact Act.Keeps.pure trivial
  · exact Act.Keeps.fail _

theorem fieldOrigin_over (hH : HeapClosed E H) (receiver : Value) (owner name desc : String)
    (v : Value) :
    Act.Keeps (Over E H fs) (fieldOrigin receiver owner name desc v) fun _ => True := by
  refine popRef_over.bind fun e _ => ?_
  split
  · exact nullAccess_over.bind fun _ _ => Act.Keeps.pure trivial
  · refine (resolve_over hH e receiver).bind fun x _ => ?_
    cases x with
    | null => exact Act.Keeps.fail _
    | object r => exact (fieldWidth_over desc).bind fun _ _ => Act.Keeps.pure trivial

theorem staticOrigin_over (owner name desc : String) (v : Value) :
    Act.Keeps (Over E H fs) (staticOrigin owner name desc v) fun _ => True :=
  (prepare_over owner).bind fun _ _ => (fieldWidth_over desc).bind fun _ _ =>
    Act.Keeps.pure trivial

theorem elemOrigin_over (hH : HeapClosed E H) (w : Width) (a : Option HostArray) (n : Int32) :
    Act.Keeps (Over E H fs) (elemOrigin w a n) fun _ => True := by
  refine popInt_over.bind fun index _ => popRef_over.bind fun e _ => ?_
  refine (checkAccess_over hH e a index n).bind fun x _ => ?_
  cases x with
  | none => exact Act.Keeps.pure trivial
  | some p => exact (element_over _ n).bind fun _ _ => Act.Keeps.pure trivial

/-- **What is read from a location whose ints satisfy `E` is no int without `E`.** -/
theorem loaded_over (hE : IntClosed E) (hH : HeapClosed E H) (l : Location) (w : Option Width)
    (v : Value) :
    Act.Keeps (Over E H fs) (loaded l w v) fun o =>
      (w = some .bv32 → ∀ h : Heap, H h → ∀ e, h.stored? l = some (.int e) → E e) →
        o.Ints E := by
  refine Act.Keeps.get_bind fun m _ => ?_
  refine (onHeap_over (Heap.observe_over hE hH w v _)).bind fun y hy => ?_
  cases w with
  | none => exact Act.Keeps.fail _
  | some w =>
    refine Act.Keeps.get_bind fun m₁ hm₁ => Act.Keeps.ofExcept fun o ho hl => ?_
    refine ints_ofExpr ho fun e hw he => ?_
    -- what is read is either stored there or observed
    rcases Heap.current_eq (m₁.heap.stored? l) y with hcur | hcur
    · exact hl (congrArg some hw) m₁.heap hm₁.heap e (hcur.trans (congrArg some he))
    · exact hy e (congrArg some hw) (hcur ▸ he)

/-- The condition on the location is needed only if the load does not fault or fail. -/
theorem fetch_over (hE : IntClosed E) (hH : HeapClosed E H)
    {x : Option (Location × Option Width × Value)} {m : Machine} (hm : m.Over E H fs)
    (hx : (fetch x m).1 = .ok false → ∀ l v, x = some (l, some .bv32, v) →
      ∀ h : Heap, H h → ∀ e, h.stored? l = some (.int e) → E e) :
    (fetch x m).2.Over E H fs := by
  cases x with
  | none => exact hm
  | some p =>
    obtain ⟨l, w, v⟩ := p
    obtain ⟨hkeep, hint⟩ := loaded_over hE hH l w v m hm
    rw [fetch, Act.bind_apply] at hx ⊢
    rcases hread : loaded l w v m with ⟨_ | o, m₁⟩
    · rw [hread] at hkeep
      exact hkeep
    · rw [hread] at hkeep hint hx
      dsimp only at hx ⊢
      rw [Act.bind_apply] at hx ⊢
      obtain ⟨frames, prepared, heap, collector, log, classes⟩ := m₁
      cases frames with
      | nil => exact hkeep
      | cons f rest =>
        have ho : o.Ints E := by
          refine hint o rfl fun hw => hx rfl l v ?_
          rw [hw]
        exact (push_over ho _ hkeep).1

end Machine

/-! ## 9. Instructions -/

namespace Instruction

/-- The instruction enters or leaves frames. -/
def movesFrames : Instruction → Bool
  | enter .. | leave | leaveWith .. | throwTo .. => true
  | _ => false

/-- The instruction reads a field or an element. -/
def isLoad : Instruction → Bool
  | getField .. | getStatic .. | arrayLoad .. => true
  | _ => false

/-- Where a load reads; nothing if it faults, or if the instruction is no load. -/
def origin : Instruction → Act Machine (Option (Location × Option Width × Value))
  | getField r o n d v => Machine.fieldOrigin r o n d v
  | getStatic o n d v => Machine.staticOrigin o n d v
  | arrayLoad w a n => Machine.elemOrigin w a n
  | _ => return none

/-- **A load finds its location and then reads it.** -/
theorem exec_load {i : Instruction} (hi : i.isLoad = true) :
    i.exec = i.origin >>= Machine.fetch := by
  cases i with
  | getField r owner name d v =>
    simp only [exec, origin, Machine.getField, Machine.fieldOrigin, bind_assoc]
    refine bind_congr fun e => ?_
    split
    · rw [bind_assoc, Machine.nullAccess, bind_assoc]
      rfl
    · rw [bind_assoc]
      refine bind_congr fun x => ?_
      cases x with
      | null => rfl
      | object r =>
        rw [bind_assoc]
        refine bind_congr fun w => ?_
        cases w <;> rfl
  | getStatic owner name d v =>
    simp only [exec, origin, safely, Machine.getStatic, Machine.staticOrigin, bind_assoc]
    refine bind_congr fun _ => bind_congr fun w => ?_
    cases w <;> rfl
  | arrayLoad w a n =>
    simp only [exec, origin, Machine.arrayLoad, Machine.elemOrigin, bind_assoc]
    refine bind_congr fun index => bind_congr fun e => bind_congr fun x => ?_
    cases x with
    | none => rfl
    | some p =>
      simp only [bind_assoc, pure_bind, Machine.fetch, Machine.loaded]
      rfl
  | _ => cases hi

theorem origin_over (hH : HeapClosed E H) (i : Instruction) :
    Act.Keeps (Machine.Over E H fs) i.origin fun _ => True := by
  cases i with
  | getField r o n d v => exact Machine.fieldOrigin_over hH r o n d v
  | getStatic o n d v => exact Machine.staticOrigin_over o n d v
  | arrayLoad w a n => exact Machine.elemOrigin_over hH w a n
  | _ => exact Act.Keeps.pure trivial

theorem target_over (hH : HeapClosed E H) (i : Instruction) :
    Act.Keeps (Machine.Over E H fs) i.target fun x => ∀ l o, x = some (l, o) → o.Ints E := by
  cases i with
  | putField v o n d => exact Machine.fieldTarget_over hH v o n d
  | putStatic o n d => exact Machine.staticTarget_over o n d
  | arrayStore w a n => exact Machine.elemTarget_over hH w a n
  | _ => exact Act.Keeps.pure nofun

theorem safely_over {a : Act Machine Unit} (ha : Act.Keeps (Machine.Over E H fs) a fun _ => True) :
    Act.Keeps (Machine.Over E H fs) (safely a) fun _ => True :=
  ha.bind fun _ _ => Act.Keeps.pure trivial

open Machine in
/-- **An instruction that is no call, no return, no load and no store keeps the frames below.**  The
length of an array is left to those who know what the host sees. -/
theorem exec_over (hE : IntClosed E) (hH : HeapClosed E H) {i : Instruction}
    (hmove : i.movesFrames = false) (hload : i.isLoad = false) (hstore : i.isStore = false)
    (hlen : ∀ a, i = .arrayLength (some a) → ∀ h r, H h → E (h.arrayLength r (lengthWord a))) :
    Act.Keeps (Over E H fs) i.exec fun _ => True := by
  cases i with
  | pushNull | pushLong | pushFloat | pushDouble => exact safely_over (push_over trivial)
  | pushInt v => exact safely_over (push_over (hE.const v))
  | pushConstant v => exact safely_over (pushConstant_over hE hH v)
  | load w i => exact safely_over (load_over w i)
  | store w i => exact safely_over (store_over w i)
  | increment i d => exact safely_over (increment_over hE i d)
  | intOp op =>
    exact safely_over (popInt_over.bind fun _ hr => popInt_over.bind fun _ hl =>
      push_over (hE.wordOp op hl hr))
  | intShift op =>
    exact safely_over (popInt_over.bind fun _ hr => popInt_over.bind fun _ hl =>
      push_over (hE.shiftOp op hl hr))
  | intDivide op d => exact intDivide_over hE op d
  | intNegate => exact safely_over (popInt_over.bind fun _ he => push_over (hE.negate he))
  | longOp =>
    exact safely_over (popLong_over.bind fun _ _ => popLong_over.bind fun _ _ => push_over trivial)
  | longShift =>
    exact safely_over (popInt_over.bind fun _ _ => popLong_over.bind fun _ _ => push_over trivial)
  | longDivide op d => exact longDivide_over op d
  | longNegate => exact safely_over (popLong_over.bind fun _ _ => push_over trivial)
  | longCompare =>
    exact safely_over (popLong_over.bind fun r _ => popLong_over.bind fun l _ =>
      push_over (hE.threeWay l r))
  | floatOp =>
    exact safely_over (popFloat_over.bind fun _ _ => popFloat_over.bind fun _ _ =>
      push_over trivial)
  | floatNegate => exact safely_over (popFloat_over.bind fun _ _ => push_over trivial)
  | floatCompare =>
    exact safely_over (popFloat_over.bind fun r _ => popFloat_over.bind fun l _ =>
      push_over (hE.threeWayReal l r))
  | doubleOp =>
    exact safely_over (popDouble_over.bind fun _ _ => popDouble_over.bind fun _ _ =>
      push_over trivial)
  | doubleNegate => exact safely_over (popDouble_over.bind fun _ _ => push_over trivial)
  | doubleCompare =>
    exact safely_over (popDouble_over.bind fun r _ => popDouble_over.bind fun l _ =>
      push_over (hE.threeWayReal l r))
  | convert c => exact safely_over (convert_over hE c)
  | shuffle sh => exact safely_over (onStack_over (Stack.shuffle_keeps sh))
  | branchZero => exact safely_over (popInt_over.bind fun _ _ => decideBranch_over _ _)
  | branchCompare =>
    exact safely_over (popInt_over.bind fun _ _ => popInt_over.bind fun _ _ =>
      decideBranch_over _ _)
  | branchNull => exact safely_over popRef_over.discard
  | branchSame => exact safely_over (popRef_over.discard.bind fun _ _ => popRef_over.discard)
  | tableSwitch b low high => exact safely_over (tableSwitch_over b low high)
  | lookupSwitch b keys => exact safely_over (lookupSwitch_over b keys)
  | newObject c => exact safely_over (newObject_over hH c)
  | newArray n c => exact newArray_over hH n c
  | newMultiArray t dims => exact newMultiArray_over hH t dims
  | arrayLength a =>
    exact arrayLength_over hH fun a' ha => hlen a' (congrArg Instruction.arrayLength ha)
  | checkCast t => exact safely_over (checkCast_over t)
  | instanceOf v t => exact safely_over (instanceOf_over hE v t)
  | monitor v => exact monitor_over v
  | callUnwatched d static v => exact safely_over (callUnwatched_over hE hH d static v)
  | arrayLoad | getField | getStatic => cases hload
  | arrayStore | putField | putStatic => cases hstore
  | enter | leave | leaveWith | throwTo => cases hmove

/-- **Only calls and returns touch a frame below the top one.** -/
theorem exec_top {i : Instruction} (hmove : i.movesFrames = false) {m : Machine} {f : Frame}
    {rest : List Frame} (hm : m.frames = f :: rest) : ∃ g, (i.exec m).2.frames = g :: rest := by
  have hE := intClosed_true
  have hH := heapClosed_true fun _ => True
  have hover := Machine.over_true m
  have hafter : (i.exec m).2.Over (fun _ => True) (fun _ => True) m.frames := by
    cases hstore : i.isStore with
    | true =>
      have htarget := (target_over hH i m hover).1
      rcases exec_store_cases hstore m with ⟨-, heq⟩ | ⟨l, o, m₁, hfound, hexec⟩
      · rw [heq]
        exact htarget
      · rw [hfound] at htarget
        rw [hexec]
        exact ⟨trivial, htarget.below, htarget.length, htarget.top⟩
    | false =>
      cases hload : i.isLoad with
      | true =>
        have horigin := (origin_over hH i m hover).1
        rw [exec_load hload, Act.bind_apply]
        rcases hfound : i.origin m with ⟨_ | x, m₁⟩
        · rw [hfound] at horigin
          exact horigin
        · rw [hfound] at horigin
          exact Machine.fetch_over hE hH horigin fun _ _ _ _ _ _ _ _ => trivial
      | false => exact (exec_over hE hH hmove hload hstore (fun _ _ _ _ _ => trivial) m hover).1
  exact hafter.cons hm

end Instruction

/-! ## 10. All frames -/

namespace Machine

/-- The ints of all frames satisfy `E` and the heap `H`. -/
structure Fits (E : IntExpr → Prop) (H : Heap → Prop) (m : Machine) : Prop where
  heap : H m.heap
  frames : ∀ f ∈ m.frames, f.Each (Operand.Ints E)

theorem Fits.over {m : Machine} (hm : m.Fits E H) : m.Over E H m.frames :=
  ⟨hm.heap, rfl, rfl, fun f hf => hm.frames f (List.mem_of_mem_head? hf)⟩

theorem Over.fits {m : Machine} (hm : m.Over E H fs) (hfs : ∀ f ∈ fs, f.Each (Operand.Ints E)) :
    m.Fits E H := by
  refine ⟨hm.heap, fun f hf => ?_⟩
  have hbelow := hm.below
  have htop := hm.top
  cases hframes : m.frames with
  | nil =>
    rw [hframes] at hf
    exact absurd hf List.not_mem_nil
  | cons g rest =>
    rw [hframes] at hf hbelow htop
    rcases List.mem_cons.mp hf with rfl | hrest
    · exact htop f rfl
    · exact hfs f (List.mem_of_mem_tail (hbelow ▸ hrest))

/-- What is kept whatever the frames are below is kept of all frames. -/
theorem fits_of_over {a : Act Machine α} {Q : α → Prop}
    (ha : ∀ fs, Act.Keeps (Over E H fs) a Q) : Act.Keeps (Fits E H) a Q :=
  fun m hm => ⟨(ha _ m hm.over).1.fits hm.frames, (ha _ m hm.over).2⟩

theorem pushFrame_fits {f : Frame} (hf : f.Each (Operand.Ints E)) :
    Act.Keeps (Fits E H) (pushFrame f) fun _ => True := by
  refine Act.Keeps.bind (Q := fun _ => True) (Act.Keeps.modify fun m hm => ?_) fun _ _ =>
    fits_of_over fun _ => tell_over _
  exact ⟨hm.heap, List.forall_mem_cons.mpr ⟨hf, hm.frames⟩⟩

theorem popFrame_fits : Act.Keeps (Fits E H) popFrame (Frame.Each (Operand.Ints E)) := by
  refine Act.Keeps.get_bind fun m hm => ?_
  split
  · exact Act.Keeps.fail _
  next f rest hframes =>
    obtain ⟨hf, hrest⟩ := List.forall_mem_cons.mp (hframes ▸ hm.frames)
    refine Act.Keeps.bind (Q := fun _ => True) (Act.Keeps.modify fun m' hm' => ?_) fun _ _ => ?_
    · exact ⟨hm'.heap, hrest⟩
    · exact (fits_of_over fun _ => tell_over _).bind fun _ _ => Act.Keeps.pure hf

theorem enter_fits (method : MethodRef) (static : Bool) (size : Int) :
    Act.Keeps (Fits E H) (enter method static size) fun _ => True := by
  rw [enter_eq]
  exact (fits_of_over fun _ => handOver_over method static size).bind fun _ hf => pushFrame_fits hf

theorem leaveWith_fits (w : Width) : Act.Keeps (Fits E H) (leaveWith w) fun _ => True := by
  refine popFrame_fits.bind fun f hf => ?_
  split
  · exact Act.Keeps.fail _
  next o s hs =>
    refine (Act.Keeps.ensure _ _).bind fun _ _ => fits_of_over fun _ => push_over ?_
    refine hf.stack o ?_
    rw [hs]
    exact List.mem_cons_self

theorem unwind_fits (n fuel : Nat) : Act.Keeps (Fits E H) (unwind n fuel) fun _ => True := by
  induction fuel with
  | zero => exact Act.Keeps.pure trivial
  | succ fuel ih =>
    refine Act.Keeps.get_bind fun m _ => ?_
    split
    · exact popFrame_fits.discard.bind fun _ _ => ih
    · exact Act.Keeps.pure trivial

theorem throwTo_fits (hH : HeapClosed E H) (depth : Int) (exception : Value) :
    Act.Keeps (Fits E H) (throwTo depth exception) fun _ => True := by
  refine Act.Keeps.get_bind fun m _ => (Act.Keeps.ensure _ _).bind fun _ _ => ?_
  refine (unwind_fits _ _).bind fun _ _ => ?_
  refine (fits_of_over fun _ => onStack_over Stack.clear_keeps).bind fun _ _ => ?_
  exact fits_of_over fun _ => pushReference_over hH exception

end Machine

namespace Instruction

open Machine in
/-- **An instruction that is no load and no store keeps what is said of ints and heap.** -/
theorem exec_fits (hE : IntClosed E) (hH : HeapClosed E H) {i : Instruction}
    (hload : i.isLoad = false) (hstore : i.isStore = false)
    (hlen : ∀ a, i = .arrayLength (some a) → ∀ h r, H h → E (h.arrayLength r (lengthWord a))) :
    Act.Keeps (Fits E H) i.exec fun _ => True := by
  have hsafely : ∀ {a : Act Machine Unit}, Act.Keeps (Fits E H) a (fun _ => True) →
      Act.Keeps (Fits E H) (safely a) fun _ => True :=
    fun ha => ha.bind fun _ _ => Act.Keeps.pure trivial
  cases hmove : i.movesFrames with
  | false => exact fits_of_over fun _ => exec_over hE hH hmove hload hstore hlen
  | true =>
    cases i with
    | enter method static size => exact hsafely (enter_fits method static size)
    | leave => exact hsafely popFrame_fits.discard
    | leaveWith w => exact hsafely (leaveWith_fits w)
    | throwTo d v => exact hsafely (throwTo_fits hH d v)
    | _ => cases hmove

end Instruction

end Concolic
