import Concolic.Proofs.Growth
import Concolic.Proofs.Stated

/-
# The references in a machine

References stand on the stacks, in the locals and in the heap, and they move between them.  The
machine is sound if the heap is and all of them were handed out.  Every instruction keeps that, and
the heap only grows (`Instruction.exec_grows`).  Stores are left out here, since they also change
what is in the heap.
-/
namespace Concolic

/-! ## 1. Sound machines -/

def Operand.Issued (h : Heap) (o : Operand) : Prop := o.expr.Issued h

structure Frame.Each (P : Operand → Prop) (f : Frame) : Prop where
  stack : f.stack.Each P
  locals : f.locals.Each P

theorem Frame.Each.mono {P Q : Operand → Prop} {f : Frame} (hf : f.Each P) (h : ∀ o, P o → Q o) :
    f.Each Q :=
  ⟨fun o ho => h o (hf.stack o ho), fun o ho => h o (hf.locals o ho)⟩

theorem Heap.Extends.issued_operand {h h' : Heap} {o : Operand} (hext : Extends h h')
    (ho : o.Issued h) : o.Issued h' :=
  hext.issued_expr ho

theorem Operand.issued_ofExpr {h : Heap} {w : Width} {x : Expr} {o : Operand} (hx : x.Issued h)
    (ho : ofExpr w x = .ok o) : o.Issued h := by
  unfold ofExpr at ho
  split at ho <;> cases ho <;> exact hx

namespace Machine

/-- All references in the machine were handed out. -/
structure Sound (m : Machine) : Prop where
  heap : m.heap.Sound
  frames : ∀ f ∈ m.frames, f.Each (Operand.Issued m.heap)

/-- The heap grows, and classes stay prepared. -/
instance : Preorder Machine where
  le m m' := m.heap ≤ m'.heap ∧ m.prepared ⊆ m'.prepared
  le_refl m := ⟨le_refl m.heap, List.Subset.refl _⟩
  le_trans _ _ _ h₁ h₂ := ⟨le_trans h₁.1 h₂.1, List.Subset.trans h₁.2 h₂.2⟩

theorem le_of_heap_eq {m m' : Machine} (hheap : m'.heap = m.heap)
    (hprepared : m.prepared ⊆ m'.prepared) : m ≤ m' :=
  ⟨hheap ▸ le_refl m.heap, hprepared⟩

variable {m₀ : Machine}

/-! ## 2. Parts -/

theorem onTop_grows {a : Act Frame α} {Q : Heap → α → Prop}
    (ha : ∀ h, m₀.heap ≤ h → Act.Keeps (Frame.Each (Operand.Issued h)) a (Q h)) :
    Act.Grows Sound m₀ (onTop a) fun m x => Q m.heap x := by
  intro m hm hle
  obtain ⟨frames, prepared, heap, collector, log, classes⟩ := m
  cases frames with
  | nil => exact ⟨hm, le_refl _, fun x hx => by cases hx⟩
  | cons f rest =>
    obtain ⟨hf, hrest⟩ := List.forall_mem_cons.mp hm.frames
    obtain ⟨hkeep, hQ⟩ := ha heap hle.1 f hf
    exact ⟨⟨hm.heap, List.forall_mem_cons.mpr ⟨hkeep, hrest⟩⟩,
      le_of_heap_eq rfl (List.Subset.refl _), hQ⟩

theorem onStack_grows {a : Act Stack α} {Q : Heap → α → Prop}
    (ha : ∀ h, m₀.heap ≤ h → Act.Keeps (Stack.Each (Operand.Issued h)) a (Q h)) :
    Act.Grows Sound m₀ (onStack a) fun m x => Q m.heap x :=
  onTop_grows fun h hle f hf =>
    ⟨⟨(ha h hle f.stack hf.stack).1, hf.locals⟩, (ha h hle f.stack hf.stack).2⟩

theorem onLocals_grows {a : Act Locals α} {Q : Heap → α → Prop}
    (ha : ∀ h, m₀.heap ≤ h → Act.Keeps (Locals.Each (Operand.Issued h)) a (Q h)) :
    Act.Grows Sound m₀ (onLocals a) fun m x => Q m.heap x :=
  onTop_grows fun h hle f hf =>
    ⟨⟨hf.stack, (ha h hle f.locals hf.locals).1⟩, (ha h hle f.locals hf.locals).2⟩

theorem onHeap_grows {a : Act Heap α} {Q : Heap → α → Prop}
    (ha : Act.Grows Heap.Sound m₀.heap a Q) :
    Act.Grows Sound m₀ (onHeap a) fun m x => Q m.heap x := by
  intro m hm hle
  obtain ⟨hs, hgrow, hQ⟩ := ha m.heap hm.heap hle.1
  refine ⟨⟨hs, fun f hf => ?_⟩, ⟨hgrow, List.Subset.refl _⟩, hQ⟩
  exact (hm.frames f hf).mono fun o ho => hgrow.issued_operand ho

/-- A change that leaves frames and heap alone. -/
theorem modify_grows {f : Machine → Machine} (hframes : ∀ m, (f m).frames = m.frames)
    (hheap : ∀ m, (f m).heap = m.heap) (hprepared : ∀ m, m.prepared ⊆ (f m).prepared) :
    Act.Grows Sound m₀ (modify f : Act Machine PUnit) fun _ _ => True := by
  refine Act.Grows.modify fun m hm _ => ⟨⟨?_, ?_⟩, le_of_heap_eq (hheap m) (hprepared m)⟩
  · rw [hheap]
    exact hm.heap
  · rw [hheap, hframes]
    exact hm.frames

theorem tell_grows (e : Event) : Act.Grows Sound m₀ (tell e) fun _ _ => True :=
  modify_grows (fun _ => rfl) (fun _ => rfl) fun _ => List.Subset.refl _

theorem topFrame_grows :
    Act.Grows Sound m₀ topFrame fun m f => f.Each (Operand.Issued m.heap) := by
  refine Act.Grows.get_bind fun m hm _ => ?_
  have hframes := hm.frames
  cases hf : m.frames with
  | nil => exact Act.Grows.fail _
  | cons f rest =>
    rw [hf] at hframes
    refine Act.Grows.pure fun m' hle => ?_
    exact (hframes f List.mem_cons_self).mono fun o ho => hle.1.issued_operand ho

theorem fault_grows (x : Fault) : Act.Grows Sound m₀ (fault x) fun _ _ => True :=
  topFrame_grows.andThen fun _ _ _ => tell_grows _

theorem pushFrame_grows {f : Frame} (hf : f.Each (Operand.Issued m₀.heap)) :
    Act.Grows Sound m₀ (pushFrame f) fun _ _ => True := by
  refine Act.Grows.andThen (Q := fun _ _ => True) ?_ fun _ _ _ => tell_grows _
  refine Act.Grows.modify fun m hm hle =>
    ⟨⟨hm.heap, ?_⟩, le_of_heap_eq rfl (List.Subset.refl _)⟩
  exact List.forall_mem_cons.mpr ⟨hf.mono fun o ho => hle.1.issued_operand ho, hm.frames⟩

theorem popFrame_grows :
    Act.Grows Sound m₀ popFrame fun m f => f.Each (Operand.Issued m.heap) := by
  refine Act.Grows.get_bind fun m hm _ => ?_
  have hframes := hm.frames
  cases hf : m.frames with
  | nil => exact Act.Grows.fail _
  | cons f rest =>
    rw [hf] at hframes
    refine Act.Grows.andThen (Q := fun _ _ => True) ?_ fun m₁ _ hle₁ =>
      (tell_grows _).andThen fun m₂ _ hle₂ => Act.Grows.pure fun m₃ hle₃ => ?_
    · refine Act.Grows.modify fun m' hm' hle =>
        ⟨⟨hm'.heap, fun f' hf' => ?_⟩, le_of_heap_eq rfl (List.Subset.refl _)⟩
      exact (hframes f' (List.mem_cons_of_mem f hf')).mono fun o ho => hle.1.issued_operand ho
    · refine (hframes f List.mem_cons_self).mono fun o ho => ?_
      exact (le_trans hle₁ (le_trans hle₂ hle₃)).1.issued_operand ho

theorem report_grows (rep : Report) : Act.Grows Sound m₀ (report rep) fun _ _ => True := by
  refine Act.Grows.get_bind fun m _ _ => ?_
  split
  · exact Act.Grows.fail _
  · refine Act.Grows.andThen (Q := fun _ _ => True) ?_ fun _ _ _ => ?_
    · exact modify_grows (fun _ => rfl) (fun _ => rfl) fun _ => List.Subset.refl _
    · split
      · exact tell_grows _
      · exact Act.Grows.pure fun _ _ => trivial

theorem support_grows (d : Constraint) : Act.Grows Sound m₀ (support d) fun _ _ => True := by
  unfold support
  split
  · exact report_grows _
  · exact Act.Grows.pure fun _ _ => trivial

theorem decideAccess_grows (d : Constraint) (negated : Bool) :
    Act.Grows Sound m₀ (decideAccess d negated) fun _ _ => True := by
  unfold decideAccess
  split
  · exact topFrame_grows.andThen fun _ _ _ => report_grows _
  · exact Act.Grows.pure fun _ _ => trivial

theorem decideBranch_grows (d : Constraint) (branch : Int) :
    Act.Grows Sound m₀ (decideBranch d branch) fun _ _ => True := by
  unfold decideBranch
  split
  · exact topFrame_grows.andThen fun _ _ _ => report_grows _
  · exact Act.Grows.pure fun _ _ => trivial

/-! ## 3. Operands -/

theorem push_grows {o : Operand} (ho : o.Issued m₀.heap) :
    Act.Grows Sound m₀ (push o) fun _ _ => True :=
  onStack_grows fun _ hle => Stack.push_keeps (hle.issued_operand ho)

theorem pushAnswer_grows {o : Operand} (ho : o.Issued m₀.heap) {x : α} :
    Act.Grows Sound m₀ (do push o; return x) fun _ _ => True :=
  (push_grows ho).andThen fun _ _ _ => Act.Grows.pure fun _ _ => trivial

theorem pop_grows : Act.Grows Sound m₀ (onStack Stack.pop) fun m o => o.Issued m.heap :=
  onStack_grows fun _ _ => Stack.pop_keeps

theorem popInt_grows : Act.Grows Sound m₀ (onStack Stack.popInt) fun _ _ => True :=
  onStack_grows fun _ _ => Stack.popInt_keeps

theorem popLong_grows : Act.Grows Sound m₀ (onStack Stack.popLong) fun _ _ => True :=
  onStack_grows fun _ _ => Stack.popLong_keeps

theorem popFloat_grows : Act.Grows Sound m₀ (onStack Stack.popFloat) fun _ _ => True :=
  onStack_grows fun _ _ => Stack.popFloat_keeps

theorem popDouble_grows : Act.Grows Sound m₀ (onStack Stack.popDouble) fun _ _ => True :=
  onStack_grows fun _ _ => Stack.popDouble_keeps

theorem popRef_grows : Act.Grows Sound m₀ (onStack Stack.popRef) fun m e => e.Issued m.heap :=
  onStack_grows fun _ _ => Stack.popRef_keeps

/-- Numbers on the stack are replaced by a number. -/
theorem numeric_grows {a : Act Machine α} {Q : Machine → α → Prop} {f : α → Operand}
    (ha : Act.Grows Sound m₀ a Q) (hf : ∀ x h, (f x).Issued h) :
    Act.Grows Sound m₀ (a >>= fun x => push (f x)) fun _ _ => True :=
  ha.andThen fun _ x _ => push_grows (hf x _)

theorem pushConstant_grows (v : Value) :
    Act.Grows Sound m₀ (pushConstant v) fun _ _ => True := by
  cases v with
  | int v => exact push_grows trivial
  | long v => exact push_grows trivial
  | float v => exact push_grows trivial
  | double v => exact push_grows trivial
  | text bs =>
    refine topFrame_grows.discard.andThen fun m _ _ => ?_
    exact (onHeap_grows (Heap.reference_grows _ _)).bind fun _ _ _ _ he => push_grows he
  | _ => exact Act.Grows.fail _

theorem load_grows (w : Width) (i : Int) : Act.Grows Sound m₀ (load w i) fun _ _ => True := by
  refine (onLocals_grows fun _ _ => Locals.read_keeps i).bind fun m o _ _ ho => ?_
  exact (Act.Grows.ensure _ _).bind fun m' _ _ hle _ => push_grows (hle.1.issued_operand ho)

theorem store_grows (w : Width) (i : Int) : Act.Grows Sound m₀ (store w i) fun _ _ => True := by
  refine pop_grows.bind fun m o _ _ ho => (Act.Grows.ensure _ _).bind fun m' _ _ hle _ => ?_
  exact onLocals_grows fun _ hle' =>
    Locals.write_keeps i (hle'.issued_operand (hle.1.issued_operand ho))

theorem increment_grows (i : Int) (d : Int32) :
    Act.Grows Sound m₀ (increment i d) fun _ _ => True :=
  onLocals_grows fun _ _ => (Locals.readInt_keeps i).bind fun _ _ =>
    Locals.write_keeps i (o := .bv32 _) trivial

theorem convert_grows (c : Conversion) : Act.Grows Sound m₀ (convert c) fun _ _ => True := by
  cases c with
  | intToLong | intToFloat | intToDouble =>
    exact numeric_grows popInt_grows fun _ _ => trivial
  | longToInt | longToFloat | longToDouble =>
    exact numeric_grows popLong_grows fun _ _ => trivial
  | floatToInt | floatToLong | floatToDouble =>
    exact numeric_grows popFloat_grows fun _ _ => trivial
  | doubleToInt | doubleToLong | doubleToFloat =>
    exact numeric_grows popDouble_grows fun _ _ => trivial
  | intToSmall =>
    refine (onStack_grows fun _ _ => Stack.peek_keeps 0).andThen fun _ _ _ => ?_
    exact (Act.Grows.ensure _ _).imp fun _ _ _ _ _ => trivial

/-! ## 4. Tests and branches -/

/-- A fault is told if there is one. -/
theorem faultIf_grows (p : Prop) [Decidable p] (x : Fault) (b : Bool) :
    Act.Grows Sound m₀ (do
      if p then fault x
      return b) fun _ _ => True :=
  Act.Grows.ite_bind (fault_grows x) fun _ _ => Act.Grows.pure fun _ _ => trivial

theorem zeroDivisor_grows (e : IntExpr) (isZero : Bool) :
    Act.Grows Sound m₀ (zeroDivisor e isZero) fun _ _ => True :=
  (support_grows _).andThen fun _ _ _ => faultIf_grows _ _ _

theorem negativeLength_grows (e : IntExpr) (n : Int32) :
    Act.Grows Sound m₀ (negativeLength e n) fun _ _ => True :=
  (support_grows _).andThen fun _ _ _ => faultIf_grows _ _ _

theorem negativeIndex_grows (e : IntExpr) (n : Int32) :
    Act.Grows Sound m₀ (negativeIndex e n) fun _ _ => True :=
  (decideAccess_grows _ _).andThen fun _ _ _ => faultIf_grows _ _ _

theorem indexTooBig_grows (e : IntExpr) (n : Int32) (length : IntExpr) :
    Act.Grows Sound m₀ (indexTooBig e n length) fun _ _ => True :=
  (decideAccess_grows _ _).andThen fun _ _ _ => faultIf_grows _ _ _

/-- What follows a test that finds no fault. -/
theorem unless_grows {m₀ : Machine} {a : Act Machine Bool} {b : Act Machine α} {x : α}
    {Q : Machine → α → Prop} (ha : Act.Grows Sound m₀ a fun _ _ => True)
    (hx : ∀ m, m₀ ≤ m → Q m x) (hb : ∀ m, m₀ ≤ m → Act.Grows Sound m b Q) :
    Act.Grows Sound m₀ (do
      if ← a then return x
      b) Q := by
  refine ha.andThen fun m faulted hle => ?_
  cases faulted with
  | true => exact Act.Grows.pure fun m' hle' => hx m' (le_trans hle hle')
  | false => exact hb m hle

theorem intDivide_grows (op : DivOp) (d : Int32) :
    Act.Grows Sound m₀ (intDivide op d) fun _ _ => True :=
  popInt_grows.andThen fun _ _ _ => popInt_grows.andThen fun _ _ _ =>
    unless_grows (zeroDivisor_grows _ _) (fun _ _ => trivial) fun _ _ =>
      pushAnswer_grows (o := .bv32 _) trivial

theorem longDivide_grows (op : DivOp) (d : Int64) :
    Act.Grows Sound m₀ (longDivide op d) fun _ _ => True :=
  popLong_grows.andThen fun _ _ _ => popLong_grows.andThen fun _ _ _ =>
    unless_grows (zeroDivisor_grows _ _) (fun _ _ => trivial) fun _ _ =>
      pushAnswer_grows (o := .bv64 _) trivial

theorem tableSwitch_grows (branch : Int) (low high : Int32) :
    Act.Grows Sound m₀ (tableSwitch branch low high) fun _ _ => True := by
  refine popInt_grows.andThen fun _ _ _ => ?_
  split
  · exact decideBranch_grows _ _
  · split
    · exact decideBranch_grows _ _
    · exact decideBranch_grows _ _

theorem excludeKeys_grows (branch : Int) (e : IntExpr) (keys : List Int32) :
    Act.Grows Sound m₀ (excludeKeys branch e keys) fun _ _ => True := by
  induction keys generalizing m₀ with
  | nil => exact Act.Grows.pure fun _ _ => trivial
  | cons k ks ih => exact (decideBranch_grows _ _).andThen fun _ _ _ => ih

theorem lookupSwitch_grows (branch : Int) (keys : List Int32) :
    Act.Grows Sound m₀ (lookupSwitch branch keys) fun _ _ => True := by
  refine popInt_grows.andThen fun _ _ _ => ?_
  split
  · exact decideBranch_grows _ _
  · exact excludeKeys_grows _ _ _

/-! ## 5. Objects, arrays and fields -/

/-- The action adds to the prepared classes, and `name` is among them if it does not fail.  Nothing
else changes but the log. -/
def Prepares (name : String) (m : Machine) (a : Act Machine Unit) : Prop :=
  ∃ names log, (a m).2 = { m with prepared := m.prepared ++ names, log := log } ∧
    ((a m).1 = .ok () → name ∈ m.prepared ++ names)

theorem Prepares.fail {name : String} {m : Machine} (e : Failure) :
    Prepares name m (Act.fail e) := by
  refine ⟨[], m.log, ?_, nofun⟩
  rw [List.append_nil]
  rfl

theorem Prepares.andThen {name super : String} {m : Machine} {a b : Act Machine Unit}
    (ha : Prepares super m a) (hb : ∀ m', Prepares name m' b) :
    Prepares name m (a >>= fun _ => b) := by
  obtain ⟨names, log, hleft, -⟩ := ha
  rw [Prepares, Act.bind_apply]
  rcases hrun : a m with ⟨_ | _, m'⟩
  · rw [hrun] at hleft
    exact ⟨names, log, hleft, nofun⟩
  · rw [hrun] at hleft
    obtain ⟨names', log', hleft', hname⟩ := hb m'
    subst hleft
    rw [List.append_assoc] at hleft' hname
    exact ⟨names ++ names', log', hleft', hname⟩

theorem prepareWithin_prepares (fuel : Nat) (name : String) (m : Machine) :
    Prepares name m (prepareWithin fuel name) := by
  induction fuel generalizing m name with
  | zero => exact Prepares.fail _
  | succ fuel ih =>
    have hmark : ∀ m, Prepares name m (do
        modify fun m : Machine => { m with prepared := m.prepared ++ [name] }
        tell (.prepare name)) := fun m => ⟨[name], _, rfl, fun _ => by simp⟩
    rw [prepareWithin, Prepares, Act.get_bind_apply, ← Prepares]
    split
    next hmem =>
      refine ⟨[], m.log, ?_, fun _ => ?_⟩
      · rw [List.append_nil]
        rfl
      · exact List.mem_append_left _ (List.contains_iff_mem.mp hmem)
    · dsimp only
      split
      · split
        · exact Prepares.fail _
        · split
          · exact Prepares.fail _
          · split
            · exact (ih _ m).andThen hmark
            · exact hmark m
      · exact hmark m

theorem prepare_prepares (name : String) (m : Machine) : Prepares name m (prepare name) :=
  prepareWithin_prepares _ name m

theorem prepare_grows (name : String) :
    Act.Grows Sound m₀ (prepare name) fun m _ => name ∈ m.prepared := by
  intro m hm _
  obtain ⟨names, log, hleft, hname⟩ := prepare_prepares name m
  rw [hleft]
  exact ⟨⟨hm.heap, hm.frames⟩, le_of_heap_eq rfl (List.subset_append_left _ _),
    fun _ hok => hname hok⟩

theorem nullAccess_grows : Act.Grows Sound m₀ nullAccess fun _ _ => True :=
  (fault_grows _).andThen fun _ _ _ => Act.Grows.pure fun _ _ => trivial

theorem newObject_grows (className : String) :
    Act.Grows Sound m₀ (newObject className) fun _ _ => True := by
  refine (prepare_grows className).andThen fun _ _ _ => ?_
  refine topFrame_grows.discard.andThen fun m _ _ => ?_
  exact (onHeap_grows (Heap.new_grows _ _)).bind fun _ _ _ _ hr => push_grows hr

/-- A reference to a new array is pushed. -/
theorem pushArray_grows (type : String) (length : IntExpr) :
    Act.Grows Sound m₀ (do
      push (.ref (.object (← onHeap (Heap.newArray type length))))
      return false) fun _ _ => True :=
  (onHeap_grows (Heap.newArray_grows _ _ _)).bind fun _ r _ _ hr =>
    pushAnswer_grows (o := .ref (.object r)) hr

theorem newArray_grows (n : Int32) (component : String) :
    Act.Grows Sound m₀ (newArray n component) fun _ _ => True := by
  unfold newArray
  split
  · exact Act.Grows.fail _
  · exact popInt_grows.andThen fun _ _ _ =>
      unless_grows (negativeLength_grows _ _) (fun _ _ => trivial) fun _ _ => pushArray_grows _ _

theorem anyNegative_grows (ls : List (IntExpr × Int32)) :
    Act.Grows Sound m₀ (anyNegative ls) fun _ _ => True := by
  induction ls generalizing m₀ with
  | nil => exact Act.Grows.pure fun _ _ => trivial
  | cons p ls ih =>
    exact unless_grows (negativeLength_grows _ _) (fun _ _ => trivial) fun _ _ => ih

theorem newMultiArray_grows (type : String) (dims : List Int32) :
    Act.Grows Sound m₀ (newMultiArray type dims) fun _ _ => True := by
  refine (Act.Grows.ensure _ _).andThen fun _ _ _ => ?_
  refine (onStack_grows fun _ _ => popLengths_keeps dims.length).andThen fun _ lengths _ => ?_
  refine unless_grows (anyNegative_grows _) (fun _ _ => trivial) fun _ _ => ?_
  cases lengths with
  | nil => exact Act.Grows.fail _
  | cons outer rest => exact pushArray_grows _ _

theorem resolve_grows {e : RefExpr} (he : e.Issued m₀.heap) (v : Value) :
    Act.Grows Sound m₀ (resolve e v) fun m e' => ∀ r, e' = .object r → m.heap.Stands r v := by
  refine onHeap_grows (Q := fun h e' => ∀ r, e' = RefExpr.object r → h.Stands r v)
    fun h hs hle => ?_
  obtain ⟨hs', hgrow, -⟩ := Heap.resolve_grows he v h hs hle
  exact ⟨hs', hgrow, fun e' he' r hr => Heap.stands_of_resolve (hr ▸ he')⟩

theorem resolveArray_grows {e : RefExpr} (he : e.Issued m₀.heap) (a : HostArray) :
    Act.Grows Sound m₀ (resolveArray e a) fun m r =>
      m.heap.Stands r a.toValue ∧ r.isArray = true := by
  refine (resolve_grows he _).bind fun m x _ _ hx => ?_
  cases x with
  | null => exact Act.Grows.fail _
  | object r =>
    refine (Act.Grows.ensure _ _).bind fun m₁ _ _ hle₁ hr => Act.Grows.pure fun m₂ hle₂ => ?_
    exact ⟨(le_trans hle₁ hle₂).1.stands (hx r rfl), hr⟩

theorem arrayLength_grows (a : Option HostArray) :
    Act.Grows Sound m₀ (arrayLength a) fun _ _ => True := by
  refine popRef_grows.bind fun m e _ _ he => ?_
  cases a with
  | none => exact nullAccess_grows
  | some a =>
    refine (resolveArray_grows he a).andThen fun _ r _ => Act.Grows.get_bind fun _ _ _ => ?_
    exact pushAnswer_grows (o := .bv32 _) trivial

theorem checkAccess_grows {e : RefExpr} (he : e.Issued m₀.heap) (a : Option HostArray)
    (index : IntExpr) (n : Int32) :
    Act.Grows Sound m₀ (checkAccess e a index n) fun m x => ∀ r a', x = some (r, a') →
      a = some a' ∧ m.heap.Stands r a'.toValue ∧ r.isArray = true := by
  cases a with
  | none =>
    exact nullAccess_grows.discard.andThen fun _ _ _ => Act.Grows.pure fun _ _ _ _ h => by cases h
  | some a =>
    refine unless_grows (negativeIndex_grows _ _) (fun _ _ _ _ h => by cases h) fun _ hle => ?_
    refine (resolveArray_grows (hle.1.issued_ref he) a).bind fun m r _ _ hr => ?_
    refine Act.Grows.get_bind fun m₁ _ hle₁ => ?_
    refine unless_grows (indexTooBig_grows _ _ _) (fun _ _ _ _ h => by cases h) fun m₂ hle₂ => ?_
    refine Act.Grows.pure fun m₃ hle₃ r' a' h => ?_
    cases h
    exact ⟨rfl, (le_trans hle₁ (le_trans hle₂ hle₃)).1.stands hr.1, hr.2⟩

theorem arrayLoad_grows (w : Width) (a : Option HostArray) (n : Int32) :
    Act.Grows Sound m₀ (arrayLoad w a n) fun _ _ => True := by
  refine popInt_grows.andThen fun _ index _ => popRef_grows.bind fun m e _ _ he => ?_
  refine (checkAccess_grows he a index n).andThen fun _ x _ => ?_
  cases x with
  | none => exact Act.Grows.pure fun _ _ => trivial
  | some p =>
    obtain ⟨r, a⟩ := p
    refine Act.Grows.andThen (Q := fun _ _ => True) ?_ fun _ v _ => ?_
    · unfold element
      split
      · exact Act.Grows.pure fun _ _ => trivial
      · exact Act.Grows.fail _
    refine Act.Grows.get_bind fun m hm _ => ?_
    refine (onHeap_grows (Heap.observe_grows _ _ fun x hx => hm.heap.elem?_issued hx)).bind
      fun m₁ observed _ _ hobserved => Act.Grows.get_bind fun m₂ hm₂ hle₂ => ?_
    refine (Act.Grows.ofExcept fun o ho m₃ hle₃ => ?_).bind fun _ _ _ _ ho => pushAnswer_grows ho
    refine hle₃.1.issued_operand
      (Operand.issued_ofExpr (Heap.current_issued (fun x hx => ?_) ?_) ho)
    · exact hm₂.heap.elem?_issued hx
    · exact hle₂.1.issued_expr hobserved

theorem fieldOperand_grows (k : FieldKey) (w : Option Width) (v : Value) :
    Act.Grows Sound m₀ (fieldOperand k w v) fun m o => o.Issued m.heap := by
  refine Act.Grows.get_bind fun m hm _ => ?_
  refine (onHeap_grows (Heap.observe_grows _ _ fun x hx => hm.heap.field?_issued hx)).bind
    fun m₁ observed _ _ hobserved => ?_
  cases w with
  | none => exact Act.Grows.fail _
  | some w =>
    refine Act.Grows.get_bind fun m₂ hm₂ hle₂ => Act.Grows.ofExcept fun o ho m₃ hle₃ => ?_
    refine hle₃.1.issued_operand
      (Operand.issued_ofExpr (Heap.current_issued (fun x hx => ?_) ?_) ho)
    · exact hm₂.heap.field?_issued hx
    · exact hle₂.1.issued_expr hobserved

theorem fieldWidth_grows (desc : String) :
    Act.Grows Sound m₀ (fieldWidth desc) fun _ _ => True :=
  Act.Grows.ofExcept fun _ _ _ _ => trivial

theorem getField_grows (receiver : Value) (owner name desc : String) (v : Value) :
    Act.Grows Sound m₀ (getField receiver owner name desc v) fun _ _ => True := by
  refine popRef_grows.bind fun m e _ _ he => ?_
  split
  · exact nullAccess_grows
  · refine (resolve_grows he receiver).andThen fun _ x _ => ?_
    cases x with
    | null => exact Act.Grows.fail _
    | object r =>
      refine (fieldWidth_grows desc).andThen fun _ w _ => ?_
      exact (fieldOperand_grows _ w v).bind fun _ _ _ _ ho => pushAnswer_grows ho

theorem getStatic_grows (owner name desc : String) (v : Value) :
    Act.Grows Sound m₀ (getStatic owner name desc v) fun _ _ => True :=
  (prepare_grows owner).andThen fun _ _ _ => (fieldWidth_grows desc).andThen fun _ w _ =>
    (fieldOperand_grows _ w v).bind fun _ _ _ _ ho => push_grows ho

theorem checkCast_grows (type : String) :
    Act.Grows Sound m₀ (checkCast type) fun _ _ => True := by
  refine (onStack_grows fun _ _ => Stack.peek_keeps 0).andThen fun _ _ _ => ?_
  exact (Act.Grows.ensure _ _).imp fun _ _ _ _ _ => trivial

theorem instanceOf_grows (v : Value) (type : String) :
    Act.Grows Sound m₀ (instanceOf v type) fun _ _ => True := by
  refine popRef_grows.discard.andThen fun _ _ _ => ?_
  split
  · exact push_grows trivial
  · refine Act.Grows.get_bind fun m _ _ => ?_
    split
    · exact Act.Grows.fail _
    · split
      · exact Act.Grows.fail _
      · exact push_grows trivial
      · exact Act.Grows.fail _

theorem monitor_grows (v : Value) : Act.Grows Sound m₀ (monitor v) fun _ _ => True := by
  refine popRef_grows.discard.andThen fun _ _ _ => ?_
  split
  · exact nullAccess_grows
  · exact Act.Grows.pure fun _ _ => trivial

/-! ## 6. Calls -/

theorem methodWidths_grows (desc : String) :
    Act.Grows Sound m₀ (methodWidths desc : Act Machine _) fun _ _ => True :=
  Act.Grows.ofExcept fun _ _ _ _ => trivial

theorem popArguments_grows (desc : String) :
    Act.Grows Sound m₀ (popArguments desc) fun m os => ∀ o ∈ os, o.Issued m.heap :=
  (methodWidths_grows desc).andThen fun _ _ _ => onStack_grows fun _ _ => popArgs_keeps desc _

theorem fill_grows {f : Frame} (hf : f.Each (Operand.Issued m₀.heap)) {a : Act Locals Unit}
    (ha : Act.Keeps (Locals.Each (Operand.Issued m₀.heap)) a fun _ => True) :
    Act.Grows Sound m₀ (fill f a) fun m f' => f'.Each (Operand.Issued m.heap) := by
  have hlocals := (ha f.locals hf.locals).1
  unfold fill
  split
  next t h =>
    rw [h] at hlocals
    refine Act.Grows.pure fun m hle => ?_
    exact Frame.Each.mono ⟨hf.stack, hlocals⟩ fun o ho => hle.1.issued_operand ho
  · exact Act.Grows.fail _

theorem each_enter {P : Operand → Prop} {method : MethodRef} {size : Int} {f : Frame}
    (h : Frame.enter method size = .ok f) : f.Each P := by
  unfold Frame.enter Locals.empty at h
  split at h
  · cases h
  split at h
  · cases h
  · cases h
    refine ⟨fun o ho => absurd ho List.not_mem_nil, fun o ho => ?_⟩
    cases List.eq_of_mem_replicate ho

theorem enter_grows (method : MethodRef) (static : Bool) (size : Int) :
    Act.Grows Sound m₀ (enter method static size) fun _ _ => True := by
  refine topFrame_grows.discard.andThen fun _ _ _ => ?_
  refine (popArguments_grows _).bind fun m args _ _ hargs => ?_
  split
  · exact Act.Grows.fail _
  next f hf =>
    split
    · refine (fill_grows (each_enter hf) (writeArguments_keeps hargs 0)).bind fun _ _ _ _ hf' => ?_
      exact pushFrame_grows hf'
    · refine popRef_grows.bind fun m₁ e _ hle₁ he => ?_
      have hargs₁ : ∀ o ∈ args, o.Issued m₁.heap :=
        fun o ho => hle₁.1.issued_operand (hargs o ho)
      refine (fill_grows (each_enter hf) (Locals.write_keeps 0 (o := .ref e) he)).bind
        fun m₂ f' _ hle₂ hf' => ?_
      have hargs₂ : ∀ o ∈ args, o.Issued m₂.heap :=
        fun o ho => hle₂.1.issued_operand (hargs₁ o ho)
      refine (fill_grows hf' (writeArguments_keeps hargs₂ 1)).bind fun _ _ _ _ hf'' => ?_
      exact pushFrame_grows hf''

theorem leaveWith_grows (w : Width) : Act.Grows Sound m₀ (leaveWith w) fun _ _ => True := by
  refine popFrame_grows.bind fun m f _ _ hf => ?_
  split
  · exact Act.Grows.fail _
  next o s hs =>
    refine (Act.Grows.ensure _ _).andThen fun m' _ hle => push_grows (hle.1.issued_operand ?_)
    refine hf.stack o ?_
    rw [hs]
    exact List.mem_cons_self

theorem callUnwatched_grows (desc : String) (static : Bool) (result : Value) :
    Act.Grows Sound m₀ (callUnwatched desc static result) fun _ _ => True := by
  refine topFrame_grows.discard.andThen fun _ _ _ => ?_
  refine (popArguments_grows desc).discard.andThen fun _ _ _ => ?_
  refine Act.Grows.ite_bind popRef_grows.discard fun _ _ => ?_
  refine (methodWidths_grows desc).andThen fun _ ws _ => ?_
  obtain ⟨_, w⟩ := ws
  cases w with
  | none => exact Act.Grows.pure fun _ _ => trivial
  | some w =>
    refine (onHeap_grows (Heap.constant_grows _ _ _)).bind fun m e _ _ he => ?_
    refine (Act.Grows.ofExcept fun o ho m' hle => ?_).bind fun _ _ _ _ ho => push_grows ho
    exact hle.1.issued_operand (Operand.issued_ofExpr he ho)

theorem unwind_grows (n fuel : Nat) : Act.Grows Sound m₀ (unwind n fuel) fun _ _ => True := by
  induction fuel generalizing m₀ with
  | zero => exact Act.Grows.pure fun _ _ => trivial
  | succ fuel ih =>
    refine Act.Grows.get_bind fun m _ _ => ?_
    split
    · exact popFrame_grows.discard.andThen fun _ _ _ => ih
    · exact Act.Grows.pure fun _ _ => trivial

theorem throwTo_grows (depth : Int) (exception : Value) :
    Act.Grows Sound m₀ (throwTo depth exception) fun _ _ => True := by
  refine Act.Grows.get_bind fun m _ _ => (Act.Grows.ensure _ _).andThen fun _ _ _ => ?_
  refine (unwind_grows _ _).andThen fun _ _ _ => ?_
  refine (onStack_grows fun _ _ => Stack.clear_keeps).andThen fun m' _ _ => ?_
  exact (onHeap_grows (Heap.reference_grows _ exception)).bind fun _ _ _ _ he => push_grows he

end Machine

/-! ## 7. Instructions that do not store -/

namespace Instruction

theorem safely_grows {m₀ : Machine} {a : Act Machine Unit} {Q : Machine → Unit → Prop}
    (ha : Act.Grows Machine.Sound m₀ a Q) :
    Act.Grows Machine.Sound m₀ (safely a) fun _ _ => True :=
  ha.andThen fun _ _ _ => Act.Grows.pure fun _ _ => trivial

/-- Whether the instruction writes to the heap what the program stores. -/
def isStore : Instruction → Bool
  | putField .. | putStatic .. | arrayStore .. => true
  | _ => false

open Machine in
/-- **An instruction that is no store keeps the machine sound, and the heap only grows.** -/
theorem exec_grows (m₀ : Machine) {i : Instruction} (hi : i.isStore = false) :
    Act.Grows Sound m₀ i.exec fun _ _ => True := by
  cases i with
  | pushNull | pushInt | pushLong | pushFloat | pushDouble =>
    exact safely_grows (push_grows trivial)
  | pushConstant v => exact safely_grows (pushConstant_grows v)
  | load w i => exact safely_grows (load_grows w i)
  | store w i => exact safely_grows (store_grows w i)
  | increment i d => exact safely_grows (increment_grows i d)
  | intOp | intShift =>
    exact safely_grows
      (popInt_grows.andThen fun _ _ _ => numeric_grows popInt_grows fun _ _ => trivial)
  | intDivide op d => exact intDivide_grows op d
  | intNegate => exact safely_grows (numeric_grows popInt_grows fun _ _ => trivial)
  | longOp | longCompare =>
    exact safely_grows
      (popLong_grows.andThen fun _ _ _ => numeric_grows popLong_grows fun _ _ => trivial)
  | longShift =>
    exact safely_grows
      (popInt_grows.andThen fun _ _ _ => numeric_grows popLong_grows fun _ _ => trivial)
  | longDivide op d => exact longDivide_grows op d
  | longNegate => exact safely_grows (numeric_grows popLong_grows fun _ _ => trivial)
  | floatOp | floatCompare =>
    exact safely_grows
      (popFloat_grows.andThen fun _ _ _ => numeric_grows popFloat_grows fun _ _ => trivial)
  | floatNegate => exact safely_grows (numeric_grows popFloat_grows fun _ _ => trivial)
  | doubleOp | doubleCompare =>
    exact safely_grows
      (popDouble_grows.andThen fun _ _ _ => numeric_grows popDouble_grows fun _ _ => trivial)
  | doubleNegate => exact safely_grows (numeric_grows popDouble_grows fun _ _ => trivial)
  | convert c => exact safely_grows (convert_grows c)
  | shuffle sh => exact safely_grows (onStack_grows fun _ _ => Stack.shuffle_keeps sh)
  | branchZero => exact safely_grows (popInt_grows.andThen fun _ _ _ => decideBranch_grows _ _)
  | branchCompare =>
    exact safely_grows
      (popInt_grows.andThen fun _ _ _ => popInt_grows.andThen fun _ _ _ => decideBranch_grows _ _)
  | branchNull => exact safely_grows popRef_grows.discard
  | branchSame =>
    exact safely_grows (popRef_grows.discard.andThen fun _ _ _ => popRef_grows.discard)
  | tableSwitch b low high => exact safely_grows (tableSwitch_grows b low high)
  | lookupSwitch b keys => exact safely_grows (lookupSwitch_grows b keys)
  | newObject c => exact safely_grows (newObject_grows c)
  | newArray n c => exact newArray_grows n c
  | newMultiArray t dims => exact newMultiArray_grows t dims
  | arrayLength a => exact arrayLength_grows a
  | arrayLoad w a n => exact arrayLoad_grows w a n
  | getField v o n d x => exact getField_grows v o n d x
  | getStatic o n d x => exact safely_grows (getStatic_grows o n d x)
  | checkCast t => exact safely_grows (checkCast_grows t)
  | instanceOf v t => exact safely_grows (instanceOf_grows v t)
  | monitor v => exact monitor_grows v
  | enter method static size => exact safely_grows (enter_grows method static size)
  | leave => exact safely_grows popFrame_grows.discard
  | leaveWith w => exact safely_grows (leaveWith_grows w)
  | callUnwatched d static v => exact safely_grows (callUnwatched_grows d static v)
  | throwTo d v => exact safely_grows (throwTo_grows d v)
  | arrayStore | putField | putStatic => cases hi

end Instruction

end Concolic
