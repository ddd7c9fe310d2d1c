import Concolic.Proofs.ReadOverWrite
import Concolic.Proofs.TopFrame

/-
# Where references come from

A reference is a number and a type, and it is copied as a whole: onto stacks, into locals, into
fields and elements.  The heap compares numbers only.  That is enough if two references with one
number are one reference, but nothing in the machine says so, since the heap keeps a counter and not
the references that it handed out.

So the invariant names them: `m.Made rs` says that the references in the machine are among `rs`,
where each number occurs once.  Actions may add to `rs` (`Act.Adds`), as a store typing grows with
the store.  Every instruction keeps the invariant, so every machine that can be reached has it
(`Machine.Reachable.made`).
-/
namespace Concolic

/-! ## 1. Actions that make references -/

/-- From a state with `I` of the references made so far, the action leaves one with `I` of these and
perhaps more, failing or not.  Its answers satisfy `Q` of the references made by then. -/
def Act.Adds (I : List Ref → σ → Prop) (rs : List Ref) (a : Act σ α) (Q : List Ref → α → Prop) :
    Prop :=
  ∀ s, I rs s → ∃ rs', rs ⊆ rs' ∧ I rs' (a s).2 ∧ ∀ x, (a s).1 = .ok x → Q rs' x

namespace Act.Adds

variable {I : List Ref → σ → Prop} {rs : List Ref} {a : Act σ α} {g : α → Act σ β}
  {Q : List Ref → α → Prop} {R : List Ref → β → Prop}

/-- An action that makes none. -/
theorem of_keeps (ha : Keeps (I rs) a (Q rs)) : Adds I rs a Q :=
  fun s hs => ⟨rs, List.Subset.refl rs, ha s hs⟩

theorem pure {x : α} (h : Q rs x) : Adds I rs (Pure.pure x) Q := of_keeps (Keeps.pure h)

theorem fail (e : Failure) : Adds I rs (Act.fail e) Q := of_keeps (Keeps.fail e)

theorem bind (ha : Adds I rs a Q)
    (hg : ∀ rs', rs ⊆ rs' → ∀ x, Q rs' x → Adds I rs' (g x) R) : Adds I rs (a >>= g) R := by
  intro s hs
  obtain ⟨rs₁, hsub, hI, hQ⟩ := ha s hs
  rw [Act.bind_apply]
  rcases h : a s with ⟨e | x, t⟩
  · rw [h] at hI
    refine ⟨rs₁, hsub, hI, fun y hy => ?_⟩
    cases hy
  · rw [h] at hI hQ
    obtain ⟨rs₂, hsub₂, hI₂, hR⟩ := hg rs₁ hsub x (hQ x rfl) t hI
    exact ⟨rs₂, List.Subset.trans hsub hsub₂, hI₂, hR⟩

theorem get_bind {g : σ → Act σ β} (hg : ∀ s, I rs s → Adds I rs (g s) R) :
    Adds I rs (get >>= g) R :=
  fun s hs => hg s hs s hs

theorem imp {Q' : List Ref → α → Prop} (ha : Adds I rs a Q) (h : ∀ rs' x, Q rs' x → Q' rs' x) :
    Adds I rs a Q' := by
  intro s hs
  obtain ⟨rs', hsub, hI, hQ⟩ := ha s hs
  exact ⟨rs', hsub, hI, fun x hx => h rs' x (hQ x hx)⟩

end Act.Adds

/-! ## 2. References in the heap -/

/-- The reference is null or one of `rs`. -/
def RefExpr.Among (rs : List Ref) : RefExpr → Prop
  | null => True
  | object r => r ∈ rs

def Expr.Among (rs : List Ref) : Expr → Prop
  | ref e => e.Among rs
  | _ => True

def Operand.Among (rs : List Ref) (o : Operand) : Prop := o.expr.Among rs

section

variable {rs rs' : List Ref}

theorem RefExpr.Among.mono {e : RefExpr} (hsub : rs ⊆ rs') (he : e.Among rs) : e.Among rs' := by
  cases e with
  | null => trivial
  | object r => exact hsub he

theorem Expr.Among.mono {x : Expr} (hsub : rs ⊆ rs') (hx : x.Among rs) : x.Among rs' := by
  cases x with
  | ref e => exact RefExpr.Among.mono hsub hx
  | _ => trivial

theorem Operand.Among.mono {o : Operand} (hsub : rs ⊆ rs') (ho : o.Among rs) : o.Among rs' :=
  Expr.Among.mono hsub ho

theorem Operand.among_ofExpr {w : Width} {x : Expr} {o : Operand} (hx : x.Among rs)
    (ho : ofExpr w x = .ok o) : o.Among rs := by
  unfold ofExpr at ho
  split at ho <;> cases ho <;> exact hx

end

namespace Heap

/-- The references in the heap are among `rs`, whose numbers are different and were handed out. -/
structure Made (rs : List Ref) (h : Heap) : Prop where
  distinct : (rs.map Ref.id).Nodup
  below : ∀ r ∈ rs, r.id < h.nextId
  objects : ∀ p ∈ h.objects, p.2 ∈ rs
  fields : ∀ p ∈ h.fields, p.2.Among rs
  elems : ∀ p ∈ h.elems, p.2.Among rs

variable {rs : List Ref} {h : Heap} {v : Value} {r : Ref} {e : RefExpr}

theorem made_empty : Made [] {} := by
  constructor <;> simp

/-- **One number, one reference.** -/
theorem Made.eq_of_id (hm : h.Made rs) {r' : Ref} (hr : r ∈ rs) (hr' : r' ∈ rs)
    (hid : r.id = r'.id) : r = r' :=
  List.inj_on_of_nodup_map hm.distinct hr hr' hid

theorem Made.object? (hm : h.Made rs) (ho : h.object? v = some r) : r ∈ rs := by
  obtain ⟨p, hp, -, rfl⟩ := object?_mem ho
  exact hm.objects p hp

theorem Made.stored? (hm : h.Made rs) {l : Location} {x : Expr} (hx : h.stored? l = some x) :
    x.Among rs := by
  cases l with
  | field k =>
    have hk : h.field? k = some x := hx
    obtain ⟨p, hp, rfl⟩ := Table.mem_of_get? hk
    exact hm.fields p hp
  | elem k =>
    have hk : h.elem? k = some x := hx
    obtain ⟨p, hp, rfl⟩ := Table.mem_of_get? hk
    exact hm.elems p hp

theorem Made.put (hm : h.Made rs) (l : Location) {x : Expr} (hx : x.Among rs) :
    (h.put l x).Made rs := by
  cases l with
  | field k =>
    refine ⟨hm.distinct, hm.below, hm.objects, fun p hp => ?_, hm.elems⟩
    rcases Table.mem_insert hp with rfl | hold
    · exact hx
    · exact hm.fields p hold
  | elem k =>
    refine ⟨hm.distinct, hm.below, hm.objects, hm.fields, fun p hp => ?_⟩
    rcases Table.mem_insert hp with rfl | hold
    · exact hx
    · exact hm.elems p hold

theorem Made.issue (hm : h.Made rs) (type : String) : h.issue.Made (h.next type :: rs) := by
  have hsub : rs ⊆ h.next type :: rs := List.subset_cons_self _ _
  refine ⟨?_, ?_, fun p hp => hsub (hm.objects p hp), fun p hp => (hm.fields p hp).mono hsub,
    fun p hp => (hm.elems p hp).mono hsub⟩
  · rw [List.map_cons]
    refine List.nodup_cons.mpr ⟨fun hmem => ?_, hm.distinct⟩
    obtain ⟨r, hr, hid⟩ := List.mem_map.mp hmem
    exact absurd (hm.below r hr) (by rw [hid]; exact Nat.lt_irrefl _)
  · exact List.forall_mem_cons.mpr
      ⟨Nat.lt_succ_self _, fun r hr => Nat.lt_succ_of_lt (hm.below r hr)⟩

theorem Made.record (hm : h.Made rs) (v : Value) (hr : r ∈ rs) : (h.record v r).Made rs := by
  refine ⟨hm.distinct, hm.below, fun p hp => ?_, hm.fields, hm.elems⟩
  rcases Table.mem_insert hp with rfl | hold
  · exact hr
  · exact hm.objects p hold

theorem new_adds (type : String) : Act.Adds Made rs (new type) fun rs r => r ∈ rs := by
  intro h hm
  refine ⟨h.next type :: rs, List.subset_cons_self _ _, hm.issue type, fun r hr => ?_⟩
  cases hr
  exact List.mem_cons_self

theorem newArray_adds (type : String) (n : IntExpr) :
    Act.Adds Made rs (newArray type n) fun rs r => r ∈ rs := by
  refine (new_adds type).bind fun rs' _ r hr => ?_
  have hput : Act.Keeps (Made rs') (modify fun h => h.putField (lengthKey r) (.int n))
      fun _ => True := Act.Keeps.modify fun h hm => hm.put (.field (lengthKey r)) trivial
  exact (Act.Adds.of_keeps (Q := fun _ _ => True) hput).bind fun _ hsub _ _ =>
    Act.Adds.pure (hsub hr)

theorem reference_adds (v : Value) :
    Act.Adds Made rs (reference v) fun rs e => e.Among rs := by
  intro h hm
  by_cases hv : v = .null
  · rw [hv, reference_null]
    refine ⟨rs, List.Subset.refl rs, hm, fun e he => ?_⟩
    cases he
    trivial
  cases ho : h.object? v with
  | some r =>
    rw [reference_of_object? hv ho]
    refine ⟨rs, List.Subset.refl rs, hm, fun e he => ?_⟩
    cases he
    exact hm.object? ho
  | none =>
    rw [reference_of_none hv ho]
    refine ⟨h.next v.className :: rs, List.subset_cons_self _ _, ?_⟩
    cases v.isComparable with
    | false => exact ⟨hm.issue _, fun e he => by cases he⟩
    | true =>
      refine ⟨(hm.issue _).record v List.mem_cons_self, fun e he => ?_⟩
      cases he
      exact List.mem_cons_self

theorem resolve_adds (he : e.Among rs) (v : Value) :
    Act.Adds Made rs (resolve e v) fun rs e' => e'.Among rs := by
  intro h hm
  rcases resolve_cases h e v with heq | ⟨r, rfl, hv, ho, hr⟩
  · rw [heq]
    exact reference_adds v h hm
  · rw [resolve_of_free hv ho hr]
    refine ⟨rs, List.Subset.refl rs, ?_⟩
    cases v.isComparable with
    | false => exact ⟨hm, fun e he => by cases he⟩
    | true =>
      refine ⟨hm.record v he, fun e he' => ?_⟩
      cases he'
      exact he

theorem constant_adds (w : Option Width) (v : Value) :
    Act.Adds Made rs (constant w v) fun rs x => x.Among rs := by
  have hnumber {α : Type} (r : Except Violation α) {f : α → Expr} (hf : ∀ x rs, (f x).Among rs) :
      Act.Adds Made rs (Act.ofExcept r >>= fun x => pure (f x)) fun rs x => x.Among rs := by
    cases r with
    | ok x => exact Act.Adds.pure (hf x rs)
    | error e => exact Act.Adds.fail _
  unfold constant
  split
  · exact hnumber _ fun _ _ => trivial
  · exact hnumber _ fun _ _ => trivial
  · exact hnumber _ fun _ _ => trivial
  · exact hnumber _ fun _ _ => trivial
  · exact (reference_adds v).bind fun _ _ _ he => Act.Adds.pure he
  · exact Act.Adds.fail _

theorem observe_adds (w : Option Width) (v : Value) {stored : Option Expr}
    (hstored : ∀ x, stored = some x → x.Among rs) :
    Act.Adds Made rs (observe w v stored) fun rs x => x.Among rs := by
  unfold observe
  split
  next e =>
    have he : e.Among rs := hstored _ rfl
    exact (resolve_adds he v).bind fun _ _ _ he' => Act.Adds.pure he'
  · exact constant_adds w v

/-- What a location is read to hold. -/
theorem Made.current (hm : h.Made rs) (l : Location) {y : Expr} (hy : y.Among rs) :
    (Heap.current (h.stored? l) y).Among rs := by
  rcases current_eq (h.stored? l) y with hstored | hobserved
  · exact hm.stored? hstored
  · rw [hobserved]
    exact hy

end Heap

/-! ## 3. Histories -/

namespace History

theorem exec_adds {t : History} {rs : List Ref} (hrs : t.issued ⊆ rs) {op : Heap.Op}
    (ha : t.Allows op) : Act.Adds Heap.Made rs op.exec fun rs e => e.Among rs := by
  cases op with
  | new type => exact (Heap.new_adds type).bind fun _ _ _ hr => Act.Adds.pure hr
  | newArray type n => exact (Heap.newArray_adds type n).bind fun _ _ _ hr => Act.Adds.pure hr
  | reference v => exact Heap.reference_adds v
  | resolve e v =>
    refine Heap.resolve_adds ?_ v
    cases e with
    | null => trivial
    | object r => exact hrs ha

/-- A heap without stores, with all that it handed out. -/
theorem Leads.made {t : History} (ht : Leads {} t) : ∃ rs, t.heap.Made rs ∧ t.issued ⊆ rs := by
  induction ht with
  | refl => exact ⟨[], Heap.made_empty, List.Subset.refl _⟩
  | @next t op _ ha ih =>
    obtain ⟨rs, hm, hissued⟩ := ih
    obtain ⟨rs', hsub, hm', hanswer⟩ := exec_adds hissued ha t.heap hm
    have hissued' : t.issued ⊆ rs' := List.Subset.trans hissued hsub
    refine ⟨rs', ?_⟩
    rcases hx : op.exec t.heap with ⟨x, h⟩
    rw [hx] at hm' hanswer
    cases x with
    | error e =>
      simp only [History.next, hx]
      exact ⟨hm', hissued'⟩
    | ok e =>
      cases e with
      | null =>
        simp only [History.next, hx]
        exact ⟨hm', hissued'⟩
      | object r =>
        simp only [History.next, hx]
        exact ⟨hm', List.cons_subset.mpr ⟨hanswer _ rfl, hissued'⟩⟩

end History

/-! ## 4. Parts of the machine -/

namespace Machine

/-- The references in the frames and in the heap are among `rs`. -/
structure Made (rs : List Ref) (m : Machine) : Prop where
  heap : m.heap.Made rs
  frames : ∀ f ∈ m.frames, f.Each (Operand.Among rs)

/-- The action keeps to the references that were made before and to those that it makes. -/
def Orderly (a : Act Machine α) : Prop := ∀ rs, Act.Adds Made rs a fun _ _ => True

namespace Orderly

variable {a : Act Machine α} {g : α → Act Machine β}

theorem pure (x : α) : Orderly (Pure.pure x) := fun _ => Act.Adds.pure trivial

theorem fail (e : Failure) : Orderly (Act.fail e : Act Machine α) := fun _ => Act.Adds.fail e

theorem bind (ha : Orderly a) (hg : ∀ x, Orderly (g x)) : Orderly (a >>= g) :=
  fun rs => (ha rs).bind fun rs' _ x _ => hg x rs'

theorem get_bind {g : Machine → Act Machine β} (hg : ∀ m, Orderly (g m)) : Orderly (get >>= g) :=
  fun rs => Act.Adds.get_bind fun m _ => hg m rs

theorem discard (ha : Orderly a) : Orderly (Functor.discard a) :=
  ha.bind (g := fun _ => Pure.pure ()) fun _ => pure ()

theorem ensure (b : Bool) (v : Violation) : Orderly (Act.ensure b v) := by
  cases b with
  | true => exact pure ()
  | false => exact fail _

theorem ofExcept (r : Except Violation α) : Orderly (Act.ofExcept r) := by
  cases r with
  | ok x => exact pure x
  | error v => exact fail _

/-- An action that may be left out, before another one. -/
theorem ite_bind {p : Prop} [Decidable p] {a : Act Machine Unit} {b : Act Machine β}
    (ha : Orderly a) (hb : Orderly b) : Orderly (if p then a >>= fun _ => b else b) := by
  split
  · exact ha.bind fun _ => hb
  · exact hb

/-- What follows a test that finds no fault. -/
theorem tested {a : Act Machine Bool} {b : Act Machine β} {x : β} (ha : Orderly a)
    (hb : Orderly b) : Orderly (do
      if ← a then return x
      b) := by
  refine ha.bind fun faulted => ?_
  cases faulted with
  | true => exact pure x
  | false => exact hb

/-- An action that leaves frames and heap alone. -/
theorem of_eq (h : ∀ m, (a m).2.frames = m.frames ∧ (a m).2.heap = m.heap) : Orderly a := by
  refine fun rs => Act.Adds.of_keeps fun m hm => ⟨⟨?_, ?_⟩, fun _ _ => trivial⟩
  · rw [(h m).2]
    exact hm.heap
  · rw [(h m).1]
    exact hm.frames

end Orderly

variable {rs : List Ref}

theorem onTop_adds {a : Act Frame α} {Q : List Ref → α → Prop}
    (ha : Act.Keeps (Frame.Each (Operand.Among rs)) a (Q rs)) :
    Act.Adds Made rs (onTop a) Q := by
  refine Act.Adds.of_keeps ?_
  rintro ⟨frames, prepared, heap, collector, log, classes⟩ hm
  cases frames with
  | nil => exact ⟨hm, fun x hx => by cases hx⟩
  | cons f rest =>
    obtain ⟨hf, hrest⟩ := List.forall_mem_cons.mp hm.frames
    obtain ⟨hkeep, hQ⟩ := ha f hf
    exact ⟨⟨hm.heap, List.forall_mem_cons.mpr ⟨hkeep, hrest⟩⟩, hQ⟩

theorem onStack_adds {a : Act Stack α} {Q : List Ref → α → Prop}
    (ha : Act.Keeps (Stack.Each (Operand.Among rs)) a (Q rs)) :
    Act.Adds Made rs (onStack a) Q :=
  onTop_adds fun f hf => ⟨⟨(ha f.stack hf.stack).1, hf.locals⟩, (ha f.stack hf.stack).2⟩

theorem onLocals_adds {a : Act Locals α} {Q : List Ref → α → Prop}
    (ha : Act.Keeps (Locals.Each (Operand.Among rs)) a (Q rs)) :
    Act.Adds Made rs (onLocals a) Q :=
  onTop_adds fun f hf => ⟨⟨hf.stack, (ha f.locals hf.locals).1⟩, (ha f.locals hf.locals).2⟩

theorem onHeap_adds {a : Act Heap α} {Q : List Ref → α → Prop}
    (ha : Act.Adds Heap.Made rs a Q) : Act.Adds Made rs (onHeap a) Q := by
  intro m hm
  obtain ⟨rs', hsub, hheap, hQ⟩ := ha m.heap hm.heap
  refine ⟨rs', hsub, ⟨hheap, fun f hf => ?_⟩, hQ⟩
  exact (hm.frames f hf).mono fun o ho => ho.mono hsub

/-! ## 5. Actions that report -/

theorem tell_orderly (e : Event) : Orderly (tell e) := Orderly.of_eq fun _ => ⟨rfl, rfl⟩

theorem topFrame_orderly : Orderly topFrame := by
  refine Orderly.get_bind fun m => ?_
  split
  · exact Orderly.fail _
  · exact Orderly.pure _

theorem fault_orderly (x : Fault) : Orderly (fault x) :=
  topFrame_orderly.bind fun _ => tell_orderly _

theorem report_orderly (rep : Report) : Orderly (report rep) := by
  refine Orderly.get_bind fun m => ?_
  split
  · exact Orderly.fail _
  · refine Orderly.bind (Orderly.of_eq fun _ => ⟨rfl, rfl⟩) fun _ => ?_
    split
    · exact tell_orderly _
    · exact Orderly.pure _

theorem support_orderly (d : Constraint) : Orderly (support d) := by
  unfold support
  split
  · exact report_orderly _
  · exact Orderly.pure _

theorem decideAccess_orderly (d : Constraint) (negated : Bool) :
    Orderly (decideAccess d negated) := by
  unfold decideAccess
  split
  · exact topFrame_orderly.bind fun _ => report_orderly _
  · exact Orderly.pure _

theorem decideBranch_orderly (d : Constraint) (branch : Int) :
    Orderly (decideBranch d branch) := by
  unfold decideBranch
  split
  · exact topFrame_orderly.bind fun _ => report_orderly _
  · exact Orderly.pure _

theorem prepare_orderly (name : String) : Orderly (prepare name) := by
  refine Orderly.of_eq fun m => ?_
  obtain ⟨names, log, hleft, -⟩ := prepare_prepares name m
  rw [hleft]
  exact ⟨rfl, rfl⟩

theorem nullAccess_orderly : Orderly nullAccess :=
  (fault_orderly _).bind fun _ => Orderly.pure _

theorem zeroDivisor_orderly (e : IntExpr) (isZero : Bool) : Orderly (zeroDivisor e isZero) :=
  (support_orderly _).bind fun _ => Orderly.ite_bind (fault_orderly _) (Orderly.pure _)

theorem negativeLength_orderly (e : IntExpr) (n : Int32) : Orderly (negativeLength e n) :=
  (support_orderly _).bind fun _ => Orderly.ite_bind (fault_orderly _) (Orderly.pure _)

theorem negativeIndex_orderly (e : IntExpr) (n : Int32) : Orderly (negativeIndex e n) :=
  (decideAccess_orderly _ _).bind fun _ => Orderly.ite_bind (fault_orderly _) (Orderly.pure _)

theorem indexTooBig_orderly (e : IntExpr) (n : Int32) (length : IntExpr) :
    Orderly (indexTooBig e n length) :=
  (decideAccess_orderly _ _).bind fun _ => Orderly.ite_bind (fault_orderly _) (Orderly.pure _)

theorem anyNegative_orderly (ls : List (IntExpr × Int32)) : Orderly (anyNegative ls) := by
  induction ls with
  | nil => exact Orderly.pure _
  | cons p ls ih => exact Orderly.tested (negativeLength_orderly _ _) ih

theorem excludeKeys_orderly (branch : Int) (e : IntExpr) (keys : List Int32) :
    Orderly (excludeKeys branch e keys) := by
  induction keys with
  | nil => exact Orderly.pure _
  | cons k ks ih => exact (decideBranch_orderly _ _).bind fun _ => ih

/-! ## 6. Operands -/

theorem popInt_orderly : Orderly (onStack Stack.popInt) :=
  fun _ => onStack_adds (Stack.popInt_keeps.imp fun _ _ => trivial)

theorem popLong_orderly : Orderly (onStack Stack.popLong) :=
  fun _ => onStack_adds (Stack.popLong_keeps.imp fun _ _ => trivial)

theorem popFloat_orderly : Orderly (onStack Stack.popFloat) :=
  fun _ => onStack_adds (Stack.popFloat_keeps.imp fun _ _ => trivial)

theorem popDouble_orderly : Orderly (onStack Stack.popDouble) :=
  fun _ => onStack_adds (Stack.popDouble_keeps.imp fun _ _ => trivial)

theorem popRef_adds :
    Act.Adds Made rs (onStack Stack.popRef) fun rs e => e.Among rs :=
  onStack_adds Stack.popRef_keeps

theorem popRef_orderly : Orderly (onStack Stack.popRef) :=
  fun _ => popRef_adds.imp fun _ _ _ => trivial

theorem pop_adds : Act.Adds Made rs (onStack Stack.pop) fun rs o => o.Among rs :=
  onStack_adds Stack.pop_keeps

theorem peek_orderly (i : Int) : Orderly (onStack (Stack.peek i)) :=
  fun _ => onStack_adds ((Stack.peek_keeps i).imp fun _ _ => trivial)

theorem push_adds {o : Operand} (ho : o.Among rs) :
    Act.Adds Made rs (push o) fun _ _ => True :=
  onStack_adds (Stack.push_keeps ho)

theorem pushAnswer_adds {o : Operand} (ho : o.Among rs) (x : α) :
    Act.Adds Made rs (do push o; return x) fun _ _ => True :=
  (push_adds ho).bind fun _ _ _ _ => Act.Adds.pure trivial

/-- An operand that is no reference to an object is pushed. -/
theorem push_orderly {o : Operand} (ho : ∀ rs, o.Among rs) : Orderly (push o) :=
  fun rs => push_adds (ho rs)

theorem load_orderly (w : Width) (i : Int) : Orderly (load w i) := by
  refine fun rs => (onLocals_adds (Locals.read_keeps i)).bind fun rs₁ _ o ho => ?_
  exact (Orderly.ensure _ _ rs₁).bind fun rs₂ hsub _ _ => push_adds (ho.mono hsub)

theorem store_orderly (w : Width) (i : Int) : Orderly (store w i) := by
  refine fun rs => pop_adds.bind fun rs₁ _ o ho => ?_
  refine (Orderly.ensure _ _ rs₁).bind fun rs₂ hsub _ _ => ?_
  exact onLocals_adds (Locals.write_keeps i (ho.mono hsub))

theorem increment_orderly (i : Int) (d : Int32) : Orderly (increment i d) :=
  fun _ => onLocals_adds ((Locals.readInt_keeps i).bind fun _ _ =>
    Locals.write_keeps i (o := .bv32 _) trivial)

theorem convert_orderly (c : Conversion) : Orderly (convert c) := by
  cases c with
  | intToLong | intToFloat | intToDouble =>
    exact popInt_orderly.bind fun _ => push_orderly fun _ => trivial
  | longToInt | longToFloat | longToDouble =>
    exact popLong_orderly.bind fun _ => push_orderly fun _ => trivial
  | floatToInt | floatToLong | floatToDouble =>
    exact popFloat_orderly.bind fun _ => push_orderly fun _ => trivial
  | doubleToInt | doubleToLong | doubleToFloat =>
    exact popDouble_orderly.bind fun _ => push_orderly fun _ => trivial
  | intToSmall => exact (peek_orderly 0).bind fun _ => Orderly.ensure _ _

theorem intDivide_orderly (op : DivOp) (d : Int32) : Orderly (intDivide op d) :=
  popInt_orderly.bind fun _ => popInt_orderly.bind fun _ =>
    Orderly.tested (zeroDivisor_orderly _ _) fun _ => pushAnswer_adds (o := .bv32 _) trivial false

theorem longDivide_orderly (op : DivOp) (d : Int64) : Orderly (longDivide op d) :=
  popLong_orderly.bind fun _ => popLong_orderly.bind fun _ =>
    Orderly.tested (zeroDivisor_orderly _ _) fun _ => pushAnswer_adds (o := .bv64 _) trivial false

theorem tableSwitch_orderly (branch : Int) (low high : Int32) :
    Orderly (tableSwitch branch low high) := by
  refine popInt_orderly.bind fun _ => ?_
  split
  · exact decideBranch_orderly _ _
  · split
    · exact decideBranch_orderly _ _
    · exact decideBranch_orderly _ _

theorem lookupSwitch_orderly (branch : Int) (keys : List Int32) :
    Orderly (lookupSwitch branch keys) := by
  refine popInt_orderly.bind fun _ => ?_
  split
  · exact decideBranch_orderly _ _
  · exact excludeKeys_orderly _ _ _

/-! ## 7. Objects, arrays and fields -/

/-- The reference of a value is pushed. -/
theorem pushReference_orderly (v : Value) :
    Orderly (onHeap (Heap.reference v) >>= fun e => push (.ref e)) :=
  fun _ => (onHeap_adds (Heap.reference_adds v)).bind fun _ _ _ he => push_adds he

theorem pushConstant_orderly (v : Value) : Orderly (pushConstant v) := by
  cases v with
  | int v => exact push_orderly fun _ => trivial
  | long v => exact push_orderly fun _ => trivial
  | float v => exact push_orderly fun _ => trivial
  | double v => exact push_orderly fun _ => trivial
  | text bs => exact topFrame_orderly.discard.bind fun _ => pushReference_orderly _
  | _ => exact Orderly.fail _

theorem newObject_orderly (className : String) : Orderly (newObject className) := by
  refine (prepare_orderly className).bind fun _ => topFrame_orderly.discard.bind fun _ rs => ?_
  exact (onHeap_adds (Heap.new_adds _)).bind fun _ _ r hr => push_adds (o := .ref (.object r)) hr

/-- A reference to a new array is pushed. -/
theorem pushArray_orderly (type : String) (length : IntExpr) : Orderly (do
      push (.ref (.object (← onHeap (Heap.newArray type length))))
      return false) :=
  fun _ => (onHeap_adds (Heap.newArray_adds type length)).bind fun _ _ r hr =>
    pushAnswer_adds (o := .ref (.object r)) hr false

theorem newArray_orderly (n : Int32) (component : String) : Orderly (newArray n component) := by
  unfold newArray
  split
  · exact Orderly.fail _
  · exact popInt_orderly.bind fun _ =>
      Orderly.tested (negativeLength_orderly _ _) (pushArray_orderly _ _)

theorem newMultiArray_orderly (type : String) (dims : List Int32) :
    Orderly (newMultiArray type dims) := by
  refine (Orderly.ensure _ _).bind fun _ => Orderly.bind (fun _ => onStack_adds
    ((popLengths_keeps dims.length).imp fun _ _ => trivial)) fun lengths => ?_
  refine Orderly.tested (anyNegative_orderly _) ?_
  cases lengths with
  | nil => exact Orderly.fail _
  | cons outer rest => exact pushArray_orderly _ _

theorem resolve_adds {e : RefExpr} (he : e.Among rs) (v : Value) :
    Act.Adds Made rs (resolve e v) fun rs e' => e'.Among rs :=
  onHeap_adds (Heap.resolve_adds he v)

theorem resolveArray_adds {e : RefExpr} (he : e.Among rs) (a : HostArray) :
    Act.Adds Made rs (resolveArray e a) fun _ _ => True := by
  refine (resolve_adds he a.toValue).bind fun rs' _ x _ => ?_
  cases x with
  | null => exact Act.Adds.fail _
  | object r => exact ((Orderly.ensure _ _).bind fun _ => Orderly.pure r) rs'

theorem arrayLength_orderly (a : Option HostArray) : Orderly (arrayLength a) := by
  refine fun rs => popRef_adds.bind fun rs' _ e he => ?_
  cases a with
  | none => exact nullAccess_orderly rs'
  | some a =>
    refine (resolveArray_adds he a).bind fun rs'' _ r _ => Act.Adds.get_bind fun m _ => ?_
    exact pushAnswer_adds (o := .bv32 _) trivial false

theorem checkAccess_adds {e : RefExpr} (he : e.Among rs) (a : Option HostArray) (index : IntExpr)
    (n : Int32) : Act.Adds Made rs (checkAccess e a index n) fun _ _ => True := by
  cases a with
  | none => exact (nullAccess_orderly.discard.bind fun _ => Orderly.pure none) rs
  | some a =>
    refine (negativeIndex_orderly index n rs).bind fun rs₁ hsub negative _ => ?_
    cases negative with
    | true => exact Act.Adds.pure trivial
    | false =>
      refine (resolveArray_adds (he.mono hsub) a).bind fun rs₂ _ r _ => ?_
      exact Orderly.get_bind (fun m => Orderly.tested (indexTooBig_orderly _ _ _)
        (Orderly.pure _)) rs₂

theorem checkCast_orderly (type : String) : Orderly (checkCast type) :=
  (peek_orderly 0).bind fun _ => Orderly.ensure _ _

theorem instanceOf_orderly (v : Value) (type : String) : Orderly (instanceOf v type) := by
  refine popRef_orderly.discard.bind fun _ => ?_
  split
  · exact push_orderly fun _ => trivial
  · refine Orderly.get_bind fun m => ?_
    split
    · exact Orderly.fail _
    · split
      · exact Orderly.fail _
      · exact push_orderly fun _ => trivial
      · exact Orderly.fail _

theorem monitor_orderly (v : Value) : Orderly (monitor v) := by
  refine popRef_orderly.discard.bind fun _ => ?_
  split
  · exact nullAccess_orderly
  · exact Orderly.pure _

/-! ## 8. Stores and loads -/

theorem fieldTarget_adds (receiver : Value) (owner name desc : String) :
    Act.Adds Made rs (fieldTarget receiver owner name desc) fun rs x =>
      ∀ l o, x = some (l, o) → o.Among rs := by
  refine pop_adds.bind fun rs₁ _ o ho => ?_
  refine (Orderly.ofExcept _ rs₁).bind fun rs₂ hsub₂ w _ => ?_
  refine (Orderly.ensure _ _ rs₂).bind fun rs₃ hsub₃ _ _ => ?_
  refine popRef_adds.bind fun rs₄ hsub₄ e he => ?_
  split
  · exact (nullAccess_orderly rs₄).bind fun _ _ _ _ => Act.Adds.pure fun _ _ h => by cases h
  · refine (resolve_adds he receiver).bind fun rs₅ hsub₅ x _ => ?_
    cases x with
    | null => exact Act.Adds.fail _
    | object r =>
      refine Act.Adds.pure fun l o' h => ?_
      cases h
      exact (((ho.mono hsub₂).mono hsub₃).mono hsub₄).mono hsub₅

theorem staticTarget_adds (owner name desc : String) :
    Act.Adds Made rs (staticTarget owner name desc) fun rs x =>
      ∀ l o, x = some (l, o) → o.Among rs := by
  refine (prepare_orderly owner rs).bind fun rs₁ _ _ _ => pop_adds.bind fun rs₂ _ o ho => ?_
  refine (Orderly.ofExcept _ rs₂).bind fun rs₃ hsub₃ w _ => ?_
  refine (Orderly.ensure _ _ rs₃).bind fun rs₄ hsub₄ _ _ => Act.Adds.pure fun l o' h => ?_
  cases h
  exact (ho.mono hsub₃).mono hsub₄

theorem elemTarget_adds (w : Width) (a : Option HostArray) (n : Int32) :
    Act.Adds Made rs (elemTarget w a n) fun rs x => ∀ l o, x = some (l, o) → o.Among rs := by
  refine pop_adds.bind fun rs₁ _ o ho => (Orderly.ensure _ _ rs₁).bind fun rs₂ hsub₂ _ _ => ?_
  refine (popInt_orderly rs₂).bind fun rs₃ hsub₃ index _ => ?_
  refine popRef_adds.bind fun rs₄ hsub₄ e he => ?_
  refine (checkAccess_adds he a index n).bind fun rs₅ hsub₅ x _ => ?_
  cases x with
  | none => exact Act.Adds.pure fun _ _ h => by cases h
  | some p =>
    refine Act.Adds.pure fun l o' h => ?_
    cases h
    exact (((ho.mono hsub₂).mono hsub₃).mono hsub₄).mono hsub₅

theorem write_adds {x : Option (Location × Operand)}
    (hx : ∀ l o, x = some (l, o) → o.Among rs) :
    Act.Adds Made rs (write x) fun _ _ => True := by
  cases x with
  | none => exact Act.Adds.pure trivial
  | some p =>
    obtain ⟨l, o⟩ := p
    refine Act.Adds.of_keeps fun m hm => ⟨⟨hm.heap.put l (hx l o rfl), hm.frames⟩, ?_⟩
    exact fun _ _ => trivial

theorem fieldOrigin_orderly (receiver : Value) (owner name desc : String) (v : Value) :
    Orderly (fieldOrigin receiver owner name desc v) := by
  refine fun rs => popRef_adds.bind fun rs₁ _ e he => ?_
  split
  · exact (nullAccess_orderly.bind fun _ => Orderly.pure none) rs₁
  · refine (resolve_adds he receiver).bind fun rs₂ _ x _ => ?_
    cases x with
    | null => exact Act.Adds.fail _
    | object r => exact ((Orderly.ofExcept _).bind fun _ => Orderly.pure _) rs₂

theorem staticOrigin_orderly (owner name desc : String) (v : Value) :
    Orderly (staticOrigin owner name desc v) :=
  (prepare_orderly owner).bind fun _ => (Orderly.ofExcept _).bind fun _ => Orderly.pure _

theorem elemOrigin_orderly (w : Width) (a : Option HostArray) (n : Int32) :
    Orderly (elemOrigin w a n) := by
  refine fun rs => (popInt_orderly rs).bind fun rs₁ _ index _ => ?_
  refine popRef_adds.bind fun rs₂ _ e he => ?_
  refine (checkAccess_adds he a index n).bind fun rs₃ _ x _ => ?_
  cases x with
  | none => exact Act.Adds.pure trivial
  | some p =>
    refine Orderly.bind (a := element p.2 n) ?_ (fun _ => Orderly.pure _) rs₃
    unfold element
    split
    · exact Orderly.pure _
    · exact Orderly.fail _

theorem loaded_adds (l : Location) (w : Option Width) (v : Value) :
    Act.Adds Made rs (loaded l w v) fun rs o => o.Among rs := by
  refine Act.Adds.get_bind fun m hm => ?_
  refine (onHeap_adds (Heap.observe_adds w v fun x hx => hm.heap.stored? hx)).bind
    fun rs₁ _ y hy => ?_
  cases w with
  | none => exact Act.Adds.fail _
  | some w =>
    refine Act.Adds.get_bind fun m₁ hm₁ => Act.Adds.of_keeps (Act.Keeps.ofExcept fun o ho => ?_)
    exact Operand.among_ofExpr (hm₁.heap.current l hy) ho

theorem fetch_orderly (x : Option (Location × Option Width × Value)) : Orderly (fetch x) := by
  cases x with
  | none => exact Orderly.pure _
  | some p =>
    obtain ⟨l, w, v⟩ := p
    exact fun rs => (loaded_adds l w v).bind fun _ _ _ ho => pushAnswer_adds ho false

/-! ## 9. Calls -/

theorem pushFrame_adds {f : Frame} (hf : f.Each (Operand.Among rs)) :
    Act.Adds Made rs (pushFrame f) fun _ _ => True := by
  refine Act.Adds.bind (Q := fun _ _ => True) (Act.Adds.of_keeps (Act.Keeps.modify fun m hm => ?_))
    fun rs' _ _ _ => tell_orderly _ rs'
  exact ⟨hm.heap, List.forall_mem_cons.mpr ⟨hf, hm.frames⟩⟩

theorem popFrame_adds :
    Act.Adds Made rs popFrame fun rs f => f.Each (Operand.Among rs) := by
  refine Act.Adds.get_bind fun m hm => ?_
  split
  · exact Act.Adds.fail _
  next f rest hframes =>
    obtain ⟨hf, hrest⟩ := List.forall_mem_cons.mp (hframes ▸ hm.frames)
    refine Act.Adds.bind (Q := fun rs' _ => rs ⊆ rs')
      (Act.Adds.of_keeps (fun m' hm' => ⟨⟨hm'.heap, hrest⟩, fun _ _ => List.Subset.refl rs⟩))
      fun rs₁ _ _ hsub => (tell_orderly _ rs₁).bind fun rs₂ hsub₂ _ _ => Act.Adds.pure ?_
    exact hf.mono fun o ho => (ho.mono hsub).mono hsub₂

theorem popFrame_orderly : Orderly popFrame := fun _ => popFrame_adds.imp fun _ _ _ => trivial

theorem popArguments_adds (desc : String) :
    Act.Adds Made rs (popArguments desc) fun rs os => ∀ o ∈ os, o.Among rs :=
  (Orderly.ofExcept _ rs).bind fun _ _ _ _ => onStack_adds (popArgs_keeps desc _)

theorem fill_adds {f : Frame} (hf : f.Each (Operand.Among rs)) {a : Act Locals Unit}
    (ha : Act.Keeps (Locals.Each (Operand.Among rs)) a fun _ => True) :
    Act.Adds Made rs (fill f a) fun rs f' => f'.Each (Operand.Among rs) := by
  have hlocals := (ha f.locals hf.locals).1
  unfold fill
  split
  next t h =>
    rw [h] at hlocals
    exact Act.Adds.pure ⟨hf.stack, hlocals⟩
  · exact Act.Adds.fail _

theorem handOver_adds (method : MethodRef) (static : Bool) (size : Int) :
    Act.Adds Made rs (handOver method static size) fun rs f => f.Each (Operand.Among rs) := by
  refine (topFrame_orderly.discard rs).bind fun rs₁ _ _ _ => ?_
  refine (popArguments_adds _).bind fun rs₂ _ args hargs => ?_
  split
  · exact Act.Adds.fail _
  next f hf =>
    split
    · exact fill_adds (each_enter hf) (writeArguments_keeps hargs 0)
    · refine popRef_adds.bind fun rs₃ hsub₃ e he => ?_
      refine (fill_adds (each_enter hf) (Locals.write_keeps 0 (o := .ref e) he)).bind
        fun rs₄ hsub₄ f' hf' => fill_adds hf' (writeArguments_keeps (fun o ho => ?_) 1)
      exact ((hargs o ho).mono hsub₃).mono hsub₄

theorem enter_orderly (method : MethodRef) (static : Bool) (size : Int) :
    Orderly (enter method static size) := by
  rw [enter_eq]
  exact fun rs => (handOver_adds method static size).bind fun _ _ _ hf => pushFrame_adds hf

theorem leaveWith_orderly (w : Width) : Orderly (leaveWith w) := by
  refine fun rs => popFrame_adds.bind fun rs₁ _ f hf => ?_
  split
  · exact Act.Adds.fail _
  next o s hs =>
    refine (Orderly.ensure _ _ rs₁).bind fun rs₂ hsub _ _ => push_adds (Operand.Among.mono hsub ?_)
    refine hf.stack o ?_
    rw [hs]
    exact List.mem_cons_self

theorem callUnwatched_orderly (desc : String) (static : Bool) (result : Value) :
    Orderly (callUnwatched desc static result) := by
  have hargs : Orderly (popArguments desc) :=
    fun _ => (popArguments_adds desc).imp fun _ _ _ => trivial
  refine topFrame_orderly.discard.bind fun _ => hargs.discard.bind fun _ => ?_
  refine Orderly.ite_bind popRef_orderly.discard ((Orderly.ofExcept _).bind fun ws => ?_)
  obtain ⟨_, w⟩ := ws
  cases w with
  | none => exact Orderly.pure _
  | some w =>
    refine fun rs => (onHeap_adds (Heap.constant_adds _ result)).bind fun rs₁ _ x hx => ?_
    refine (Act.Adds.of_keeps (Act.Keeps.ofExcept fun o ho => ?_)).bind fun _ _ _ ho => push_adds ho
    exact Operand.among_ofExpr hx ho

theorem unwind_orderly (n fuel : Nat) : Orderly (unwind n fuel) := by
  induction fuel with
  | zero => exact Orderly.pure _
  | succ fuel ih =>
    refine Orderly.get_bind fun m => ?_
    split
    · exact popFrame_orderly.discard.bind fun _ => ih
    · exact Orderly.pure _

theorem throwTo_orderly (depth : Int) (exception : Value) : Orderly (throwTo depth exception) := by
  refine Orderly.get_bind fun m => (Orderly.ensure _ _).bind fun _ => ?_
  refine (unwind_orderly _ _).bind fun _ => ?_
  refine Orderly.bind (fun _ => onStack_adds Stack.clear_keeps) fun _ => ?_
  exact pushReference_orderly exception

end Machine

/-! ## 10. Instructions -/

namespace Instruction

theorem safely_orderly {a : Act Machine Unit} (ha : Machine.Orderly a) :
    Machine.Orderly (safely a) :=
  ha.bind fun _ => Machine.Orderly.pure _

theorem target_adds {rs : List Ref} (i : Instruction) :
    Act.Adds Machine.Made rs i.target fun rs x => ∀ l o, x = some (l, o) → o.Among rs := by
  cases i with
  | putField v o n d => exact Machine.fieldTarget_adds v o n d
  | putStatic o n d => exact Machine.staticTarget_adds o n d
  | arrayStore w a n => exact Machine.elemTarget_adds w a n
  | _ => exact Act.Adds.pure fun _ _ h => by cases h

theorem origin_orderly (i : Instruction) : Machine.Orderly i.origin := by
  cases i with
  | getField r o n d v => exact Machine.fieldOrigin_orderly r o n d v
  | getStatic o n d v => exact Machine.staticOrigin_orderly o n d v
  | arrayLoad w a n => exact Machine.elemOrigin_orderly w a n
  | _ => exact Machine.Orderly.pure _

open Machine in
theorem exec_orderly_of_plain {i : Instruction} (hload : i.isLoad = false)
    (hstore : i.isStore = false) : Orderly i.exec := by
  cases i with
  | pushNull | pushInt | pushLong | pushFloat | pushDouble =>
    exact safely_orderly (push_orderly fun _ => trivial)
  | pushConstant v => exact safely_orderly (pushConstant_orderly v)
  | load w i => exact safely_orderly (load_orderly w i)
  | store w i => exact safely_orderly (store_orderly w i)
  | increment i d => exact safely_orderly (increment_orderly i d)
  | intOp | intShift =>
    exact safely_orderly (popInt_orderly.bind fun _ => popInt_orderly.bind fun _ =>
      push_orderly fun _ => trivial)
  | intDivide op d => exact intDivide_orderly op d
  | intNegate => exact safely_orderly (popInt_orderly.bind fun _ => push_orderly fun _ => trivial)
  | longOp | longCompare =>
    exact safely_orderly (popLong_orderly.bind fun _ => popLong_orderly.bind fun _ =>
      push_orderly fun _ => trivial)
  | longShift =>
    exact safely_orderly (popInt_orderly.bind fun _ => popLong_orderly.bind fun _ =>
      push_orderly fun _ => trivial)
  | longDivide op d => exact longDivide_orderly op d
  | longNegate => exact safely_orderly (popLong_orderly.bind fun _ => push_orderly fun _ => trivial)
  | floatOp | floatCompare =>
    exact safely_orderly (popFloat_orderly.bind fun _ => popFloat_orderly.bind fun _ =>
      push_orderly fun _ => trivial)
  | floatNegate =>
    exact safely_orderly (popFloat_orderly.bind fun _ => push_orderly fun _ => trivial)
  | doubleOp | doubleCompare =>
    exact safely_orderly (popDouble_orderly.bind fun _ => popDouble_orderly.bind fun _ =>
      push_orderly fun _ => trivial)
  | doubleNegate =>
    exact safely_orderly (popDouble_orderly.bind fun _ => push_orderly fun _ => trivial)
  | convert c => exact safely_orderly (convert_orderly c)
  | shuffle sh => exact safely_orderly fun _ => onStack_adds (Stack.shuffle_keeps sh)
  | branchZero => exact safely_orderly (popInt_orderly.bind fun _ => decideBranch_orderly _ _)
  | branchCompare =>
    exact safely_orderly (popInt_orderly.bind fun _ => popInt_orderly.bind fun _ =>
      decideBranch_orderly _ _)
  | branchNull => exact safely_orderly popRef_orderly.discard
  | branchSame =>
    exact safely_orderly (popRef_orderly.discard.bind fun _ => popRef_orderly.discard)
  | tableSwitch b low high => exact safely_orderly (tableSwitch_orderly b low high)
  | lookupSwitch b keys => exact safely_orderly (lookupSwitch_orderly b keys)
  | newObject c => exact safely_orderly (newObject_orderly c)
  | newArray n c => exact newArray_orderly n c
  | newMultiArray t dims => exact newMultiArray_orderly t dims
  | arrayLength a => exact arrayLength_orderly a
  | checkCast t => exact safely_orderly (checkCast_orderly t)
  | instanceOf v t => exact safely_orderly (instanceOf_orderly v t)
  | monitor v => exact monitor_orderly v
  | enter method static size => exact safely_orderly (enter_orderly method static size)
  | leave => exact safely_orderly popFrame_orderly.discard
  | leaveWith w => exact safely_orderly (leaveWith_orderly w)
  | callUnwatched d static v => exact safely_orderly (callUnwatched_orderly d static v)
  | throwTo d v => exact safely_orderly (throwTo_orderly d v)
  | arrayLoad | getField | getStatic => cases hload
  | arrayStore | putField | putStatic => cases hstore

/-- **Every instruction keeps to the references that were made.** -/
theorem exec_orderly (i : Instruction) : Machine.Orderly i.exec := by
  cases hstore : i.isStore with
  | true =>
    rw [exec_store hstore]
    exact fun rs => (target_adds i).bind fun _ _ _ hx => Machine.write_adds hx
  | false =>
    cases hload : i.isLoad with
    | true =>
      rw [exec_load hload]
      exact (origin_orderly i).bind Machine.fetch_orderly
    | false => exact exec_orderly_of_plain hload hstore

end Instruction

/-- **In every machine that can be reached, one number is one reference.** -/
theorem Machine.Reachable.made {m : Machine} (h : m.Reachable) : ∃ rs, m.Made rs := by
  induction h with
  | @start m t ht hheap hframes =>
    obtain ⟨rs, hm, hissued⟩ := ht.made
    refine ⟨rs, hheap ▸ hm, fun f hf => (hframes f hf).mono fun o ho => ?_⟩
    cases o with
    | ref e =>
      cases e with
      | null => trivial
      | object r => exact hissued (ho r rfl)
    | _ => trivial
  | step i _ ih =>
    obtain ⟨rs, hm⟩ := ih
    obtain ⟨rs', -, hm', -⟩ := i.exec_orderly rs _ hm
    exact ⟨rs', hm'⟩

end Concolic
