import Concolic.Proofs.Moves
import Concolic.Proofs.Reports

/-
# The expressions in a machine

Integer expressions stand on the stacks, in the locals and in the heap.  `All E` says that every one
of them satisfies `E`.  The stack, the locals and the heap keep that (`Act.Keeps`), if what the
builders make of expressions with `E` has `E` as well (`Closed`).
-/
namespace Concolic

variable {E : IntExpr → Prop}

/-! ## 1. All expressions -/

def Expr.All (E : IntExpr → Prop) : Expr → Prop
  | int e => E e
  | _ => True

def Operand.All (E : IntExpr → Prop) : Operand → Prop
  | bv32 e => E e
  | bv64 e => E e
  | _ => True

def Stack.All (E : IntExpr → Prop) (s : Stack) : Prop := ∀ o ∈ s, o.All E

def Locals.All (E : IntExpr → Prop) (t : Locals) : Prop := ∀ o, some o ∈ t.slots → o.All E

structure Frame.All (E : IntExpr → Prop) (f : Frame) : Prop where
  stack : f.stack.All E
  locals : f.locals.All E

structure Heap.All (E : IntExpr → Prop) (h : Heap) : Prop where
  fields : ∀ p ∈ h.fields, p.2.All E
  elems : ∀ p ∈ h.elems, p.2.All E

structure Core.All (E : IntExpr → Prop) (c : Core) : Prop where
  frames : ∀ f ∈ c.frames, f.All E
  heap : c.heap.All E

/-- What the builders make of expressions with `E` has `E`. -/
structure Closed (E : IntExpr → Prop) : Prop where
  const : ∀ v, E (.const v)
  combine : ∀ {l r : IntExpr}, E l → E r → ∀ op c, E (l.combine op r c)
  apply : ∀ {x : IntExpr}, E x → ∀ op c, E (x.apply op c)
  threeWay : ∀ {l r : IntExpr}, E l → E r →
    E (l.threeWay r (threeWayInt l.concrete r.concrete))
  threeWayReal : ∀ l r c, E (.threeWayReal l r c)
  castReal : ∀ x c, E (.castReal x c)

theorem closed_true : Closed fun _ => True :=
  ⟨fun _ => trivial, fun _ _ _ _ => trivial, fun _ _ _ => trivial, fun _ _ => trivial,
    fun _ _ _ => trivial, fun _ _ => trivial⟩

theorem Operand.all_true (o : Operand) : o.All fun _ => True := by
  cases o <;> trivial

theorem Core.all_true (c : Core) : c.All fun _ => True := by
  have hexpr : ∀ e : Expr, e.All fun _ => True := fun e => by cases e <;> trivial
  exact ⟨fun f _ => ⟨fun o _ => o.all_true, fun o _ => o.all_true⟩,
    ⟨fun p _ => hexpr p.2, fun p _ => hexpr p.2⟩⟩

theorem Operand.all_expr {o : Operand} : o.expr.All E ↔ o.All E := by
  cases o <;> exact Iff.rfl

theorem Operand.all_ofExpr {w : Width} {e : Expr} {o : Operand} (he : e.All E)
    (h : ofExpr w e = .ok o) : o.All E := by
  unfold ofExpr at h
  split at h <;> cases h <;> exact he

/-! ## 2. Actions on a part of the machine -/

/-- The action keeps `I`, failing or not, and its answers satisfy `Q`. -/
def Act.Keeps (I : σ → Prop) (a : Act σ α) (Q : α → Prop) : Prop :=
  ∀ s, I s → I (a s).2 ∧ ∀ x, (a s).1 = .ok x → Q x

namespace Act.Keeps

variable {I : σ → Prop} {a : Act σ α} {g : α → Act σ β} {Q : α → Prop} {R : β → Prop}

theorem pure {x : α} (h : Q x) : Keeps I (Pure.pure x) Q := by
  intro s hs
  refine ⟨hs, fun y hy => ?_⟩
  cases hy
  exact h

theorem fail (e : Failure) : Keeps I (Act.fail e) Q := by
  intro s hs
  refine ⟨hs, fun y hy => ?_⟩
  cases hy

theorem bind (ha : Keeps I a Q) (hg : ∀ x, Q x → Keeps I (g x) R) : Keeps I (a >>= g) R := by
  intro s hs
  obtain ⟨hI, hQ⟩ := ha s hs
  rw [Act.bind_apply]
  rcases h : a s with ⟨e | x, t⟩
  · rw [h] at hI
    refine ⟨hI, fun y hy => ?_⟩
    cases hy
  · rw [h] at hI hQ
    exact hg x (hQ x rfl) t hI

theorem get_bind {g : σ → Act σ β} (hg : ∀ s, I s → Keeps I (g s) R) : Keeps I (get >>= g) R :=
  fun s hs => hg s hs s hs

theorem set_bind {t : σ} {g : PUnit → Act σ β} (ht : I t) (hg : Keeps I (g ()) R) :
    Keeps I (set t >>= g) R :=
  fun _ _ => hg t ht

theorem modify {f : σ → σ} (hf : ∀ s, I s → I (f s)) :
    Keeps I (modify f : Act σ PUnit) fun _ => True :=
  fun s hs => ⟨hf s hs, fun _ _ => trivial⟩

theorem ensure (b : Bool) (v : Violation) : Keeps I (Act.ensure b v) fun _ => b = true := by
  cases b with
  | true => exact pure rfl
  | false => exact fail _

theorem ofExcept {r : Except Violation α} (h : ∀ x, r = .ok x → Q x) :
    Keeps I (Act.ofExcept r) Q := by
  cases r with
  | ok x => exact pure (h x rfl)
  | error v => exact fail _

end Act.Keeps

/-! ## 3. Stacks -/

/-- Every operand on the stack satisfies `P`. -/
def Stack.Each (P : Operand → Prop) (s : Stack) : Prop := ∀ o ∈ s, P o

/-- Every operand in the locals satisfies `P`. -/
def Locals.Each (P : Operand → Prop) (t : Locals) : Prop := ∀ o, some o ∈ t.slots → P o

section

variable {P : Operand → Prop}

namespace Stack

theorem Each.cons {o : Operand} {s : Stack} (ho : P o) (hs : Each P s) : Each P (o :: s) := by
  intro o' ho'
  rcases List.mem_cons.mp ho' with rfl | hmem
  · exact ho
  · exact hs o' hmem

theorem push_keeps {o : Operand} (ho : P o) :
    Act.Keeps (Each P) (push o) fun _ => True :=
  Act.Keeps.modify fun _ hs => hs.cons ho

theorem pop_keeps : Act.Keeps (Each P) pop P := by
  intro s hs
  cases s with
  | nil => exact ⟨hs, fun x hx => by cases hx⟩
  | cons o s =>
    refine ⟨fun o' ho' => hs o' (List.mem_cons_of_mem o ho'), fun x hx => ?_⟩
    cases hx
    exact hs o List.mem_cons_self

theorem peek_keeps (i : Int) : Act.Keeps (Each P) (peek i) P := by
  refine Act.Keeps.get_bind fun s hs => ?_
  split
  · exact Act.Keeps.fail _
  · split
    next o ho => exact Act.Keeps.pure (hs o (List.mem_of_getElem? ho))
    · exact Act.Keeps.fail _

theorem clear_keeps : Act.Keeps (Each P) clear fun _ => True :=
  fun _ _ => ⟨fun _ ho => absurd ho List.not_mem_nil, fun _ _ => trivial⟩

theorem popInt_keeps : Act.Keeps (Each P) popInt fun e => P (.bv32 e) := by
  refine pop_keeps.bind fun o ho => ?_
  cases o with
  | bv32 e => exact Act.Keeps.pure ho
  | _ => exact Act.Keeps.fail _

theorem popLong_keeps : Act.Keeps (Each P) popLong fun e => P (.bv64 e) := by
  refine pop_keeps.bind fun o ho => ?_
  cases o with
  | bv64 e => exact Act.Keeps.pure ho
  | _ => exact Act.Keeps.fail _

theorem popFloat_keeps : Act.Keeps (Each P) popFloat fun e => P (.fp32 e) := by
  refine pop_keeps.bind fun o ho => ?_
  cases o with
  | fp32 e => exact Act.Keeps.pure ho
  | _ => exact Act.Keeps.fail _

theorem popDouble_keeps : Act.Keeps (Each P) popDouble fun e => P (.fp64 e) := by
  refine pop_keeps.bind fun o ho => ?_
  cases o with
  | fp64 e => exact Act.Keeps.pure ho
  | _ => exact Act.Keeps.fail _

theorem popRef_keeps : Act.Keeps (Each P) popRef fun e => P (.ref e) := by
  refine pop_keeps.bind fun o ho => ?_
  cases o with
  | ref e => exact Act.Keeps.pure ho
  | _ => exact Act.Keeps.fail _

theorem popCategory_keeps (n : Nat) : Act.Keeps (Each P) (popCategory n) P :=
  pop_keeps.bind fun _ ho => (Act.Keeps.ensure _ _).bind fun _ _ => Act.Keeps.pure ho

theorem pushAll_keeps {os : List Operand} (h : ∀ o ∈ os, P o) :
    Act.Keeps (Each P) (pushAll os) fun _ => True := by
  intro s hs
  rw [pushAll_apply]
  refine ⟨fun o ho => ?_, fun _ _ => trivial⟩
  rcases List.mem_append.mp ho with ho | ho
  · exact h o (List.mem_reverse.mp ho)
  · exact hs o ho

theorem takeBlock_keeps (n : Nat) :
    Act.Keeps (Each P) (takeBlock n) fun b => ∀ o ∈ b, P o := by
  have hone : ∀ {o : Operand}, P o → ∀ o' ∈ [o], P o' := by
    intro o ho o' ho'
    cases List.mem_singleton.mp ho'
    exact ho
  unfold takeBlock
  split
  · refine (Act.Keeps.bind (peek_keeps 0) fun _ _ =>
      Act.Keeps.pure (Q := fun _ => True) trivial).bind fun d _ => ?_
    split
    · exact (popCategory_keeps 2).bind fun _ ho => Act.Keeps.pure (hone ho)
    · refine (popCategory_keeps 1).bind fun a ha => (popCategory_keeps 1).bind fun b hb => ?_
      exact Act.Keeps.pure (Each.cons ha (hone hb))
  · exact (popCategory_keeps 1).bind fun _ ho => Act.Keeps.pure (hone ho)

theorem takeBlocks_keeps (ns : List Nat) :
    Act.Keeps (Each P) (takeBlocks ns) fun bs => ∀ b ∈ bs, ∀ o ∈ b, P o := by
  induction ns with
  | nil => exact Act.Keeps.pure fun b hb => by cases hb
  | cons n ns ih =>
    refine (takeBlock_keeps n).bind fun b hb => ih.bind fun bs hbs => Act.Keeps.pure ?_
    intro b' hb'
    rcases List.mem_cons.mp hb' with rfl | hmem
    · exact hb
    · exact hbs b' hmem

theorem shuffle_keeps (sh : Shuffle) : Act.Keeps (Each P) (shuffle sh) fun _ => True := by
  rw [shuffle_eq]
  refine (takeBlocks_keeps _).bind fun bs hbs => pushAll_keeps fun o ho => ?_
  obtain ⟨i, -, hi⟩ := List.mem_flatMap.mp (List.mem_reverse.mp ho)
  rw [List.getD_eq_getElem?_getD] at hi
  cases hb : bs[i]? with
  | none =>
    rw [hb] at hi
    cases hi
  | some b =>
    rw [hb] at hi
    exact hbs b (List.mem_of_getElem? hb) o hi

end Stack

/-! ## 4. Locals -/

namespace Locals

theorem read_keeps (i : Int) : Act.Keeps (Each P) (read i) P := by
  refine Act.Keeps.get_bind fun t ht => (Act.Keeps.ensure _ _).bind fun _ _ => ?_
  split
  next o ho => exact Act.Keeps.pure (ht o (List.mem_of_getElem? ho))
  · exact Act.Keeps.fail _

theorem readInt_keeps (i : Int) : Act.Keeps (Each P) (readInt i) fun e => P (.bv32 e) := by
  refine (read_keeps i).bind fun o ho => ?_
  cases o with
  | bv32 e => exact Act.Keeps.pure ho
  | _ => exact Act.Keeps.fail _

theorem Each.put {t : Locals} (ht : t.Each P) (i : Nat) {x : Option Operand}
    (hx : ∀ o, x = some o → P o) : (t.put i x).Each P := by
  intro o ho
  rcases List.mem_or_eq_of_mem_set ho with hmem | heq
  · exact ht o hmem
  · exact hx o heq.symm

theorem Each.place {t : Locals} (ht : t.Each P) (i : Nat) {o : Operand} (ho : P o) :
    (t.place i o).Each P := by
  unfold Locals.place
  refine Each.put ?_ i fun o' h => ?_
  · split
    · exact ht.put _ fun o' h => by cases h
    · exact ht
  · cases h
    exact ho

theorem write_keeps (i : Int) {o : Operand} (ho : P o) :
    Act.Keeps (Each P) (write i o) fun _ => True := by
  refine Act.Keeps.get_bind fun t ht => (Act.Keeps.ensure _ _).bind fun _ _ => ?_
  refine Act.Keeps.set_bind (ht.place _ ho) ?_
  split
  · refine (Act.Keeps.ensure _ _).bind fun _ _ => Act.Keeps.modify fun t ht => ?_
    exact ht.put _ fun o' h => by cases h
  · exact Act.Keeps.pure trivial

end Locals

end

/-! ## 5. The heap -/

theorem Table.mem_of_get? {same : κ → κ → Bool} {t : Table κ α} {k : κ} {a : α}
    (h : t.get? same k = some a) : ∃ p ∈ t, p.2 = a := by
  obtain ⟨p, hp, rfl⟩ := Option.map_eq_some_iff.mp h
  exact ⟨p, List.mem_of_find?_eq_some hp, rfl⟩

theorem Table.mem_insert {same : κ → κ → Bool} {k : κ} {a : α} {p : κ × α} :
    ∀ {t : Table κ α}, p ∈ t.insert same k a → p = (k, a) ∨ p ∈ t
  | [], h => Or.inl (List.mem_singleton.mp h)
  | q :: t, h => by
    unfold Table.insert at h
    split at h
    · exact (List.mem_cons.mp h).imp_right (List.mem_cons_of_mem q)
    · rcases List.mem_cons.mp h with rfl | hmem
      · exact Or.inr List.mem_cons_self
      · exact (Table.mem_insert hmem).imp_right (List.mem_cons_of_mem q)

namespace Heap

theorem All.putField {h : Heap} (hh : h.All E) (k : FieldKey) {e : Expr} (he : e.All E) :
    (h.putField k e).All E := by
  refine ⟨fun p hp => ?_, hh.elems⟩
  rcases Table.mem_insert hp with rfl | hmem
  · exact he
  · exact hh.fields p hmem

theorem All.putElem {h : Heap} (hh : h.All E) (k : ElemKey) {e : Expr} (he : e.All E) :
    (h.putElem k e).All E := by
  refine ⟨hh.fields, fun p hp => ?_⟩
  rcases Table.mem_insert hp with rfl | hmem
  · exact he
  · exact hh.elems p hmem

theorem all_current {stored : Option Expr} {observed : Expr} (hs : ∀ e, stored = some e → e.All E)
    (ho : observed.All E) : (current stored observed).All E := by
  unfold current
  split
  next e =>
    split
    · exact hs e rfl
    · exact ho
  · exact ho

theorem All.field {h : Heap} (hh : h.All E) (k : FieldKey) {e : Expr} (he : e.All E) :
    (h.field k e).All E := by
  refine all_current (fun e' he' => ?_) he
  obtain ⟨p, hp, rfl⟩ := Table.mem_of_get? he'
  exact hh.fields p hp

theorem All.elem {h : Heap} (hh : h.All E) (k : ElemKey) {e : Expr} (he : e.All E) :
    (h.elem k e).All E := by
  refine all_current (fun e' he' => ?_) he
  obtain ⟨p, hp, rfl⟩ := Table.mem_of_get? he'
  exact hh.elems p hp

theorem All.arrayLength (hE : Closed E) {h : Heap} (hh : h.All E) (r : Ref) (n : Int64) :
    E (h.arrayLength r n) := by
  have hfield := hh.field (lengthKey r) (e := .int (.const n)) (hE.const n)
  unfold Heap.arrayLength
  split
  next e he =>
    rw [he] at hfield
    exact hfield
  · exact hE.const n

theorem new_keeps (type : String) : Act.Keeps (All E) (new type) fun _ => True :=
  Act.Keeps.get_bind fun _ hh =>
    Act.Keeps.set_bind ⟨hh.fields, hh.elems⟩ (Act.Keeps.pure trivial)

theorem newArray_keeps (type : String) {length : IntExpr} (hl : E length) :
    Act.Keeps (All E) (newArray type length) fun _ => True := by
  refine (new_keeps type).bind fun r _ => ?_
  exact (Act.Keeps.modify fun _ hh => hh.putField (lengthKey r) hl).bind fun _ _ =>
    Act.Keeps.pure trivial

theorem bind_keeps (v : Value) (r : Ref) : Act.Keeps (All E) (bind v r) fun _ => True :=
  (Act.Keeps.ensure _ _).bind fun _ _ => (Act.Keeps.ensure _ _).bind fun _ _ =>
    Act.Keeps.modify fun _ hh => ⟨hh.fields, hh.elems⟩

theorem reference_keeps (v : Value) : Act.Keeps (All E) (reference v) fun _ => True := by
  unfold reference
  split
  · exact Act.Keeps.pure trivial
  · refine Act.Keeps.get_bind fun h _ => ?_
    split
    · exact Act.Keeps.pure trivial
    · refine (new_keeps _).bind fun r _ => ?_
      exact (bind_keeps v r).bind fun _ _ => Act.Keeps.pure trivial

theorem resolve_keeps (e : RefExpr) (v : Value) :
    Act.Keeps (All E) (resolve e v) fun _ => True := by
  unfold resolve
  split
  · exact Act.Keeps.pure trivial
  · refine Act.Keeps.get_bind fun h _ => ?_
    split
    · exact Act.Keeps.pure trivial
    · cases e with
      | null => exact reference_keeps v
      | object r =>
        refine Act.Keeps.get_bind fun h _ => ?_
        split
        · exact reference_keeps v
        · exact (bind_keeps v r).bind fun _ _ => Act.Keeps.pure trivial

theorem constant_keeps (hE : Closed E) (w : Option Width) (v : Value) :
    Act.Keeps (All E) (constant w v) (Expr.All E) := by
  have hany : ∀ {α : Type} (r : Except Violation α),
      Act.Keeps (All E) (Act.ofExcept r) fun _ => True :=
    fun _ => Act.Keeps.ofExcept fun _ _ => trivial
  unfold constant
  split
  · exact (hany _).bind fun _ _ => Act.Keeps.pure (hE.const _)
  · exact (hany _).bind fun _ _ => Act.Keeps.pure (hE.const _)
  · exact (hany _).bind fun _ _ => Act.Keeps.pure trivial
  · exact (hany _).bind fun _ _ => Act.Keeps.pure trivial
  · exact (reference_keeps v).bind fun _ _ => Act.Keeps.pure trivial
  · exact Act.Keeps.fail _

theorem observe_keeps (hE : Closed E) (w : Option Width) (v : Value) (stored : Option Expr) :
    Act.Keeps (All E) (observe w v stored) (Expr.All E) := by
  unfold observe
  split
  · exact (resolve_keeps _ v).bind fun _ _ => Act.Keeps.pure trivial
  · exact constant_keeps hE w v

end Heap

end Concolic
