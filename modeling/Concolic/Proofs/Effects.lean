import Concolic.Proofs.Contents

/-
# What instructions do

`Does E P a Q` says three things of an action on the machine: that it keeps `E` of all integer
expressions in the machine, that every constraint it reports satisfies `P`, and that its answer
satisfies `Q`.  All of them hold whether the action fails or not.  Most actions report nothing, and
then `P` is arbitrary.

The instructions are put together with `Does.bind`.  Some of them report on an operand and go by a
number that the host saw in its place; `Triple` adds what is known of the stack before.
-/
namespace Concolic

/-- The action keeps `E` in the machine and reports only constraints with `P`.  If `pre` holds of
the operands before, `post` holds of its answer and of the operands after. -/
def Triple (E : IntExpr → Prop) (P : Constraint → Prop) (pre : Stack → Prop) (a : Act Machine α)
    (post : α → Stack → Prop) : Prop :=
  ∀ c : Core, c.All E → pre c.operands →
    ∃ res c' reps, Tells c a res c' reps ∧ c'.All E ∧ (∀ rep ∈ reps, P rep.constraint) ∧
      ∀ x, res = .ok x → post x c'.operands

/-- `Triple` without conditions on the operands. -/
def Does (E : IntExpr → Prop) (P : Constraint → Prop) (a : Act Machine α) (Q : α → Prop) : Prop :=
  Triple E P (fun _ => True) a fun x _ => Q x

variable {E : IntExpr → Prop} {P : Constraint → Prop}

/-! ## 1. Rules -/

/-- An action that reports nothing, from what it does to the core. -/
theorem Triple.of_silent {pre : Stack → Prop} {a : Act Machine α} {post : α → Stack → Prop}
    (h : ∀ c : Core, c.All E → pre c.operands →
      ∃ res c', Tells c a res c' [] ∧ c'.All E ∧ ∀ x, res = .ok x → post x c'.operands) :
    Triple E P pre a post := by
  intro c hc hpre
  obtain ⟨res, c', htells, hc', hpost⟩ := h c hc hpre
  exact ⟨res, c', [], htells, hc', fun _ h => absurd h List.not_mem_nil, hpost⟩

theorem Triple.bind {pre : Stack → Prop} {a : Act Machine α} {Q : α → Stack → Prop}
    {g : α → Act Machine β} {post : β → Stack → Prop} (ha : Triple E P pre a Q)
    (hg : ∀ x s, Q x s → Triple E P (Q x) (g x) post) : Triple E P pre (a >>= g) post := by
  intro c hc hpre
  obtain ⟨res, c₁, reps, htells, hc₁, hP, hQ⟩ := ha c hc hpre
  cases res with
  | error e => exact ⟨.error e, c₁, reps, htells.bind_error, hc₁, hP, fun x hx => by cases hx⟩
  | ok x =>
    have hx := hQ x rfl
    obtain ⟨res', c₂, reps', htells', hc₂, hP', hpost⟩ := hg x _ hx c₁ hc₁ hx
    refine ⟨res', c₂, reps ++ reps', htells.bind htells', hc₂, fun rep hrep => ?_, hpost⟩
    rcases List.mem_append.mp hrep with h | h
    · exact hP rep h
    · exact hP' rep h

theorem Triple.weaken {pre pre' : Stack → Prop} {a : Act Machine α} {post : α → Stack → Prop}
    (ha : Triple E P pre a post) (h : ∀ s, pre' s → pre s) : Triple E P pre' a post :=
  fun c hc hpre => ha c hc (h _ hpre)

theorem Does.weaken {pre : Stack → Prop} {a : Act Machine α} {Q : α → Prop}
    (ha : Does E P a Q) : Triple E P pre a fun x _ => Q x :=
  Triple.weaken ha fun _ _ => trivial

theorem Triple.ensure_bind {pre : Stack → Prop} {b : Bool} {v : Violation}
    {g : Unit → Act Machine α} {post : α → Stack → Prop}
    (hg : b = true → Triple E P pre (g ()) post) :
    Triple E P pre (Act.ensure b v >>= g) post := by
  cases b with
  | true => exact hg rfl
  | false =>
    exact Triple.of_silent fun c hc _ =>
      ⟨_, c, (Tells.fail _).bind_error, hc, fun _ h => by cases h⟩

namespace Does

variable {a : Act Machine α} {g : α → Act Machine β} {Q : α → Prop} {R : β → Prop}

theorem pure {x : α} (h : Q x) : Does E P (Pure.pure x) Q :=
  Triple.of_silent fun c hc _ => ⟨_, c, Tells.pure x, hc, fun y hy => by cases hy; exact h⟩

theorem fail (e : Failure) : Does E P (Act.fail e) Q :=
  Triple.of_silent fun c hc _ => ⟨_, c, Tells.fail e, hc, fun y hy => by cases hy⟩

theorem bind (ha : Does E P a Q) (hg : ∀ x, Q x → Does E P (g x) R) : Does E P (a >>= g) R :=
  Triple.bind ha fun x _ hx => (hg x hx).weaken

theorem imp {Q' : α → Prop} (ha : Does E P a Q) (h : ∀ x, Q x → Q' x) : Does E P a Q' := by
  intro c hc hpre
  obtain ⟨res, c', reps, htells, hc', hP, hQ⟩ := ha c hc hpre
  exact ⟨res, c', reps, htells, hc', hP, fun x hx => h x (hQ x hx)⟩

/-- An action that may be left out, before another one. -/
theorem ite_bind {p : Prop} [Decidable p] {a : Act Machine Unit} {b : Act Machine β}
    (ha : Does E P a fun _ => True) (hb : Does E P b R) :
    Does E P (if p then a >>= fun _ => b else b) R := by
  split
  · exact ha.bind fun _ _ => hb
  · exact hb

theorem discard (ha : Does E P a Q) : Does E P (Functor.discard a) fun _ => True :=
  ha.bind (g := fun _ => Pure.pure ()) fun _ _ => pure trivial

theorem ensure (b : Bool) (v : Violation) : Does E P (Act.ensure b v) fun _ => b = true := by
  cases b with
  | true => exact pure rfl
  | false => exact fail _

theorem ofExcept {r : Except Violation α} (h : ∀ x, r = .ok x → Q x) :
    Does E P (Act.ofExcept r) Q := by
  cases r with
  | ok x => exact pure (h x rfl)
  | error v => exact fail _

/-- An action that looks at the machine, but not at its collector and its log. -/
theorem get_bind {g : Machine → Act Machine β}
    (hcore : ∀ (m : Machine) k log, g (m.core.machine k log) = g m)
    (hg : ∀ m : Machine, m.core.All E → Does E P (g m) R) : Does E P (get >>= g) R := by
  intro c hc hpre
  obtain ⟨res, c', reps, htells, rest⟩ := hg (c.machine (.calls []) []) hc c hc hpre
  exact ⟨res, c', reps, htells.get_bind hcore, rest⟩

/-- An action that changes the core. -/
theorem modify {f : Machine → Machine} (f' : Core → Core)
    (hf : ∀ c k log, f (Core.machine c k log) = (f' c).machine k log)
    (hall : ∀ c : Core, c.All E → (f' c).All E) :
    Does E P (modify f : Act Machine PUnit) fun _ => True := by
  refine Triple.of_silent fun c hc _ => ⟨.ok (), f' c, fun k log => ⟨log, ?_⟩, hall c hc,
    fun _ _ => trivial⟩
  change (Except.ok (), f (c.machine k log)) = _
  rw [hf]
  rfl

/-- An action that reports nothing. -/
theorem silent (ha : Does E (fun _ => False) a Q) {c : Core} (hc : c.All E) :
    ∃ res c', Tells c a res c' [] ∧ c'.All E ∧ ∀ x, res = .ok x → Q x := by
  obtain ⟨res, c', reps, htells, hc', hnone, hQ⟩ := ha c hc trivial
  have hnil : reps = [] := List.eq_nil_iff_forall_not_mem.mpr hnone
  subst hnil
  exact ⟨res, c', htells, hc', hQ⟩

end Does

/-! ## 2. Parts of the machine -/

namespace Machine

/-- An action on the stack, with what is known of the operands before and after. -/
theorem onStack_triple {a : Act Stack α} {pre : Stack → Prop} {post : α → Stack → Prop}
    (ha : ∀ s, s.All E → pre s → (a s).2.All E ∧ ∀ x, (a s).1 = .ok x → post x (a s).2) :
    Triple E P pre (onStack a) post := by
  refine Triple.of_silent fun c hc hpre => ?_
  cases hf : c.frames with
  | nil => exact ⟨_, c, onTop_tells_nil hf _, hc, fun x hx => by cases hx⟩
  | cons f rest =>
    have hall := hc.frames
    rw [hf] at hall
    rw [Core.operands_eq hf] at hpre
    obtain ⟨hs, hQ⟩ := ha f.stack (hall f List.mem_cons_self).stack hpre
    refine ⟨_, _, onStack_tells hf a, ⟨?_, hc.heap⟩, hQ⟩
    intro f' hf'
    rcases List.mem_cons.mp hf' with rfl | hmem
    · exact ⟨hs, (hall f List.mem_cons_self).locals⟩
    · exact hall f' (List.mem_cons_of_mem f hmem)

theorem onStack_does {a : Act Stack α} {Q : α → Prop} (ha : Act.Keeps (Stack.All E) a Q) :
    Does E P (onStack a) Q :=
  onStack_triple fun s hs _ => ha s hs

theorem onLocals_does {a : Act Locals α} {Q : α → Prop} (ha : Act.Keeps (Locals.All E) a Q) :
    Does E P (onLocals a) Q := by
  refine Triple.of_silent fun c hc _ => ?_
  cases hf : c.frames with
  | nil => exact ⟨_, c, onTop_tells_nil hf _, hc, fun x hx => by cases hx⟩
  | cons f rest =>
    have hall := hc.frames
    rw [hf] at hall
    obtain ⟨ht, hQ⟩ := ha f.locals (hall f List.mem_cons_self).locals
    refine ⟨_, _, onLocals_tells hf a, ⟨?_, hc.heap⟩, hQ⟩
    intro f' hf'
    rcases List.mem_cons.mp hf' with rfl | hmem
    · exact ⟨(hall f List.mem_cons_self).stack, ht⟩
    · exact hall f' (List.mem_cons_of_mem f hmem)

theorem onHeap_does {a : Act Heap α} {Q : α → Prop} (ha : Act.Keeps (Heap.All E) a Q) :
    Does E P (onHeap a) Q := by
  refine Triple.of_silent fun c hc _ => ?_
  obtain ⟨hh, hQ⟩ := ha c.heap hc.heap
  exact ⟨_, _, onHeap_tells a, ⟨hc.frames, hh⟩, hQ⟩

theorem push_does {o : Operand} (ho : o.All E) : Does E P (push o) fun _ => True :=
  onStack_does (Stack.push_keeps ho)

theorem tell_does (e : Event) : Does E P (tell e) fun _ => True :=
  Triple.of_silent fun c hc _ => ⟨_, c, tell_tells e, hc, fun _ _ => trivial⟩

theorem topFrame_does : Does E P topFrame fun _ => True := by
  refine Triple.of_silent fun c hc _ => ?_
  cases hf : c.frames with
  | nil =>
    refine ⟨.error (.violation .noFrame), c, fun k log => ⟨log, ?_⟩, hc, fun x hx => by cases hx⟩
    obtain ⟨frames, prepared, heap, classes⟩ := c
    subst hf
    rfl
  | cons f rest => exact ⟨_, c, topFrame_tells hf, hc, fun _ _ => trivial⟩

theorem fault_does (f : Fault) : Does E P (fault f) fun _ => True :=
  topFrame_does.bind fun _ _ => tell_does _

theorem pushFrame_does {f : Frame} (hf : f.All E) : Does E P (pushFrame f) fun _ => True := by
  refine Does.bind (Q := fun _ => True) ?_ fun _ _ => tell_does _
  refine Does.modify (fun c => { c with frames := f :: c.frames }) (fun _ _ _ => rfl) ?_
  refine fun c hc => ⟨fun f' hf' => ?_, hc.heap⟩
  rcases List.mem_cons.mp hf' with rfl | hmem
  · exact hf
  · exact hc.frames f' hmem

theorem popFrame_does : Does E P popFrame (Frame.All E) := by
  refine Does.get_bind (fun _ _ _ => rfl) fun m hm => ?_
  have hall : ∀ f ∈ m.frames, f.All E := hm.frames
  cases hf : m.frames with
  | nil => exact Does.fail _
  | cons f rest =>
    rw [hf] at hall
    refine Does.bind (Q := fun _ => True) ?_ fun _ _ => (tell_does _).bind fun _ _ =>
      Does.pure (hall f List.mem_cons_self)
    refine Does.modify (fun c => { c with frames := rest }) (fun _ _ _ => rfl) fun c hc => ?_
    exact ⟨fun f' hf' => hall f' (List.mem_cons_of_mem f hf'), hc.heap⟩

/-! ## 3. Reports -/

section Reporting

variable {l r : IntExpr} {ρ : Relation}

theorem report_does {rep : Report} (hc : rep.constraint = .relate l ρ r)
    (hP : P (.relate l ρ r)) : Does E P (report rep) fun _ => True := by
  intro c hall _
  obtain ⟨d, hd⟩ := Constraint.normalize_relate l ρ r
  refine ⟨_, c, [rep], report_tells (hc ▸ hd), hall, fun rep' hrep' => ?_, fun _ _ => trivial⟩
  cases List.mem_singleton.mp hrep'
  rw [hc]
  exact hP

theorem support_does (hP : P (.relate l ρ r)) :
    Does E P (support (.relate l ρ r)) fun _ => True := by
  unfold support
  split
  · exact report_does rfl hP
  · exact Does.pure trivial

theorem decideAccess_does (hP : P (.relate l ρ r)) (negated : Bool) :
    Does E P (decideAccess (.relate l ρ r) negated) fun _ => True := by
  unfold decideAccess
  split
  · exact topFrame_does.bind fun _ _ => report_does rfl hP
  · exact Does.pure trivial

theorem decideBranch_does (hP : P (.relate l ρ r)) (branch : Int) :
    Does E P (decideBranch (.relate l ρ r) branch) fun _ => True := by
  unfold decideBranch
  split
  · exact topFrame_does.bind fun _ _ => report_does rfl hP
  · exact Does.pure trivial

end Reporting

/-! ## 4. Constants, locals and arithmetic -/

theorem popInt_does : Does E P (onStack Stack.popInt) E := onStack_does Stack.popInt_keeps

theorem popLong_does : Does E P (onStack Stack.popLong) E := onStack_does Stack.popLong_keeps

theorem popFloat_does : Does E P (onStack Stack.popFloat) fun _ => True :=
  onStack_does Stack.popFloat_keeps

theorem popDouble_does : Does E P (onStack Stack.popDouble) fun _ => True :=
  onStack_does Stack.popDouble_keeps

theorem popRef_does : Does E P (onStack Stack.popRef) fun _ => True :=
  onStack_does Stack.popRef_keeps

theorem pushConstant_does (hE : Closed E) (v : Value) :
    Does E P (pushConstant v) fun _ => True := by
  cases v with
  | int v => exact push_does (hE.const _)
  | long v => exact push_does (hE.const _)
  | float v => exact push_does trivial
  | double v => exact push_does trivial
  | text bs =>
    refine topFrame_does.discard.bind fun _ _ => ?_
    exact (onHeap_does (Heap.reference_keeps _)).bind fun _ _ => push_does trivial
  | _ => exact Does.fail _

theorem load_does (w : Width) (i : Int) : Does E P (load w i) fun _ => True :=
  (onLocals_does (Locals.read_keeps i)).bind fun _ ho =>
    (Does.ensure _ _).bind fun _ _ => push_does ho

theorem store_does (w : Width) (i : Int) : Does E P (store w i) fun _ => True :=
  (onStack_does Stack.pop_keeps).bind fun _ ho =>
    (Does.ensure _ _).bind fun _ _ => onLocals_does (Locals.write_keeps i ho)

theorem increment_does (hE : Closed E) (i : Int) (d : Int32) :
    Does E P (increment i d) fun _ => True :=
  onLocals_does ((Locals.readInt_keeps i).bind fun _ he =>
    Locals.write_keeps i (hE.combine he (hE.const _) _ _))

theorem intBinary_does (hE : Closed E) (op : Operator) (f : Int32 → Int32 → Int32) :
    Does E P (intBinary op f) fun _ => True :=
  popInt_does.bind fun _ hr => popInt_does.bind fun _ hl => push_does (hE.combine hl hr _ _)

theorem longBinary_does (hE : Closed E) (op : Operator) (f : Int64 → Int64 → Int64) :
    Does E P (longBinary op f) fun _ => True :=
  popLong_does.bind fun _ hr => popLong_does.bind fun _ hl => push_does (hE.combine hl hr _ _)

theorem longShift_does (hE : Closed E) (op : ShiftOp) : Does E P (longShift op) fun _ => True :=
  popInt_does.bind fun _ hr => popLong_does.bind fun _ hl => push_does (hE.combine hl hr _ _)

theorem floatBinary_does (op : RealOp) : Does E P (floatBinary op) fun _ => True :=
  popFloat_does.bind fun _ _ => popFloat_does.bind fun _ _ => push_does trivial

theorem doubleBinary_does (op : RealOp) : Does E P (doubleBinary op) fun _ => True :=
  popDouble_does.bind fun _ _ => popDouble_does.bind fun _ _ => push_does trivial

theorem intNegate_does (hE : Closed E) : Does E P intNegate fun _ => True :=
  popInt_does.bind fun _ he => push_does (hE.apply he _ _)

theorem longNegate_does (hE : Closed E) : Does E P longNegate fun _ => True :=
  popLong_does.bind fun _ he => push_does (hE.apply he _ _)

theorem floatNegate_does : Does E P floatNegate fun _ => True :=
  popFloat_does.bind fun _ _ => push_does trivial

theorem doubleNegate_does : Does E P doubleNegate fun _ => True :=
  popDouble_does.bind fun _ _ => push_does trivial

theorem longCompare_does (hE : Closed E) : Does E P longCompare fun _ => True :=
  popLong_does.bind fun _ hr => popLong_does.bind fun _ hl => push_does (hE.threeWay hl hr)

theorem floatCompare_does (hE : Closed E) : Does E P floatCompare fun _ => True :=
  popFloat_does.bind fun _ _ => popFloat_does.bind fun _ _ => push_does (hE.threeWayReal _ _ _)

theorem doubleCompare_does (hE : Closed E) : Does E P doubleCompare fun _ => True :=
  popDouble_does.bind fun _ _ => popDouble_does.bind fun _ _ => push_does (hE.threeWayReal _ _ _)

theorem convert_does (hE : Closed E) (c : Conversion) : Does E P (convert c) fun _ => True := by
  cases c with
  | intToLong => exact popInt_does.bind fun _ he => push_does he
  | intToFloat => exact popInt_does.bind fun _ _ => push_does trivial
  | intToDouble => exact popInt_does.bind fun _ _ => push_does trivial
  | longToInt => exact popLong_does.bind fun _ he => push_does (hE.apply he _ _)
  | longToFloat => exact popLong_does.bind fun _ _ => push_does trivial
  | longToDouble => exact popLong_does.bind fun _ _ => push_does trivial
  | floatToInt => exact popFloat_does.bind fun _ _ => push_does (hE.castReal _ _)
  | floatToLong => exact popFloat_does.bind fun _ _ => push_does (hE.castReal _ _)
  | floatToDouble => exact popFloat_does.bind fun _ _ => push_does trivial
  | doubleToInt => exact popDouble_does.bind fun _ _ => push_does (hE.castReal _ _)
  | doubleToLong => exact popDouble_does.bind fun _ _ => push_does (hE.castReal _ _)
  | doubleToFloat => exact popDouble_does.bind fun _ _ => push_does trivial
  | intToSmall =>
    exact (onStack_does (Stack.peek_keeps 0)).bind fun _ _ =>
      (Does.ensure _ _).imp fun _ _ => trivial

/-! ## 5. Objects and fields -/

theorem prepareWithin_does (fuel : Nat) (name : String) :
    Does E P (prepareWithin fuel name) fun _ => True := by
  induction fuel generalizing name with
  | zero => exact Does.fail _
  | succ fuel ih =>
    have hmark : Does E P (do
        modify fun m : Machine => { m with prepared := m.prepared ++ [name] }
        tell (.prepare name)) fun _ => True := by
      refine Does.bind (Q := fun _ => True) ?_ fun _ _ => tell_does _
      exact Does.modify (fun c => { c with prepared := c.prepared ++ [name] }) (fun _ _ _ => rfl)
        fun c hc => ⟨hc.frames, hc.heap⟩
    refine Does.get_bind (fun _ _ _ => rfl) fun m _ => ?_
    split
    · exact Does.pure trivial
    · dsimp only
      split
      · split
        · exact Does.fail _
        · split
          · exact Does.fail _
          · split
            · exact (ih _).bind fun _ _ => hmark
            · exact hmark
      · exact hmark

theorem prepare_does (name : String) : Does E P (prepare name) fun _ => True :=
  Does.get_bind (fun _ _ _ => rfl) fun _ _ => prepareWithin_does _ name

theorem nullAccess_does : Does E P nullAccess fun _ => True :=
  (fault_does _).bind fun _ _ => Does.pure trivial

theorem newObject_does (className : String) : Does E P (newObject className) fun _ => True :=
  (prepare_does className).bind fun _ _ => topFrame_does.discard.bind fun _ _ =>
    (onHeap_does (Heap.new_keeps _)).bind fun _ _ => push_does trivial

theorem resolve_does (e : RefExpr) (v : Value) : Does E P (resolve e v) fun _ => True :=
  onHeap_does (Heap.resolve_keeps e v)

theorem fieldWidth_does (desc : String) : Does E P (fieldWidth desc) fun _ => True :=
  Does.ofExcept fun _ _ => trivial

theorem fieldOperand_does (hE : Closed E) (k : FieldKey) (w : Option Width) (v : Value) :
    Does E P (fieldOperand k w v) (Operand.All E) := by
  refine Does.get_bind (fun _ _ _ => rfl) fun m _ => ?_
  refine (onHeap_does (Heap.observe_keeps hE _ _ _)).bind fun e he => ?_
  cases w with
  | none => exact Does.fail _
  | some w =>
    refine Does.get_bind (fun _ _ _ => rfl) fun m hm => Does.ofExcept fun o ho => ?_
    exact Operand.all_ofExpr (hm.heap.field k he) ho

theorem getField_does (hE : Closed E) (receiver : Value) (owner name desc : String) (v : Value) :
    Does E P (getField receiver owner name desc v) fun _ => True := by
  refine popRef_does.bind fun e _ => ?_
  split
  · exact nullAccess_does
  · refine (resolve_does e receiver).bind fun x _ => ?_
    cases x with
    | null => exact Does.fail _
    | object r =>
      refine (fieldWidth_does desc).bind fun w _ => ?_
      exact (fieldOperand_does hE _ w v).bind fun _ ho =>
        (push_does ho).bind fun _ _ => Does.pure trivial

theorem putHeap_does {f : Heap → Heap} (hf : ∀ h, h.All E → (f h).All E) :
    Does E P (modify fun m : Machine => { m with heap := f m.heap }) fun _ => True :=
  Does.modify (fun c => { c with heap := f c.heap }) (fun _ _ _ => rfl) fun _ hc =>
    ⟨hc.frames, hf _ hc.heap⟩

theorem putField_does (receiver : Value) (owner name desc : String) :
    Does E P (putField receiver owner name desc) fun _ => True := by
  refine (onStack_does Stack.pop_keeps).bind fun o ho => ?_
  refine (fieldWidth_does desc).bind fun w _ => (Does.ensure _ _).bind fun _ _ => ?_
  refine popRef_does.bind fun e _ => ?_
  split
  · exact nullAccess_does
  · refine (resolve_does e receiver).bind fun x _ => ?_
    cases x with
    | null => exact Does.fail _
    | object r =>
      exact (putHeap_does fun _ hh => hh.putField _ (Operand.all_expr.mpr ho)).bind fun _ _ =>
        Does.pure trivial

theorem getStatic_does (hE : Closed E) (owner name desc : String) (v : Value) :
    Does E P (getStatic owner name desc v) fun _ => True :=
  (prepare_does owner).bind fun _ _ => (fieldWidth_does desc).bind fun w _ =>
    (fieldOperand_does hE _ w v).bind fun _ ho => push_does ho

theorem putStatic_does (owner name desc : String) :
    Does E P (putStatic owner name desc) fun _ => True := by
  refine (prepare_does owner).bind fun _ _ => (onStack_does Stack.pop_keeps).bind fun o ho => ?_
  refine (fieldWidth_does desc).bind fun w _ => (Does.ensure _ _).bind fun _ _ => ?_
  exact putHeap_does fun _ hh => hh.putField _ (Operand.all_expr.mpr ho)

theorem checkCast_does (type : String) : Does E P (checkCast type) fun _ => True :=
  (onStack_does (Stack.peek_keeps 0)).bind fun _ _ => (Does.ensure _ _).imp fun _ _ => trivial

theorem instanceOf_does (hE : Closed E) (v : Value) (type : String) :
    Does E P (instanceOf v type) fun _ => True := by
  refine popRef_does.discard.bind fun _ _ => ?_
  split
  · exact push_does (hE.const _)
  · refine Does.get_bind (fun _ _ _ => rfl) fun m _ => ?_
    split
    · exact Does.fail _
    · split
      · exact Does.fail _
      · exact push_does (hE.const _)
      · exact Does.fail _

theorem monitor_does (v : Value) : Does E P (monitor v) fun _ => True := by
  refine popRef_does.discard.bind fun _ _ => ?_
  split
  · exact nullAccess_does
  · exact Does.pure trivial

/-! ## 6. Calls -/

theorem popArgs_keeps {P : Operand → Prop} (desc : String) (ws : List (Option Width)) :
    Act.Keeps (Stack.Each P) (popArgs desc ws) fun os => ∀ o ∈ os, P o := by
  induction ws with
  | nil => exact Act.Keeps.pure fun o ho => absurd ho List.not_mem_nil
  | cons w ws ih =>
    refine Stack.pop_keeps.bind fun o ho => (Act.Keeps.ensure _ _).bind fun _ _ => ?_
    refine ih.bind fun os hos => Act.Keeps.pure fun o' ho' => ?_
    rcases List.mem_append.mp ho' with hmem | hmem
    · exact hos o' hmem
    · cases List.mem_singleton.mp hmem
      exact ho

theorem methodWidths_does (desc : String) :
    Does E P (methodWidths desc : Act Machine _) fun _ => True :=
  Does.ofExcept fun _ _ => trivial

theorem popArguments_does (desc : String) :
    Does E P (popArguments desc) fun os => ∀ o ∈ os, o.All E :=
  (methodWidths_does desc).bind fun _ _ => onStack_does (popArgs_keeps desc _)

theorem writeArguments_keeps {P : Operand → Prop} {os : List Operand} (hos : ∀ o ∈ os, P o)
    (i : Nat) : Act.Keeps (Locals.Each P) (writeArguments i os) fun _ => True := by
  induction os generalizing i with
  | nil => exact Act.Keeps.pure trivial
  | cons o os ih =>
    refine (Locals.write_keeps _ (hos o List.mem_cons_self)).bind fun _ _ => ?_
    exact ih (fun o' ho' => hos o' (List.mem_cons_of_mem o ho')) _

theorem fill_does {f : Frame} (hf : f.All E) {a : Act Locals Unit}
    (ha : Act.Keeps (Locals.All E) a fun _ => True) : Does E P (fill f a) (Frame.All E) := by
  have hlocals := (ha f.locals hf.locals).1
  unfold fill
  split
  next t h =>
    rw [h] at hlocals
    exact Does.pure ⟨hf.stack, hlocals⟩
  · exact Does.fail _

theorem all_enter {method : MethodRef} {size : Int} {f : Frame}
    (h : Frame.enter method size = .ok f) : f.All E := by
  unfold Frame.enter Locals.empty at h
  split at h
  · cases h
  split at h
  · cases h
  · cases h
    refine ⟨fun o ho => absurd ho List.not_mem_nil, fun o ho => ?_⟩
    cases List.eq_of_mem_replicate ho

theorem enter_does (method : MethodRef) (static : Bool) (size : Int) :
    Does E P (enter method static size) fun _ => True := by
  refine topFrame_does.discard.bind fun _ _ => (popArguments_does _).bind fun args hargs => ?_
  split
  · exact Does.fail _
  next f hf =>
    have hall : f.All E := all_enter hf
    split
    · exact (fill_does hall (writeArguments_keeps hargs 0)).bind fun _ hf' => pushFrame_does hf'
    · refine popRef_does.bind fun e _ => ?_
      refine (fill_does hall (Locals.write_keeps 0 (o := .ref e) trivial)).bind fun f' hf' => ?_
      exact (fill_does hf' (writeArguments_keeps hargs 1)).bind fun _ hf'' => pushFrame_does hf''

theorem leave_does : Does E P leave fun _ => True := popFrame_does.discard

theorem leaveWith_does (w : Width) : Does E P (leaveWith w) fun _ => True := by
  refine popFrame_does.bind fun f hf => ?_
  split
  · exact Does.fail _
  next o s hs =>
    refine (Does.ensure _ _).bind fun _ _ => push_does (hf.stack o ?_)
    rw [hs]
    exact List.mem_cons_self

theorem callUnwatched_does (hE : Closed E) (desc : String) (static : Bool) (result : Value) :
    Does E P (callUnwatched desc static result) fun _ => True := by
  refine topFrame_does.discard.bind fun _ _ => (popArguments_does desc).discard.bind fun _ _ => ?_
  refine Does.ite_bind popRef_does.discard ((methodWidths_does desc).bind fun ws _ => ?_)
  obtain ⟨_, w⟩ := ws
  cases w with
  | none => exact Does.pure trivial
  | some w =>
    refine (onHeap_does (Heap.constant_keeps hE _ _)).bind fun e he => ?_
    exact (Does.ofExcept fun o ho => Operand.all_ofExpr he ho).bind fun _ ho => push_does ho

theorem unwind_does (n fuel : Nat) : Does E P (unwind n fuel) fun _ => True := by
  induction fuel with
  | zero => exact Does.pure trivial
  | succ fuel ih =>
    refine Does.get_bind (fun _ _ _ => rfl) fun m _ => ?_
    split
    · exact popFrame_does.discard.bind fun _ _ => ih
    · exact Does.pure trivial

theorem throwTo_does (depth : Int) (exception : Value) :
    Does E P (throwTo depth exception) fun _ => True := by
  refine Does.get_bind (fun _ _ _ => rfl) fun m _ => (Does.ensure _ _).bind fun _ _ => ?_
  refine (unwind_does _ _).bind fun _ _ => (onStack_does Stack.clear_keeps).bind fun _ _ => ?_
  exact (onHeap_does (Heap.reference_keeps exception)).bind fun _ _ => push_does trivial

end Machine

end Concolic
