import Concolic.Machine.Instruction
import Concolic.Proofs.Moves

/-
# Actions that end

The walks up from a class are the only loops of the machine that may have no end.  An action that
starts none of them answers or fails, whatever state it finds (`Ends`), and no action changes whom
the machine asks about classes (`Fixes`).  `Steady` says both.  It passes from the parts of the
machine to its functions; an instruction is steady if it does not ask about classes
(`Instruction.exec_steady`).
-/
namespace Concolic

/-! ## 1. Actions that end -/

namespace Act

/-- The action comes to an end: it answers or fails. -/
def Ends (a : Act σ α) : Prop := ∀ s, (a s).1 ≠ .error .endless

/-- The action leaves what `view` shows of the state as it is. -/
def Fixes (view : σ → τ) (a : Act σ α) : Prop := ∀ s, view (a s).2 = view s

/-- The action comes to an end and leaves what `view` shows of the state as it is. -/
structure Steady (view : σ → τ) (a : Act σ α) : Prop where
  ends : a.Ends
  fixes : a.Fixes view

/-- What an action on a part of the machine leaves as it is does not matter. -/
abbrev Finite (a : Act σ α) : Prop := a.Steady fun _ => ()

theorem Fixes.bind {view : σ → τ} {a : Act σ α} {g : α → Act σ β} (ha : a.Fixes view)
    (hg : ∀ x, (g x).Fixes view) : (a >>= g).Fixes view := by
  intro s
  have hs := ha s
  rw [bind_apply]
  rcases h : a s with ⟨e | x, t⟩
  · rwa [h] at hs
  · rw [h] at hs
    exact (hg x t).trans hs

theorem Fixes.get_bind {view : σ → τ} {g : σ → Act σ β} (hg : ∀ s, (g s).Fixes view) :
    (get >>= g).Fixes view :=
  fun s => hg s s

/-- If what follows ends, the whole goes on for ever exactly if the first action does. -/
theorem bind_eq_endless_iff {a : Act σ α} {g : α → Act σ β} (hg : ∀ x, (g x).Ends) (s : σ) :
    ((a >>= g) s).1 = .error .endless ↔ (a s).1 = .error .endless := by
  rw [bind_apply]
  rcases a s with ⟨e | x, t⟩
  · simp
  · simpa using hg x t

/-- If the first action ends, the whole goes on for ever exactly if what follows does. -/
theorem Ends.bind_eq_endless_iff {a : Act σ α} {g : α → Act σ β} (ha : a.Ends) (s : σ) :
    ((a >>= g) s).1 = .error .endless ↔
      ∃ x t, a s = (.ok x, t) ∧ (g x t).1 = .error .endless := by
  have hends := ha s
  rw [bind_apply]
  rcases h : a s with ⟨e | x, t⟩
  · rw [h] at hends
    simpa using hends
  · constructor
    · intro hg
      exact ⟨x, t, rfl, hg⟩
    · rintro ⟨_, _, hx, hg⟩
      cases hx
      exact hg

namespace Steady

variable {view : σ → τ} {a : Act σ α} {g : α → Act σ β}

theorem pure (x : α) : (Pure.pure x : Act σ α).Steady view :=
  ⟨nofun, fun _ => rfl⟩

theorem fail {e : Failure} (he : e ≠ .endless) : (Act.fail e : Act σ α).Steady view :=
  ⟨fun _ h => he (Except.error.inj h), fun _ => rfl⟩

theorem violated (v : Violation) : (Act.violated v : Act σ α).Steady view := fail nofun

theorem bind (ha : a.Steady view) (hg : ∀ x, (g x).Steady view) : (a >>= g).Steady view where
  ends s h := ha.ends s ((bind_eq_endless_iff (fun x => (hg x).ends) s).mp h)
  fixes := ha.fixes.bind fun x => (hg x).fixes

theorem get_bind {g : σ → Act σ β} (hg : ∀ s, (g s).Steady view) : (get >>= g).Steady view :=
  ⟨fun s => (hg s).ends s, fun s => (hg s).fixes s⟩

theorem modify_bind {f : σ → σ} {g : PUnit → Act σ β} (hf : ∀ s, view (f s) = view s)
    (hg : (g ()).Steady view) : ((modify f : Act σ PUnit) >>= g).Steady view :=
  ⟨fun s => hg.ends (f s), fun s => (hg.fixes (f s)).trans (hf s)⟩

theorem modify {f : σ → σ} (hf : ∀ s, view (f s) = view s) :
    (modify f : Act σ PUnit).Steady view :=
  ⟨nofun, hf⟩

theorem discard (ha : a.Steady view) : (Functor.discard a).Steady view :=
  ha.bind (g := fun _ => Pure.pure ()) fun _ => pure _

theorem ite {p : Prop} [Decidable p] {a b : Act σ α} (ha : a.Steady view) (hb : b.Steady view) :
    (if p then a else b).Steady view := by
  split
  · exact ha
  · exact hb

/-- An action that may be left out, before another one. -/
theorem ite_bind {p : Prop} [Decidable p] {a : Act σ Unit} {b : Act σ β} (ha : a.Steady view)
    (hb : b.Steady view) : (if p then a >>= fun _ => b else b).Steady view :=
  ite (ha.bind fun _ => hb) hb

theorem ensure (b : Bool) (v : Violation) : (Act.ensure b v).Steady view :=
  ite (pure _) (violated _)

theorem ofExcept (r : Except Violation α) : (Act.ofExcept r : Act σ α).Steady view := by
  cases r with
  | ok x => exact pure x
  | error v => exact violated v

end Steady

/-- A new state, of which nothing is shown. -/
theorem set_finite (t : σ) : (set t : Act σ PUnit).Finite :=
  ⟨nofun, fun _ => rfl⟩

end Act

open Act (Steady Finite)

/-! ## 2. Parts of the machine -/

namespace Stack

theorem push_finite (o : Operand) : (push o).Finite := Steady.modify fun _ => rfl

theorem pop_finite : pop.Finite := by
  refine Steady.get_bind fun s => ?_
  cases s with
  | nil => exact Steady.violated _
  | cons o rest => exact (Act.set_finite rest).bind fun _ => Steady.pure o

theorem peek_finite (i : Int) : (peek i).Finite := by
  refine Steady.get_bind fun s => Steady.ite (Steady.violated _) ?_
  split
  · exact Steady.pure _
  · exact Steady.violated _

theorem popInt_finite : popInt.Finite := by
  refine pop_finite.bind fun o => ?_
  cases o with
  | bv32 e => exact Steady.pure e
  | _ => exact Steady.violated _

theorem popLong_finite : popLong.Finite := by
  refine pop_finite.bind fun o => ?_
  cases o with
  | bv64 e => exact Steady.pure e
  | _ => exact Steady.violated _

theorem popFloat_finite : popFloat.Finite := by
  refine pop_finite.bind fun o => ?_
  cases o with
  | fp32 e => exact Steady.pure e
  | _ => exact Steady.violated _

theorem popDouble_finite : popDouble.Finite := by
  refine pop_finite.bind fun o => ?_
  cases o with
  | fp64 e => exact Steady.pure e
  | _ => exact Steady.violated _

theorem popRef_finite : popRef.Finite := by
  refine pop_finite.bind fun o => ?_
  cases o with
  | ref e => exact Steady.pure e
  | _ => exact Steady.violated _

theorem popCategory_finite (n : Nat) : (popCategory n).Finite :=
  pop_finite.bind fun o => (Steady.ensure _ _).bind fun _ => Steady.pure o

theorem pushAll_finite (os : List Operand) : (pushAll os).Finite := by
  induction os with
  | nil => exact Steady.pure _
  | cons o os ih => exact (push_finite o).bind fun _ => ih

theorem takeBlocks_finite (ns : List Nat) : (takeBlocks ns).Finite := by
  have hpop1 : pop1.Finite := popCategory_finite 1
  have hblock (n : Nat) : (takeBlock n).Finite := by
    unfold takeBlock
    split
    · have htop : topIsDouble.Finite := (peek_finite 0).bind fun _ => Steady.pure _
      refine htop.bind fun d => Steady.ite ?_ ?_
      · exact (popCategory_finite 2).bind fun _ => Steady.pure _
      · exact hpop1.bind fun _ => hpop1.bind fun _ => Steady.pure _
    · exact hpop1.bind fun _ => Steady.pure _
  induction ns with
  | nil => exact Steady.pure _
  | cons n ns ih => exact (hblock n).bind fun _ => ih.bind fun _ => Steady.pure _

theorem shuffle_finite (sh : Shuffle) : (shuffle sh).Finite := by
  rw [shuffle_eq]
  exact (takeBlocks_finite _).bind fun _ => pushAll_finite _

end Stack

namespace Locals

theorem read_finite (i : Int) : (read i).Finite := by
  refine Steady.get_bind fun t => (Steady.ensure _ _).bind fun _ => ?_
  split
  · exact Steady.pure _
  · exact Steady.violated _

theorem readInt_finite (i : Int) : (readInt i).Finite := by
  refine (read_finite i).bind fun o => ?_
  cases o with
  | bv32 e => exact Steady.pure e
  | _ => exact Steady.violated _

theorem write_finite (i : Int) (o : Operand) : (write i o).Finite := by
  refine Steady.get_bind fun t => (Steady.ensure _ _).bind fun _ => ?_
  refine (Act.set_finite _).bind fun _ => Steady.ite ?_ (Steady.pure _)
  exact (Steady.ensure _ _).bind fun _ => Steady.modify fun _ => rfl

end Locals

namespace Heap

theorem new_finite (type : String) : (new type).Finite :=
  Steady.get_bind fun _ => (Act.set_finite _).bind fun _ => Steady.pure _

theorem newArray_finite (type : String) (length : IntExpr) : (newArray type length).Finite := by
  refine (new_finite type).bind fun r => Steady.bind ?_ fun _ => Steady.pure r
  exact Steady.modify fun _ => rfl

theorem bind_finite (v : Value) (r : Ref) : (bind v r).Finite :=
  (Steady.ensure _ _).bind fun _ => (Steady.ensure _ _).bind fun _ => Steady.modify fun _ => rfl

theorem reference_finite (v : Value) : (reference v).Finite := by
  refine Steady.ite (Steady.pure _) (Steady.get_bind fun h => ?_)
  split
  · exact Steady.pure _
  · exact (new_finite _).bind fun r => (bind_finite v r).bind fun _ => Steady.pure _

theorem resolve_finite (e : RefExpr) (v : Value) : (resolve e v).Finite := by
  refine Steady.ite (Steady.pure _) (Steady.get_bind fun h => ?_)
  split
  · exact Steady.pure _
  · cases e with
    | null => exact reference_finite v
    | object r =>
      refine Steady.get_bind fun h => Steady.ite (reference_finite v) ?_
      exact (bind_finite v r).bind fun _ => Steady.pure _

theorem constant_finite (w : Option Width) (v : Value) : (constant w v).Finite := by
  unfold constant
  split
  · exact (Steady.ofExcept _).bind fun _ => Steady.pure _
  · exact (Steady.ofExcept _).bind fun _ => Steady.pure _
  · exact (Steady.ofExcept _).bind fun _ => Steady.pure _
  · exact (Steady.ofExcept _).bind fun _ => Steady.pure _
  · exact (reference_finite v).bind fun _ => Steady.pure _
  · exact Steady.violated _

theorem observe_finite (w : Option Width) (v : Value) (stored : Option Expr) :
    (observe w v stored).Finite := by
  unfold observe
  split
  · exact (resolve_finite _ v).bind fun _ => Steady.pure _
  · exact constant_finite w v

end Heap

/-! ## 3. Functions of the machine -/

namespace Machine

theorem onTop_steady {a : Act Frame α} (ha : a.Ends) : (onTop a).Steady classes := by
  constructor
  · intro m
    unfold onTop
    split
    · nofun
    next f _ _ => exact ha f
  · intro m
    unfold onTop
    split
    · rfl
    · rfl

theorem onStack_steady {a : Act Stack α} (ha : a.Finite) : (onStack a).Steady classes :=
  onTop_steady fun f => ha.ends f.stack

theorem onLocals_steady {a : Act Locals α} (ha : a.Finite) : (onLocals a).Steady classes :=
  onTop_steady fun f => ha.ends f.locals

theorem onHeap_steady {a : Act Heap α} (ha : a.Finite) : (onHeap a).Steady classes :=
  ⟨fun m => ha.ends m.heap, fun _ => rfl⟩

theorem push_steady (o : Operand) : (push o).Steady classes := onStack_steady (Stack.push_finite o)

theorem popInt_steady : (onStack Stack.popInt).Steady classes := onStack_steady Stack.popInt_finite

theorem popLong_steady : (onStack Stack.popLong).Steady classes :=
  onStack_steady Stack.popLong_finite

theorem popFloat_steady : (onStack Stack.popFloat).Steady classes :=
  onStack_steady Stack.popFloat_finite

theorem popDouble_steady : (onStack Stack.popDouble).Steady classes :=
  onStack_steady Stack.popDouble_finite

theorem popRef_steady : (onStack Stack.popRef).Steady classes := onStack_steady Stack.popRef_finite

theorem tell_steady (e : Event) : (tell e).Steady classes := Steady.modify fun _ => rfl

theorem topFrame_steady : topFrame.Steady classes := by
  refine Steady.get_bind fun m => ?_
  split
  · exact Steady.violated _
  · exact Steady.pure _

theorem fault_steady (f : Fault) : (fault f).Steady classes :=
  topFrame_steady.bind fun _ => tell_steady _

theorem pushFrame_steady (f : Frame) : (pushFrame f).Steady classes :=
  Steady.modify_bind (fun _ => rfl) (tell_steady _)

theorem popFrame_steady : popFrame.Steady classes := by
  refine Steady.get_bind fun m => ?_
  split
  · exact Steady.violated _
  · exact Steady.modify_bind (fun _ => rfl) ((tell_steady _).bind fun _ => Steady.pure _)

theorem report_steady (r : Report) : (report r).Steady classes := by
  refine Steady.get_bind fun m => ?_
  split
  · exact Steady.violated _
  · refine Steady.modify_bind (fun _ => rfl) ?_
    split
    · exact tell_steady _
    · exact Steady.pure _

theorem support_steady (c : Constraint) : (support c).Steady classes :=
  Steady.ite (report_steady _) (Steady.pure _)

theorem decideAccess_steady (c : Constraint) (negated : Bool) :
    (decideAccess c negated).Steady classes :=
  Steady.ite (topFrame_steady.bind fun _ => report_steady _) (Steady.pure _)

theorem decideBranch_steady (c : Constraint) (branch : Int) :
    (decideBranch c branch).Steady classes :=
  Steady.ite (topFrame_steady.bind fun _ => report_steady _) (Steady.pure _)

theorem nullAccess_steady : nullAccess.Steady classes :=
  (fault_steady _).bind fun _ => Steady.pure true

/-! ## 4. Constants, locals, arithmetic and branches -/

theorem pushConstant_steady (v : Value) : (pushConstant v).Steady classes := by
  cases v with
  | int v => exact push_steady _
  | long v => exact push_steady _
  | float v => exact push_steady _
  | double v => exact push_steady _
  | text bs =>
    refine topFrame_steady.discard.bind fun _ => ?_
    exact (onHeap_steady (Heap.reference_finite _)).bind fun _ => push_steady _
  | _ => exact Steady.violated _

theorem load_steady (w : Width) (i : Int) : (load w i).Steady classes :=
  (onLocals_steady (Locals.read_finite i)).bind fun o =>
    (Steady.ensure _ _).bind fun _ => push_steady o

theorem store_steady (w : Width) (i : Int) : (store w i).Steady classes :=
  (onStack_steady Stack.pop_finite).bind fun o =>
    (Steady.ensure _ _).bind fun _ => onLocals_steady (Locals.write_finite i o)

theorem increment_steady (i : Int) (d : Int32) : (increment i d).Steady classes :=
  onLocals_steady ((Locals.readInt_finite i).bind fun _ => Locals.write_finite i _)

theorem intBinary_steady (op : Operator) (f : Int32 → Int32 → Int32) :
    (intBinary op f).Steady classes :=
  popInt_steady.bind fun _ => popInt_steady.bind fun _ => push_steady _

theorem longBinary_steady (op : Operator) (f : Int64 → Int64 → Int64) :
    (longBinary op f).Steady classes :=
  popLong_steady.bind fun _ => popLong_steady.bind fun _ => push_steady _

theorem longShift_steady (op : ShiftOp) : (longShift op).Steady classes :=
  popInt_steady.bind fun _ => popLong_steady.bind fun _ => push_steady _

theorem floatBinary_steady (op : RealOp) : (floatBinary op).Steady classes :=
  popFloat_steady.bind fun _ => popFloat_steady.bind fun _ => push_steady _

theorem doubleBinary_steady (op : RealOp) : (doubleBinary op).Steady classes :=
  popDouble_steady.bind fun _ => popDouble_steady.bind fun _ => push_steady _

theorem zeroDivisor_steady (e : IntExpr) (z : Bool) : (zeroDivisor e z).Steady classes :=
  (support_steady _).bind fun _ => Steady.ite_bind (fault_steady _) (Steady.pure _)

theorem intDivide_steady (op : DivOp) (d : Int32) : (intDivide op d).Steady classes := by
  refine popInt_steady.bind fun r => popInt_steady.bind fun l => ?_
  refine (zeroDivisor_steady r _).bind fun z => Steady.ite (Steady.pure _) ?_
  exact (push_steady _).bind fun _ => Steady.pure _

theorem longDivide_steady (op : DivOp) (d : Int64) : (longDivide op d).Steady classes := by
  refine popLong_steady.bind fun r => popLong_steady.bind fun l => ?_
  refine (zeroDivisor_steady r _).bind fun z => Steady.ite (Steady.pure _) ?_
  exact (push_steady _).bind fun _ => Steady.pure _

theorem convert_steady (c : Conversion) : (convert c).Steady classes := by
  cases c with
  | intToLong | intToFloat | intToDouble => exact popInt_steady.bind fun _ => push_steady _
  | longToInt | longToFloat | longToDouble => exact popLong_steady.bind fun _ => push_steady _
  | floatToInt | floatToLong | floatToDouble => exact popFloat_steady.bind fun _ => push_steady _
  | doubleToInt | doubleToLong | doubleToFloat =>
    exact popDouble_steady.bind fun _ => push_steady _
  | intToSmall =>
    exact (onStack_steady (Stack.peek_finite 0)).bind fun _ => Steady.ensure _ _

theorem tableSwitch_steady (branch : Int) (low high : Int32) :
    (tableSwitch branch low high).Steady classes :=
  popInt_steady.bind fun _ => Steady.ite (decideBranch_steady _ _)
    (Steady.ite (decideBranch_steady _ _) (decideBranch_steady _ _))

theorem lookupSwitch_steady (branch : Int) (keys : List Int32) :
    (lookupSwitch branch keys).Steady classes := by
  refine popInt_steady.bind fun e => Steady.ite (decideBranch_steady _ _) ?_
  induction keys with
  | nil => exact Steady.pure _
  | cons k keys ih => exact (decideBranch_steady _ _).bind fun _ => ih

/-! ## 5. Arrays and fields -/

theorem resolve_steady (e : RefExpr) (v : Value) : (resolve e v).Steady classes :=
  onHeap_steady (Heap.resolve_finite e v)

theorem negativeLength_steady (e : IntExpr) (n : Int32) : (negativeLength e n).Steady classes :=
  (support_steady _).bind fun _ => Steady.ite_bind (fault_steady _) (Steady.pure _)

theorem arrayType_ne_endless {component : String} {e : Failure}
    (h : Descriptor.arrayType component = .error e) : e ≠ .endless := by
  unfold Descriptor.arrayType at h
  split at h
  · cases h
    nofun
  · split at h
    · cases h
    · cases h

theorem newArray_steady (n : Int32) (component : String) :
    (newArray n component).Steady classes := by
  unfold newArray
  split
  next h => exact Steady.fail (arrayType_ne_endless h)
  · refine popInt_steady.bind fun length => (negativeLength_steady length n).bind fun b => ?_
    refine Steady.ite (Steady.pure _) ?_
    exact (onHeap_steady (Heap.newArray_finite _ length)).bind fun _ =>
      (push_steady _).bind fun _ => Steady.pure _

theorem popLengths_finite (k : Nat) : (popLengths k).Finite := by
  induction k with
  | zero => exact Steady.pure _
  | succ k ih => exact Stack.popInt_finite.bind fun _ => ih.bind fun _ => Steady.pure _

theorem anyNegative_steady (ps : List (IntExpr × Int32)) : (anyNegative ps).Steady classes := by
  induction ps with
  | nil => exact Steady.pure _
  | cons p ps ih =>
    exact (negativeLength_steady p.1 p.2).bind fun _ => Steady.ite (Steady.pure _) ih

theorem newMultiArray_steady (type : String) (dims : List Int32) :
    (newMultiArray type dims).Steady classes := by
  refine (Steady.ensure _ _).bind fun _ => (onStack_steady (popLengths_finite _)).bind fun ls => ?_
  refine (anyNegative_steady _).bind fun b => Steady.ite (Steady.pure _) ?_
  cases ls with
  | nil => exact Steady.violated _
  | cons outer _ =>
    exact (onHeap_steady (Heap.newArray_finite _ outer)).bind fun _ =>
      (push_steady _).bind fun _ => Steady.pure _

theorem resolveArray_steady (e : RefExpr) (a : HostArray) : (resolveArray e a).Steady classes := by
  refine (resolve_steady e a.toValue).bind fun x => ?_
  cases x with
  | null => exact Steady.violated _
  | object r => exact (Steady.ensure _ _).bind fun _ => Steady.pure r

theorem arrayLength_steady (a : Option HostArray) : (arrayLength a).Steady classes := by
  refine popRef_steady.bind fun e => ?_
  cases a with
  | none => exact nullAccess_steady
  | some a =>
    exact (resolveArray_steady e a).bind fun _ => Steady.get_bind fun _ =>
      (push_steady _).bind fun _ => Steady.pure _

theorem checkAccess_steady (e : RefExpr) (a : Option HostArray) (index : IntExpr) (n : Int32) :
    (checkAccess e a index n).Steady classes := by
  cases a with
  | none => exact nullAccess_steady.discard.bind fun _ => Steady.pure _
  | some a =>
    have hnegative : (negativeIndex index n).Steady classes :=
      (decideAccess_steady _ _).bind fun _ => Steady.ite_bind (fault_steady _) (Steady.pure _)
    have hbig (length : IntExpr) : (indexTooBig index n length).Steady classes :=
      (decideAccess_steady _ _).bind fun _ => Steady.ite_bind (fault_steady _) (Steady.pure _)
    refine hnegative.bind fun _ => Steady.ite (Steady.pure _) ?_
    refine (resolveArray_steady e a).bind fun r => Steady.get_bind fun m => ?_
    exact (hbig _).bind fun _ => Steady.ite (Steady.pure _) (Steady.pure _)

theorem element_steady (a : HostArray) (n : Int32) : (element a n).Steady classes := by
  unfold element
  split
  · exact Steady.pure _
  · exact Steady.fail nofun

theorem arrayLoad_steady (w : Width) (a : Option HostArray) (n : Int32) :
    (arrayLoad w a n).Steady classes := by
  refine popInt_steady.bind fun index => popRef_steady.bind fun e => ?_
  refine (checkAccess_steady e a index n).bind fun x => ?_
  cases x with
  | none => exact Steady.pure _
  | some p =>
    refine (element_steady p.2 n).bind fun v => Steady.get_bind fun m => ?_
    refine (onHeap_steady (Heap.observe_finite _ v _)).bind fun _ => Steady.get_bind fun m => ?_
    exact (Steady.ofExcept _).bind fun _ => (push_steady _).bind fun _ => Steady.pure _

theorem arrayStore_steady (w : Width) (a : Option HostArray) (n : Int32) :
    (arrayStore w a n).Steady classes := by
  refine (onStack_steady Stack.pop_finite).bind fun o => (Steady.ensure _ _).bind fun _ => ?_
  refine popInt_steady.bind fun index => popRef_steady.bind fun e => ?_
  refine (checkAccess_steady e a index n).bind fun x => ?_
  cases x with
  | none => exact Steady.pure _
  | some p => exact Steady.modify_bind (fun _ => rfl) (Steady.pure _)

theorem fieldWidth_steady (desc : String) : (fieldWidth desc).Steady classes := Steady.ofExcept _

theorem fieldOperand_steady (k : FieldKey) (w : Option Width) (v : Value) :
    (fieldOperand k w v).Steady classes := by
  refine Steady.get_bind fun m => (onHeap_steady (Heap.observe_finite w v _)).bind fun e => ?_
  cases w with
  | none => exact Steady.violated _
  | some w => exact Steady.get_bind fun _ => Steady.ofExcept _

theorem getField_steady (receiver : Value) (owner name desc : String) (v : Value) :
    (getField receiver owner name desc v).Steady classes := by
  refine popRef_steady.bind fun e => Steady.ite nullAccess_steady ?_
  refine (resolve_steady e receiver).bind fun x => ?_
  cases x with
  | null => exact Steady.violated _
  | object r =>
    exact (fieldWidth_steady desc).bind fun w => (fieldOperand_steady _ w v).bind fun _ =>
      (push_steady _).bind fun _ => Steady.pure _

theorem putField_steady (receiver : Value) (owner name desc : String) :
    (putField receiver owner name desc).Steady classes := by
  refine (onStack_steady Stack.pop_finite).bind fun o => (fieldWidth_steady desc).bind fun w => ?_
  refine (Steady.ensure _ _).bind fun _ => popRef_steady.bind fun e => ?_
  refine Steady.ite nullAccess_steady ((resolve_steady e receiver).bind fun x => ?_)
  cases x with
  | null => exact Steady.violated _
  | object r => exact Steady.modify_bind (fun _ => rfl) (Steady.pure _)

theorem checkCast_steady (type : String) : (checkCast type).Steady classes :=
  (onStack_steady (Stack.peek_finite 0)).bind fun _ => Steady.ensure _ _

theorem monitor_steady (v : Value) : (monitor v).Steady classes :=
  popRef_steady.discard.bind fun _ => Steady.ite nullAccess_steady (Steady.pure _)

/-! ## 6. Calls -/

theorem popArguments_steady (desc : String) : (popArguments desc).Steady classes := by
  have hpop (ws : List (Option Width)) : (popArgs desc ws).Finite := by
    induction ws with
    | nil => exact Steady.pure _
    | cons w ws ih =>
      exact Stack.pop_finite.bind fun _ => (Steady.ensure _ _).bind fun _ =>
        ih.bind fun _ => Steady.pure _
  exact (Steady.ofExcept _).bind fun _ => onStack_steady (hpop _)

theorem writeArguments_finite (i : Nat) (os : List Operand) : (writeArguments i os).Finite := by
  induction os generalizing i with
  | nil => exact Steady.pure _
  | cons o os ih => exact (Locals.write_finite i o).bind fun _ => ih _

theorem fill_steady (f : Frame) {a : Act Locals Unit} (ha : a.Finite) :
    (fill f a).Steady classes := by
  unfold fill
  split
  · exact Steady.pure _
  next e _ h => exact Steady.fail fun he => ha.ends f.locals (by rw [h, he])

theorem enter_ne_endless {method : MethodRef} {size : Int} {e : Failure}
    (h : Frame.enter method size = .error e) : e ≠ .endless := by
  unfold Frame.enter Locals.empty at h
  split at h
  · cases h
    nofun
  · split at h
    · cases h
      nofun
    · cases h

theorem enter_steady (method : MethodRef) (static : Bool) (size : Int) :
    (enter method static size).Steady classes := by
  refine topFrame_steady.discard.bind fun _ => (popArguments_steady _).bind fun args => ?_
  split
  next h => exact Steady.fail (enter_ne_endless h)
  next f _ =>
    refine Steady.ite ?_ (popRef_steady.bind fun e => ?_)
    · exact (fill_steady f (writeArguments_finite 0 args)).bind fun _ => pushFrame_steady _
    · exact (fill_steady f (Locals.write_finite 0 _)).bind fun f' =>
        (fill_steady f' (writeArguments_finite 1 args)).bind fun _ => pushFrame_steady _

theorem leaveWith_steady (w : Width) : (leaveWith w).Steady classes := by
  refine popFrame_steady.bind fun f => ?_
  split
  · exact Steady.violated _
  · exact (Steady.ensure _ _).bind fun _ => push_steady _

theorem callUnwatched_steady (desc : String) (static : Bool) (result : Value) :
    (callUnwatched desc static result).Steady classes := by
  refine topFrame_steady.discard.bind fun _ => (popArguments_steady desc).discard.bind fun _ => ?_
  refine Steady.ite_bind popRef_steady.discard (Steady.bind (Steady.ofExcept _) fun ws => ?_)
  obtain ⟨_, w⟩ := ws
  cases w with
  | none => exact Steady.pure _
  | some w =>
    exact (onHeap_steady (Heap.constant_finite _ result)).bind fun _ =>
      (Steady.ofExcept _).bind fun _ => push_steady _

theorem unwind_steady (n fuel : Nat) : (unwind n fuel).Steady classes := by
  induction fuel with
  | zero => exact Steady.pure _
  | succ fuel ih =>
    refine Steady.get_bind fun m => Steady.ite ?_ (Steady.pure _)
    exact popFrame_steady.discard.bind fun _ => ih

theorem throwTo_steady (depth : Int) (exception : Value) :
    (throwTo depth exception).Steady classes := by
  refine Steady.get_bind fun m => (Steady.ensure _ _).bind fun _ => ?_
  refine (unwind_steady _ _).bind fun _ => ?_
  refine (onStack_steady (Act.set_finite ([] : Stack))).bind fun _ => ?_
  exact (onHeap_steady (Heap.reference_finite exception)).bind fun _ => push_steady _

theorem start_steady (method : MethodRef) (static : Bool) (size : Int)
    (args : List (Option Operand)) : (start method static size args).Steady classes := by
  have hprepare : (prepareStack args).Steady classes := by
    refine Steady.modify_bind (fun _ => rfl) ((pushFrame_steady _).bind fun _ => ?_)
    split
    · exact pushFrame_steady _
    · exact Steady.violated _
  exact hprepare.bind fun _ => enter_steady method static size

end Machine

/-! ## 7. Instructions -/

theorem Act.Steady.safely {a : Act Machine Unit} (ha : a.Steady Machine.classes) :
    (Instruction.safely a).Steady Machine.classes :=
  ha.bind fun _ => Steady.pure false

namespace Instruction

/-- The instruction asks about classes. -/
def AsksClasses : Instruction → Prop
  | newObject _ | getStatic .. | putStatic .. | instanceOf .. => True
  | _ => False

/-- **An instruction that does not ask about classes comes to an end.** -/
theorem exec_steady (i : Instruction) (h : ¬ i.AsksClasses) : i.exec.Steady Machine.classes := by
  cases i with
  | newObject | getStatic | putStatic | instanceOf => exact absurd trivial h
  | pushNull | pushInt | pushLong | pushFloat | pushDouble =>
    exact (Machine.push_steady _).safely
  | pushConstant v => exact (Machine.pushConstant_steady v).safely
  | load w i => exact (Machine.load_steady w i).safely
  | store w i => exact (Machine.store_steady w i).safely
  | increment i d => exact (Machine.increment_steady i d).safely
  | intOp op => exact (Machine.intBinary_steady _ _).safely
  | intShift op => exact (Machine.intBinary_steady _ _).safely
  | intDivide op d => exact Machine.intDivide_steady op d
  | intNegate => exact (Machine.popInt_steady.bind fun _ => Machine.push_steady _).safely
  | longOp op => exact (Machine.longBinary_steady _ _).safely
  | longShift op => exact (Machine.longShift_steady op).safely
  | longDivide op d => exact Machine.longDivide_steady op d
  | longNegate => exact (Machine.popLong_steady.bind fun _ => Machine.push_steady _).safely
  | longCompare =>
    exact (Machine.popLong_steady.bind fun _ =>
      Machine.popLong_steady.bind fun _ => Machine.push_steady _).safely
  | floatOp op => exact (Machine.floatBinary_steady op).safely
  | floatNegate => exact (Machine.popFloat_steady.bind fun _ => Machine.push_steady _).safely
  | floatCompare =>
    exact (Machine.popFloat_steady.bind fun _ =>
      Machine.popFloat_steady.bind fun _ => Machine.push_steady _).safely
  | doubleOp op => exact (Machine.doubleBinary_steady op).safely
  | doubleNegate => exact (Machine.popDouble_steady.bind fun _ => Machine.push_steady _).safely
  | doubleCompare =>
    exact (Machine.popDouble_steady.bind fun _ =>
      Machine.popDouble_steady.bind fun _ => Machine.push_steady _).safely
  | convert c => exact (Machine.convert_steady c).safely
  | shuffle sh => exact (Machine.onStack_steady (Stack.shuffle_finite sh)).safely
  | branchZero ρ b =>
    exact (Machine.popInt_steady.bind fun _ => Machine.decideBranch_steady _ b).safely
  | branchCompare ρ b =>
    exact (Machine.popInt_steady.bind fun _ =>
      Machine.popInt_steady.bind fun _ => Machine.decideBranch_steady _ b).safely
  | branchNull => exact Machine.popRef_steady.discard.safely
  | branchSame =>
    exact (Machine.popRef_steady.discard.bind fun _ => Machine.popRef_steady.discard).safely
  | tableSwitch b low high => exact (Machine.tableSwitch_steady b low high).safely
  | lookupSwitch b keys => exact (Machine.lookupSwitch_steady b keys).safely
  | newArray n c => exact Machine.newArray_steady n c
  | newMultiArray t dims => exact Machine.newMultiArray_steady t dims
  | arrayLength a => exact Machine.arrayLength_steady a
  | arrayLoad w a n => exact Machine.arrayLoad_steady w a n
  | arrayStore w a n => exact Machine.arrayStore_steady w a n
  | getField v o n d x => exact Machine.getField_steady v o n d x
  | putField v o n d => exact Machine.putField_steady v o n d
  | checkCast t => exact (Machine.checkCast_steady t).safely
  | monitor v => exact Machine.monitor_steady v
  | enter m s n => exact (Machine.enter_steady m s n).safely
  | leave => exact Machine.popFrame_steady.discard.safely
  | leaveWith w => exact (Machine.leaveWith_steady w).safely
  | callUnwatched d s v => exact (Machine.callUnwatched_steady d s v).safely
  | throwTo d v => exact (Machine.throwTo_steady d v).safely

end Instruction

end Concolic
