import Concolic.Proofs.Bounds
import Concolic.Proofs.Provenance

/-
# Loads agree with the host

The heap remembers what was stored, and the host says what it reads.  The two can be out of step:
code that is not watched writes fields, a field is stored at one width and loaded at another, and a
reference that was stored may by now stand for nothing, for the object that is read or for another
one.  Still a load pushes what the host reads (`load_shows_host`).

What is stored wins only while it agrees, which for references means that the numbers agree.  The
object was bound just before, perhaps to the reference stored there, so the question is whether two
references with one number are one.  They are, by what is known of the references in a machine
(`Machine.Reachable.made`).

Not-a-number is no object: the host does not find it the same as itself.  As a reference it gets a
new number every time it is asked for.
-/
namespace Concolic

/-! ## 1. What the host reads -/

namespace Value

/-- The integer that the value is; the truth values are 0 and 1. -/
def integer? : Value → Option Int
  | bool b => some (if b then 1 else 0)
  | byte v => some v.toInt
  | short v => some v.toInt
  | char v => some v.toNat
  | int v => some v.toInt
  | long v => some v.toInt
  | word v => some v.toInt
  | octet v => some v.toNat
  | _ => none

/-- The number that the value is, if it is one of the floating types. -/
def real? : Value → Option Double
  | float v => some v
  | double v => some v
  | _ => none

/-- Whether the value is not a number, though it is of a floating type. -/
def isNaN : Value → Bool
  | float v => v.isNaN
  | double v => v.isNaN
  | _ => false

/-- **All that has an identity is the same as itself, not-a-number apart.** -/
theorem same_self_iff (v : Value) :
    v.same v = true ↔ v.isComparable = true ∧ v.isNaN = false := by
  have hdouble (x : Double) : x.sameValue x = true ↔ x.isNaN = false := by
    rw [Double.sameValue_iff, Double.isNaN]
    cases x.view <;> simp [Double.View.SameNumber]
  cases v with
  | float x | double x => simp [same, isComparable, isNaN, hdouble]
  | _ => simp [same, isComparable, isNaN]

/-- An int is an integer cut to 32 bits. -/
theorem integer?_of_toInt {v : Value} {n : Int32} (h : v.toInt = .ok n) :
    ∃ k, v.integer? = some k ∧ n.toInt = k.bmod (2 ^ 32) := by
  have hcut : ∀ {k : Int}, Int32.ofInt k = n → n.toInt = k.bmod (2 ^ 32) := by
    rintro k rfl
    exact Int32.toInt_ofInt
  cases v with
  | bool b =>
    cases h
    cases b <;> exact ⟨_, rfl, rfl⟩
  | byte v =>
    cases h
    exact ⟨_, rfl, hcut (Int32.ofInt_int8ToInt v)⟩
  | short v =>
    cases h
    exact ⟨_, rfl, hcut (Int32.ofInt_int16ToInt v)⟩
  | int v =>
    cases h
    exact ⟨_, rfl, hcut (Int32.ofInt_toInt _)⟩
  | word v =>
    cases h
    exact ⟨_, rfl, Int64.toInt_toInt32 v⟩
  | char v | octet v =>
    cases h
    exact ⟨_, rfl, hcut Int32.ofInt_eq_ofNat⟩
  | _ => cases h

theorem integer?_of_toLong {v : Value} {n : Int64} (h : v.toLong = .ok n) :
    v.integer? = some n.toInt := by
  cases v with
  | long v | word v =>
    cases h
    rfl
  | int v =>
    cases h
    rw [Int32.toInt_toInt64]
    rfl
  | _ => cases h

theorem real?_of_toReal {v : Value} {x : Double} (h : v.toReal = .ok x) : v.real? = some x := by
  cases v with
  | float v | double v =>
    cases h
    rfl
  | _ => cases h

end Value

namespace Heap

/-- The operand has the value that the host reads.  An int is cut to its width and a single is
rounded.  A reference is the one that the heap gives for the object when it is asked again, which
changes nothing; not-a-number has the reference, but will not be found under it. -/
def Shows (h : Heap) (v : Value) : Operand → Prop
  | .bv32 e => ∃ k, v.integer? = some k ∧ e.concrete.toInt = k.bmod (2 ^ 32)
  | .bv64 e => v.integer? = some e.concrete.toInt
  | .fp32 e => ∃ x, v.real? = some x ∧ e.concrete = x.single
  | .fp64 e => v.real? = some e.concrete
  | .ref e =>
    if v.isNaN then ∃ r, e = .object r ∧ (v, r) ∈ h.objects else reference v h = (.ok e, h)

/-! ## 2. Stored and observed -/

variable {rs : List Ref} {h h' : Heap} {v : Value} {e e' : RefExpr}

/-- **References that agree are the same.** -/
theorem Made.eq_of_agrees (hm : h.Made rs) (he : e.Among rs) (he' : e'.Among rs)
    (hagrees : (Expr.ref e).agrees (.ref e') = true) : e = e' := by
  cases e with
  | null =>
    cases e' with
    | null => rfl
    | object r => cases hagrees
  | object r =>
    cases e' with
    | null => cases hagrees
    | object r' => rw [hm.eq_of_id he he' (of_decide_eq_true hagrees)]

/-- Only what has an identity gets a reference, and only null is null. -/
theorem resolve_object (hv : v ≠ .null) (hrun : resolve e v h = (.ok e', h')) :
    v.isComparable = true ∧ ∃ r, e' = .object r := by
  rcases resolve_cases h e v with heq | ⟨r, rfl, -, ho, hr⟩
  · rw [heq] at hrun
    cases ho : h.object? v with
    | some r =>
      rw [reference_of_object? hv ho] at hrun
      cases hrun
      exact ⟨((v.same_self_iff).mp (stands_of_object? ho).1).1, r, rfl⟩
    | none =>
      rw [reference_of_none hv ho] at hrun
      split at hrun
      next hc =>
        cases hrun
        exact ⟨hc, _, rfl⟩
      · cases hrun
  · rw [resolve_of_free hv ho hr] at hrun
    split at hrun
    next hc =>
      cases hrun
      exact ⟨hc, r, rfl⟩
    · cases hrun

theorem Stands.shows {r : Ref} (hr : h.Stands r v) (hv : v ≠ .null)
    (hc : v.isComparable = true) : h.Shows v (.ref (.object r)) := by
  rw [Shows]
  split
  next hnan =>
    have hself : ¬ v.same v = true := by rw [v.same_self_iff, hnan]; simp
    obtain ⟨p, hp, rfl, rfl | hsame⟩ := hr.bound
    · exact ⟨p.2, rfl, hp⟩
    · -- what is the same as a key is the same as itself
      exact absurd (Value.same_trans hsame (Value.same_symm hsame)) hself
  next hnan =>
    have hself : v.same v = true := v.same_self_iff.mpr ⟨hc, by simpa using hnan⟩
    exact reference_of_object? hv (hr.found hself)

theorem shows_of_resolve (hrun : resolve e v h = (.ok e', h')) : h'.Shows v (.ref e') := by
  by_cases hv : v = .null
  · subst hv
    cases hrun
    exact reference_null h
  · obtain ⟨hc, r, rfl⟩ := resolve_object hv hrun
    have hstands := stands_of_resolve (e := e) (v := v) (h := h) (r := r) (by rw [hrun])
    rw [hrun] at hstands
    exact hstands.shows hv hc

theorem shows_of_reference (hrun : reference v h = (.ok e, h')) : h'.Shows v (.ref e) := by
  have hresolve : resolve .null v h = reference v h :=
    resolve_eq_reference h (Or.inr (Or.inr fun _ hr => by cases hr))
  exact shows_of_resolve (hresolve.trans hrun)

theorem agrees_current (stored : Option Expr) (y : Expr) :
    (current stored y).agrees y = true := by
  have hself : y.agrees y = true := by
    cases y with
    | ref e =>
      cases e with
      | null => rfl
      | object r => exact decide_eq_true rfl
    | _ => exact decide_eq_true rfl
  unfold current
  split
  · split
    · assumption
    · exact hself
  · exact hself

theorem int_of_agrees {x : Expr} {c : Int64} (h : x.agrees (.int (.const c)) = true) :
    ∃ e, x = .int e ∧ e.concrete = c := by
  cases x with
  | int e => exact ⟨e, rfl, of_decide_eq_true h⟩
  | ref e => cases e <;> cases h
  | _ => cases h

theorem real_of_agrees {x : Expr} {c : Double} (h : x.agrees (.real (.const c)) = true) :
    ∃ e, x = .real e ∧ e.concrete = c := by
  cases x with
  | real e => exact ⟨e, rfl, of_decide_eq_true h⟩
  | ref e => cases e <;> cases h
  | _ => cases h

theorem Made.ref_of_agrees (hm : h.Made rs) {x : Expr} (hx : x.Among rs) (he : e.Among rs)
    (hagrees : x.agrees (.ref e) = true) : x = .ref e := by
  cases x with
  | ref e' => rw [hm.eq_of_agrees hx he hagrees]
  | _ => cases e <;> cases hagrees

/-- A constant is read off the value, if the value converts. -/
theorem constant_ok {α : Type} {c : Except Violation α} {g : α → Expr} {y : Expr}
    (hrun : (Act.ofExcept c >>= fun x => pure (g x) : Act Heap Expr) h = (.ok y, h')) :
    ∃ x, c = .ok x ∧ y = g x := by
  obtain ⟨x, h₁, hx, hpure⟩ := Act.bind_ok hrun
  obtain ⟨hc, rfl⟩ := Act.ofExcept_ok hx
  cases hpure
  exact ⟨x, hc, rfl⟩

theorem constant_ref {y : Expr} (hrun : constant (some .ref) v h = (.ok y, h')) :
    ∃ e, y = .ref e ∧ h'.Shows v (.ref e) := by
  obtain ⟨e, h₁, hreference, hpure⟩ := Act.bind_ok hrun
  cases hpure
  exact ⟨e, rfl, shows_of_reference hreference⟩

/-- A reference is observed by asking for the object, through what is stored or not. -/
theorem observe_ref {stored : Option Expr} {y : Expr}
    (hrun : observe (some .ref) v stored h = (.ok y, h')) :
    ∃ e, y = .ref e ∧ h'.Shows v (.ref e) := by
  cases stored with
  | none => exact constant_ref hrun
  | some x =>
    cases x with
    | ref e₀ =>
      obtain ⟨e, h₁, hresolve, hpure⟩ := Act.bind_ok hrun
      cases hpure
      exact ⟨e, rfl, shows_of_resolve hresolve⟩
    | _ => exact constant_ref hrun

/-- **What is read from a location has the value that the host reads,** whatever is stored there. -/
theorem observe_shows (hm : h.Made rs) (l : Location) {w : Width} {y : Expr} {o : Operand}
    (hrun : observe (some w) v (h.stored? l) h = (.ok y, h'))
    (ho : Operand.ofExpr w (current (h'.stored? l) y) = .ok o) :
    o.width = w ∧ h'.Shows v o := by
  have hagrees := agrees_current (h'.stored? l) y
  obtain ⟨rs', -, hm', hy⟩ := observe_adds (some w) v (fun x hx => hm.stored? hx) h hm
  rw [hrun] at hm' hy
  have hcurrent := hm'.current l (hy y rfl)
  generalize current (h'.stored? l) y = x at hagrees ho hcurrent
  cases w with
  | bv32 =>
    obtain ⟨n, hv, rfl⟩ := constant_ok (show constant (some .bv32) v h = _ from hrun)
    obtain ⟨e, rfl, he⟩ := int_of_agrees hagrees
    cases ho
    obtain ⟨k, hk, hcut⟩ := Value.integer?_of_toInt hv
    exact ⟨rfl, k, hk, by rw [he, Int32.toInt_toInt64, hcut]⟩
  | bv64 =>
    obtain ⟨n, hv, rfl⟩ := constant_ok (show constant (some .bv64) v h = _ from hrun)
    obtain ⟨e, rfl, rfl⟩ := int_of_agrees hagrees
    cases ho
    exact ⟨rfl, Value.integer?_of_toLong hv⟩
  | fp32 =>
    obtain ⟨c, hv, rfl⟩ := constant_ok (show constant (some .fp32) v h = _ from hrun)
    obtain ⟨e, rfl, he⟩ := real_of_agrees hagrees
    cases ho
    exact ⟨rfl, c, Value.real?_of_toReal hv, he⟩
  | fp64 =>
    obtain ⟨c, hv, rfl⟩ := constant_ok (show constant (some .fp64) v h = _ from hrun)
    obtain ⟨e, rfl, rfl⟩ := real_of_agrees hagrees
    cases ho
    exact ⟨rfl, Value.real?_of_toReal hv⟩
  | ref =>
    obtain ⟨e, rfl, hshows⟩ := observe_ref hrun
    obtain rfl := hm'.ref_of_agrees hcurrent (hy _ rfl) hagrees
    cases ho
    exact ⟨rfl, hshows⟩

end Heap

/-! ## 3. Where a load comes from -/

namespace Machine

variable {m m' : Machine}

theorem element_ok {a : HostArray} {n : Int32} {v : Value}
    (hrun : element a n m = (.ok v, m')) : a.elems[n.toInt.toNat]? = some v ∧ m' = m := by
  rw [element] at hrun
  cases hv : a.elems[n.toInt.toNat]? with
  | none =>
    rw [hv] at hrun
    cases hrun
  | some v' =>
    rw [hv] at hrun
    cases hrun
    exact ⟨rfl, rfl⟩

theorem onHeap_ok {a : Act Heap α} {x : α} (hrun : onHeap a m = (.ok x, m')) :
    a m.heap = (.ok x, m'.heap) ∧ m'.frames = m.frames := by
  obtain ⟨hx, rfl⟩ := Prod.mk.inj hrun
  exact ⟨Prod.ext hx rfl, rfl⟩

/-- From `m` to `m'`, the frame on top loses `k` operands, if there is one, and the others stay. -/
def Takes (k : Nat) (m m' : Machine) : Prop :=
  ∀ g rest, m'.frames = g :: rest →
    ∃ f, m.frames = f :: rest ∧ k ≤ f.stack.length ∧ g = { f with stack := f.stack.drop k }

theorem Popped.takes {k : Nat} (h : Popped k m m') : Takes k m m' := by
  obtain ⟨f, rest, hf, hk, hm'⟩ := h.frames
  intro g rest' hg
  obtain ⟨rfl, rfl⟩ := List.cons.inj (hm'.symm.trans hg)
  exact ⟨f, hf, hk, rfl⟩

end Machine

namespace Instruction

/-- The value that the host reads for a load. -/
def reported : Instruction → Option Value
  | getField _ _ _ _ v => some v
  | getStatic _ _ _ v => some v
  | arrayLoad _ (some a) n => if n < 0 then none else a.elems[n.toInt.toNat]?
  | _ => none

/-- The width that a load asks for. -/
def requested : Instruction → Option Width
  | getField _ _ _ desc _ => (Descriptor.width (Text.bytes desc)).toOption.join
  | getStatic _ _ desc _ => (Descriptor.width (Text.bytes desc)).toOption.join
  | arrayLoad w _ _ => some w
  | _ => none

/-- How many operands a load pops. -/
def loadArity : Instruction → Nat
  | getField .. => 1
  | arrayLoad .. => 2
  | _ => 0

/-- A load that finds its location reads there what the host reports, at the width it asks for. -/
theorem origin_ok {i : Instruction} {m m' : Machine} {l : Location} {w : Option Width} {v : Value}
    (hrun : i.origin m = (.ok (some (l, w, v)), m')) :
    i.reported = some v ∧ i.requested = w ∧ m.Takes i.loadArity m' := by
  cases i with
  | getField receiver owner name desc v' =>
    obtain ⟨e, m₁, he, hrest⟩ := Act.bind_ok hrun
    have hpopped : Machine.Popped 1 m m₁ :=
      Machine.popped_of_onStack he fun _ _ h => ⟨_, Stack.popRef_ok h⟩
    split at hrest
    · obtain ⟨_, _, -, hend⟩ := Act.bind_ok hrest
      cases hend
    obtain ⟨x, m₂, hresolve, hrest⟩ := Act.bind_ok hrest
    cases x with
    | null => cases hrest
    | object r =>
      obtain ⟨w', m₃, hwidth, hend⟩ := Act.bind_ok hrest
      obtain ⟨hdesc, rfl⟩ := Act.ofExcept_ok hwidth
      cases hend
      obtain ⟨-, rfl⟩ := Prod.mk.inj hresolve
      refine ⟨rfl, ?_, hpopped.takes⟩
      rw [requested, hdesc]
      rfl
  | getStatic owner name desc v' =>
    obtain ⟨_, m₁, hprepare, hrest⟩ := Act.bind_ok hrun
    obtain ⟨w', m₂, hwidth, hend⟩ := Act.bind_ok hrest
    obtain ⟨hdesc, rfl⟩ := Act.ofExcept_ok hwidth
    cases hend
    obtain ⟨names, log, hleft, -⟩ := Machine.prepare_prepares owner m
    rw [hprepare] at hleft
    subst hleft
    refine ⟨rfl, ?_, fun g rest hg => ⟨g, hg, Nat.zero_le _, rfl⟩⟩
    rw [requested, hdesc]
    rfl
  | arrayLoad w' a n =>
    obtain ⟨index, m₁, hindex, hrun₁⟩ := Act.bind_ok hrun
    obtain ⟨e, m₂, he, hrun₂⟩ := Act.bind_ok hrun₁
    obtain ⟨o, m₃, hcheck, hfound⟩ := Act.bind_ok hrun₂
    have hpopped : Machine.Popped 2 m m₂ :=
      (Machine.popped_of_onStack hindex fun _ _ h => ⟨_, Stack.popInt_ok h⟩).trans
        (Machine.popped_of_onStack he fun _ _ h => ⟨_, Stack.popRef_ok h⟩)
    obtain ⟨μ, s, hat⟩ := hpopped.exists_at
    obtain ⟨hchecked, ⟨rfl, -⟩ | ⟨r, x, rfl, rfl, hn, -⟩⟩ := Machine.checkAccess_cases hat hcheck
    · cases hfound
    · obtain ⟨v', m₄, helement, hend⟩ := Act.bind_ok hfound
      cases hend
      obtain ⟨hx, rfl⟩ := Machine.element_ok helement
      exact ⟨(if_neg hn).trans hx, rfl, (hpopped.trans hchecked).takes⟩
  | _ => cases hrun

end Instruction

/-! ## 4. Loads -/

/-- What is pushed has the value that the host reads. -/
theorem Machine.loaded_shows {m m' : Machine} {rs : List Ref} (hm : m.Made rs) {l : Location}
    {w : Option Width} {v : Value} {o : Operand} (hrun : loaded l w v m = (.ok o, m')) :
    w = some o.width ∧ m'.heap.Shows v o ∧ m'.frames = m.frames := by
  rw [loaded, Act.get_bind_apply] at hrun
  obtain ⟨y, m₁, hobserve, hrest⟩ := Act.bind_ok hrun
  obtain ⟨hy, hframes⟩ := onHeap_ok hobserve
  cases w with
  | none => cases hrest
  | some w =>
    dsimp only at hrest
    rw [Act.get_bind_apply] at hrest
    obtain ⟨ho, rfl⟩ := Act.ofExcept_ok hrest
    obtain ⟨hwidth, hshows⟩ := Heap.observe_shows hm.heap l hy ho
    exact ⟨congrArg some hwidth.symm, hshows, hframes⟩

/-- **Loads agree with the host.**  A load that neither faults nor fails leaves the frame with one
operand in place of those it pops.  The operand has the width that the load asks for and the value
that the host reads, whatever is stored in the location. -/
theorem load_shows_host {m m' : Machine} {i : Instruction} (hm : m.Reachable)
    (hi : i.isLoad = true) (hrun : i.exec m = (.ok false, m')) :
    ∃ v o f rest, i.reported = some v ∧ i.requested = some o.width ∧ m'.heap.Shows v o ∧
      m.frames = f :: rest ∧ i.loadArity ≤ f.stack.length ∧
      m'.frames = { f with stack := o :: f.stack.drop i.loadArity } :: rest := by
  obtain ⟨rs, hmade⟩ := hm.made
  rw [Instruction.exec_load hi] at hrun
  obtain ⟨x, m₁, horigin, hfetch⟩ := Act.bind_ok hrun
  obtain ⟨rs₁, -, hmade₁, -⟩ := i.origin_orderly rs m hmade
  rw [horigin] at hmade₁
  cases x with
  | none => cases hfetch
  | some p =>
    obtain ⟨l, w, v⟩ := p
    obtain ⟨hreported, hrequested, htakes⟩ := Instruction.origin_ok horigin
    obtain ⟨o, m₂, hloaded, hrest⟩ := Act.bind_ok hfetch
    obtain ⟨hwidth, hshows, hframes⟩ := Machine.loaded_shows hmade₁ hloaded
    obtain ⟨_, m₃, hpush, hend⟩ := Act.bind_ok hrest
    cases hend
    obtain ⟨g, s, rest, hg, hpushed, hm'⟩ := Machine.onStack_frames hpush
    cases hpushed
    obtain ⟨f, hf, harity, rfl⟩ := htakes g rest (hframes.symm.trans hg)
    have hheap : m'.heap = m₂.heap := (Machine.onStack_ok hpush).2.1
    exact ⟨v, o, f, rest, hreported, hrequested.trans hwidth, hheap ▸ hshows, hf, harity, hm'⟩

/-- A machine whose static field holds the reference of an object `a`. -/
def heldReference : Machine :=
  ((Instruction.putStatic "A" "next" "LA;").exec (storeInput.exec atStore).2).2

/-- By now the host has an object `b` there. -/
def loadOther : Instruction := .getStatic "A" "next" "LA;" (.object "b" "B")

theorem heldReference_loadOther :
    heldReference.Reachable ∧
    heldReference.heap.stored? (.field ⟨0, "A", "next"⟩) = some (.ref (.object ⟨1, "A"⟩)) ∧
    ∃ e m, loadOther.exec heldReference = (.ok false, m) ∧ m.operands = [.ref e] ∧
      m.heap.reference (.object "b" "B") = (.ok e, m.heap) := by
  have hm : heldReference.Reachable := .step _ (.step _ atStore_reachable)
  obtain ⟨m, hrun⟩ : ∃ m, loadOther.exec heldReference = (.ok false, m) := ⟨_, rfl⟩
  obtain ⟨v, o, f, rest, hv, hwidth, hshows, hf, -, hm'⟩ := load_shows_host hm rfl hrun
  cases hv
  cases hf
  cases o with
  | ref e =>
    refine ⟨hm, by decide, e, m, hrun, ?_, hshows⟩
    rw [Machine.operands, Machine.core, hm']
    rfl
  | _ => cases hwidth

/-- A machine with one empty frame. -/
def atNaN : Machine :=
  { Machine.recording none with frames := [⟨⟨"A", "f", "()V"⟩, [], ⟨[]⟩, false⟩] }

def loadNaN : Instruction := .getStatic "[I" "s" "Ljava/lang/Object;" (.double .nan)

/-- Not-a-number is loaded as a reference; asked for it again, the heap gives another one. -/
theorem nan_not_found_again :
    atNaN.Reachable ∧ (loadNaN.exec atNaN).1 = .ok false ∧
    (loadNaN.exec atNaN).2.operands = [.ref (.object ⟨1, Value.rootClass⟩)] ∧
    ((loadNaN.exec atNaN).2.heap.reference (.double .nan)).1 =
      .ok (.object ⟨2, Value.rootClass⟩) := by
  refine ⟨.start (t := {}) .refl rfl fun f hf => ?_, by decide, by decide, by decide⟩
  obtain rfl := List.mem_singleton.mp hf
  refine ⟨fun o ho => ?_, fun o ho => ?_⟩
  · cases ho
  · cases ho

end Concolic
