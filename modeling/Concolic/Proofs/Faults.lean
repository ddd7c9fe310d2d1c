import Concolic.Proofs.FaultTests

/-
# Faults settle their outcomes

On other values of the tested operands, and of the length that the heap has for an array, what a
division, a new array or an access reports holds exactly if the instruction would have the same
outcome.

The tests go by numbers that the host saw; here they are the values of the operands
(`Instruction.Sees`).
-/
namespace Concolic

/-! ## 1. What is tested -/

/-- **The instruction tests the integers `es` for a fault.**  They stand on the stack, but for the
length of an array that is accessed, which the heap has.  It is not looked at if the index is
negative. -/
inductive Faces (m : Machine) : Instruction → List IntExpr → (List Int → Outcome) → Prop
  | intDivide {op : DivOp} {d : Int32} {l r : IntExpr} {s : Stack} :
    m.operands = .bv32 r :: .bv32 l :: s → Faces m (.intDivide op d) [r] Outcome.divided
  | longDivide {op : DivOp} {d : Int64} {l r : IntExpr} {s : Stack} :
    m.operands = .bv64 r :: .bv64 l :: s → Faces m (.longDivide op d) [r] Outcome.divided
  | newArray {n : Int32} {component type : String} {e : IntExpr} {s : Stack} :
    Descriptor.arrayType component = .ok type → m.operands = .bv32 e :: s →
    Faces m (.newArray n component) [e] Outcome.sized
  | newMultiArray {type : String} {dims : List Int32} {ls : List IntExpr} {s : Stack} :
    dims ≠ [] → ls.length = dims.length → m.operands = ls.reverse.map .bv32 ++ s →
    Faces m (.newMultiArray type dims) ls Outcome.sized
  | arrayLoad {w : Width} {a : HostArray} {n : Int32} {index length : IntExpr} {x : RefExpr}
      {s : Stack} :
    m.operands = .bv32 index :: .ref x :: s → (0 ≤ n → m.HasLength x a length) →
    Faces m (.arrayLoad w (some a) n) [index, length] Outcome.accessed
  | arrayStore {w : Width} {a : HostArray} {n : Int32} {o : Operand} {index length : IntExpr}
      {x : RefExpr} {s : Stack} :
    o.width = w → m.operands = o :: .bv32 index :: .ref x :: s →
    (0 ≤ n → m.HasLength x a length) →
    Faces m (.arrayStore w (some a) n) [index, length] Outcome.accessed

/-! ## 2. Instructions -/

/-- The action makes tests of `es` that come out as on this run exactly if the outcome does, and it
answers with whether there is a fault. -/
def Decides (es : List IntExpr) (outcome : List Int → Outcome) (c : Core) (a : Act Machine Bool) :
    Prop :=
  ∃ res c' ts, Asks es c a res c' ts ∧ (res = .ok true ↔ outcome (actual es) ≠ .fine) ∧
    ∀ vs, Possible es vs → ((∀ t ∈ ts, t.Holds vs) ↔ outcome vs = outcome (actual es))

namespace Decides

variable {es : List IntExpr} {outcome : List Int → Outcome} {c c₁ : Core} {a : Act Machine α}
  {g : α → Act Machine Bool} {x : α} {ts : List Test}

theorem silent_bind (ha : Tells c a (.ok x) c₁ []) (hg : Decides es outcome c₁ (g x)) :
    Decides es outcome c (a >>= g) := by
  obtain ⟨res, c', ts, hask, hres, hts⟩ := hg
  exact ⟨res, c', ts, Asks.silent_bind ha hask, hres, hts⟩

/-- Tests that end the action if there is a fault, before actions that make no tests and do not end
in a fault. -/
theorem of_tests (ha : Asks es c a (.ok x) c₁ ts)
    (hts : ∀ vs, Possible es vs → ((∀ t ∈ ts, t.Holds vs) ↔ outcome vs = outcome (actual es)))
    (hfault : outcome (actual es) ≠ .fine → g x = Pure.pure true)
    (hfine : outcome (actual es) = .fine →
      Does (fun _ => True) (fun _ => False) (g x) (· = false)) :
    Decides es outcome c (a >>= g) := by
  by_cases h : outcome (actual es) = .fine
  · obtain ⟨res, c', htells, -, hres⟩ := (hfine h).silent c₁.all_true
    refine ⟨res, c', ts, ha.bind_silent htells, iff_of_false ?_ (not_not_intro h), hts⟩
    exact fun htrue => Bool.false_ne_true (hres true htrue).symm
  · have htells : Tells c₁ (g x) (.ok true) c₁ [] := by
      rw [hfault h]
      exact Tells.pure true
    exact ⟨.ok true, c₁, ts, ha.bind_silent htells, iff_of_true rfl h, hts⟩

end Decides

section

variable {m : Machine} {s : Stack}

/-- Nothing is reported and there is no fault. -/
theorem push_tail (o : Operand) :
    Does (fun _ => True) (fun _ => False) (do
      Machine.push o
      return false) (· = false) :=
  (Machine.push_does o.all_true).bind fun _ _ => Does.pure rfl

/-- A division, from its test on. -/
theorem zeroDivisor_decides {c : Core} {μ : MethodRef} {h : Heap} (hc : c.At μ s h) {e : IntExpr}
    {z : Bool} (hz : z = true ↔ e.concrete.toInt = 0) {tail : Act Machine Bool}
    (htail : Does (fun _ => True) (fun _ => False) tail (· = false)) :
    Decides [e] Outcome.divided c (do
      if ← Machine.zeroDivisor e z then return true
      tail) := by
  refine Decides.of_tests (zeroDivisor_asks hc e z) (fun vs hvs => divided_iff hz hvs) (fun h => ?_)
    fun h => ?_
  · exact if_pos (hz.mpr (divided_ne_fine.mp h))
  · rw [if_neg fun hzero => divided_ne_fine.mpr (hz.mp hzero) h]
    exact htail

theorem intDivide_decides {op : DivOp} {d : Int32} {l r : IntExpr}
    (hs : m.operands = .bv32 r :: .bv32 l :: s) (hd : r.concrete = d.toInt64) :
    Decides [r] Outcome.divided m.core (Machine.intDivide op d) := by
  have hzero : decide (d = 0) = true ↔ r.concrete.toInt = 0 := by
    rw [decide_eq_true_iff, hd, Int32.toInt_toInt64, ← Int32.toInt_inj]
    rfl
  obtain ⟨μ, hc⟩ := Machine.exists_at hs
  obtain ⟨c₁, hr, hc₁⟩ := hc.popInt
  obtain ⟨c₂, hl, hc₂⟩ := hc₁.popInt
  refine Decides.silent_bind hr (Decides.silent_bind hl ?_)
  exact zeroDivisor_decides hc₂ hzero (push_tail _)

theorem longDivide_decides {op : DivOp} {d : Int64} {l r : IntExpr}
    (hs : m.operands = .bv64 r :: .bv64 l :: s) (hd : r.concrete = d) :
    Decides [r] Outcome.divided m.core (Machine.longDivide op d) := by
  have hzero : decide (d = 0) = true ↔ r.concrete.toInt = 0 := by
    rw [decide_eq_true_iff, hd, ← Int64.toInt_inj]
    rfl
  obtain ⟨μ, hc⟩ := Machine.exists_at hs
  obtain ⟨c₁, hr, hc₁⟩ := hc.popLong
  obtain ⟨c₂, hl, hc₂⟩ := hc₁.popLong
  refine Decides.silent_bind hr (Decides.silent_bind hl ?_)
  exact zeroDivisor_decides hc₂ hzero (push_tail _)

theorem newArray_tail (type : String) (length : IntExpr) :
    Does (fun _ => True) (fun _ => False) (do
      Machine.push (.ref (.object (← Machine.onHeap (Heap.newArray type length))))
      return false) (· = false) :=
  (Machine.onHeap_does (Heap.newArray_keeps type trivial)).bind fun r _ =>
    push_tail (.ref (.object r))

theorem newArray_decides {n : Int32} {component type : String} {e : IntExpr}
    (htype : Descriptor.arrayType component = .ok type) (hs : m.operands = .bv32 e :: s)
    (hn : e.concrete = n.toInt64) :
    Decides [e] Outcome.sized m.core (Machine.newArray n component) := by
  have hactual : actual [e] = [n].map Int32.toInt := actual_eq rfl (by simpa using hn)
  have hneg : n < 0 ↔ Outcome.sized (actual [e]) ≠ .fine := by
    rw [hactual, ← sized_ne_fine, List.any_cons, List.any_nil, Bool.or_false, decide_eq_true_iff]
  have htests : signTests 0 [n] = [signTest 0 n] := by rw [signTests, signTests, ite_self]
  obtain ⟨μ, hc⟩ := Machine.exists_at hs
  obtain ⟨c₁, he, hc₁⟩ := hc.popInt
  rw [Machine.newArray, htype]
  refine Decides.silent_bind he ?_
  have hhead : [e].getD 0 (.const 0) = e := rfl
  refine Decides.of_tests (negativeLength_asks hc₁ hhead n)
    (fun vs hvs => htests ▸ sized_iff hactual hvs) (fun h => ?_) fun h => ?_
  · exact if_pos (decide_eq_true (hneg.mpr h))
  · rw [if_neg (by simpa using fun hlt => hneg.mp hlt h)]
    exact newArray_tail type e

/-- Lengths on the stack, the innermost on top, are popped into their order. -/
theorem popLengths_append (rs : List IntExpr) (s : Stack) :
    Machine.popLengths rs.length (rs.map .bv32 ++ s) = (.ok rs.reverse, s) := by
  induction rs with
  | nil => rfl
  | cons e rs ih =>
    change (do return (← Machine.popLengths rs.length) ++ [e] : Act Stack _) (rs.map .bv32 ++ s) = _
    rw [Act.bind_apply, ih, List.reverse_cons]
    rfl

theorem newMultiArray_decides {type : String} {dims : List Int32} {ls : List IntExpr}
    (hdims : dims ≠ []) (hlen : ls.length = dims.length)
    (hs : m.operands = ls.reverse.map .bv32 ++ s)
    (hseen : ∀ p ∈ ls.zip dims, p.1.concrete = p.2.toInt64) :
    Decides ls Outcome.sized m.core (Machine.newMultiArray type dims) := by
  have hactual : actual ls = dims.map Int32.toInt := actual_eq hlen hseen
  have hneg : dims.any (· < 0) = true ↔ Outcome.sized (actual ls) ≠ .fine :=
    hactual ▸ sized_ne_fine dims
  have hpop := popLengths_append ls.reverse s
  rw [List.length_reverse, List.reverse_reverse, hlen] at hpop
  obtain ⟨outer, inner, rfl⟩ : ∃ outer inner, ls = outer :: inner := by
    cases ls with
    | nil => exact absurd (List.eq_nil_of_length_eq_zero hlen.symm) hdims
    | cons outer inner => exact ⟨outer, inner, rfl⟩
  obtain ⟨o, s', hcons⟩ := List.exists_cons_of_ne_nil
    (l := (outer :: inner).reverse.map Operand.bv32 ++ s) (by simp)
  obtain ⟨μ, hc⟩ := Machine.exists_at (hs.trans hcons)
  rw [← hcons] at hc
  obtain ⟨c₁, hlengths, hc₁⟩ := hc.onStack hpop
  have hsome : (!dims.isEmpty) = true := by rw [List.isEmpty_eq_false_iff.mpr hdims]; rfl
  refine Decides.silent_bind (Tells.ensure hsome _) (Decides.silent_bind hlengths ?_)
  refine Decides.of_tests (anyNegative_asks hc₁ hlen List.drop_zero)
    (fun vs hvs => sized_iff hactual hvs) (fun h => ?_) fun h => ?_
  · exact if_pos (hneg.mpr h)
  · rw [if_neg fun hany => hneg.mp hany h]
    exact newArray_tail type outer

/-- An access, from its checks on. -/
theorem checkAccess_decides {c : Core} {μ : MethodRef} (hc : c.At μ s m.heap) {x : RefExpr}
    {a : HostArray} {index length : IntExpr} {n : Int32} (hlength : 0 ≤ n → m.HasLength x a length)
    (hn : index.concrete = n.toInt64) {g : Option (Ref × HostArray) → Act Machine Bool}
    (hnone : g none = Pure.pure true)
    (hsome : ∀ p, Does (fun _ => True) (fun _ => False) (g (some p)) (· = false)) :
    Decides [index, length] Outcome.accessed c (Machine.checkAccess x (some a) index n >>= g) := by
  obtain ⟨o, c₁, hcheck, ho⟩ := checkAccess_asks hc index hlength
  rw [accessed_ne_fine hn] at ho
  refine Decides.of_tests hcheck (fun vs hvs => accessed_iff hn hvs) (fun h => ?_) fun h => ?_
  · rw [ho.mpr h, hnone]
  · cases o with
    | none => exact absurd h (ho.mp rfl)
    | some p => exact hsome p

theorem arrayLoad_decides {w : Width} {a : HostArray} {n : Int32} {index length : IntExpr}
    {x : RefExpr} (hs : m.operands = .bv32 index :: .ref x :: s)
    (hlength : 0 ≤ n → m.HasLength x a length) (hn : index.concrete = n.toInt64) :
    Decides [index, length] Outcome.accessed m.core (Machine.arrayLoad w (some a) n) := by
  obtain ⟨μ, hc⟩ := Machine.exists_at hs
  obtain ⟨c₁, hindex, hc₁⟩ := hc.popInt
  obtain ⟨c₂, hx, hc₂⟩ := hc₁.popRef
  refine Decides.silent_bind hindex (Decides.silent_bind hx ?_)
  refine checkAccess_decides hc₂ hlength hn rfl fun (r, a') => ?_
  refine (Machine.element_does a' n).bind fun v _ => Does.get_bind (fun _ _ _ => rfl) fun m' _ => ?_
  refine (Machine.onHeap_does (Heap.observe_keeps closed_true _ _ _)).bind fun observed _ => ?_
  refine Does.get_bind (fun _ _ _ => rfl) fun m' _ => ?_
  exact (Does.ofExcept fun _ _ => trivial).bind fun o _ => push_tail o

theorem arrayStore_decides {w : Width} {a : HostArray} {n : Int32} {o : Operand}
    {index length : IntExpr} {x : RefExpr} (hw : o.width = w)
    (hs : m.operands = o :: .bv32 index :: .ref x :: s)
    (hlength : 0 ≤ n → m.HasLength x a length) (hn : index.concrete = n.toInt64) :
    Decides [index, length] Outcome.accessed m.core (Machine.arrayStore w (some a) n) := by
  obtain ⟨μ, hc⟩ := Machine.exists_at hs
  obtain ⟨c₁, hpop, hc₁⟩ := hc.onStack (a := Stack.pop) rfl
  obtain ⟨c₂, hindex, hc₂⟩ := hc₁.popInt
  obtain ⟨c₃, hx, hc₃⟩ := hc₂.popRef
  refine Decides.silent_bind hpop (Decides.silent_bind (Tells.ensure (decide_eq_true hw) _) ?_)
  refine Decides.silent_bind hindex (Decides.silent_bind hx ?_)
  refine checkAccess_decides hc₃ hlength hn rfl fun (r, a') => ?_
  exact (Machine.putHeap_does fun _ hh => hh.putElem _ (Operand.all_expr.mpr o.all_true)).bind
    fun _ _ => Does.pure rfl

/-- Every test for a fault decides the outcome, if the host sees the tested operands. -/
theorem Faces.decides {i : Instruction} {es : List IntExpr} {outcome : List Int → Outcome}
    (h : Faces m i es outcome) (hsees : i.Sees m.operands) : Decides es outcome m.core i.exec := by
  cases h with
  | @intDivide op d l r s hs =>
    exact intDivide_decides hs (hsees (0, d.toInt64) List.mem_cons_self r (by rw [hs]; rfl))
  | @longDivide op d l r s hs =>
    exact longDivide_decides hs (hsees (0, d) List.mem_cons_self r (by rw [hs]; rfl))
  | @newArray n component type e s htype hs =>
    exact newArray_decides htype hs (hsees (0, n.toInt64) List.mem_cons_self e (by rw [hs]; rfl))
  | newMultiArray hdims hlen hs =>
    exact newMultiArray_decides hdims hlen hs (Machine.sees_lengths hlen (hs ▸ hsees))
  | @arrayLoad w a n index length x s hs hlength =>
    exact arrayLoad_decides hs hlength
      (hsees (0, n.toInt64) List.mem_cons_self index (by rw [hs]; rfl))
  | @arrayStore w a n o index length x s hw hs hlength =>
    exact arrayStore_decides hw hs hlength
      (hsees (1, n.toInt64) List.mem_cons_self index (by rw [hs]; rfl))

end

/-! ## 3. Instructions that answer -/

/-- Both parts of an action that answers do. -/
theorem Act.bind_ok {a : Act σ α} {g : α → Act σ β} {m m'' : σ} {y : β}
    (h : (a >>= g) m = (.ok y, m'')) : ∃ x m', a m = (.ok x, m') ∧ g x m' = (.ok y, m'') := by
  rw [Act.bind_apply] at h
  split at h
  next x m' hx => exact ⟨x, m', hx, h⟩
  next => cases h

theorem Act.bind_ok_iff {a : Act σ α} {g : α → Act σ β} {m m'' : σ} {y : β} :
    (a >>= g) m = (.ok y, m'') ↔ ∃ x m', a m = (.ok x, m') ∧ g x m' = (.ok y, m'') := by
  constructor
  · exact Act.bind_ok
  · rintro ⟨x, m', ha, hg⟩
    rw [Act.bind_apply, ha]
    exact hg

theorem Act.ensure_bind_ok {b : Bool} {v : Violation} {g : Unit → Act σ β} {m m' : σ} {y : β}
    (h : (Act.ensure b v >>= g) m = (.ok y, m')) : b = true ∧ g () m = (.ok y, m') := by
  cases b with
  | true => exact ⟨rfl, h⟩
  | false => cases h

namespace Stack

variable {s s' : Stack}

theorem pop_ok {o : Operand} (h : pop s = (.ok o, s')) : s = o :: s' := by
  cases s with
  | nil => cases h
  | cons o' s =>
    cases h
    rfl

theorem popInt_ok {e : IntExpr} (h : popInt s = (.ok e, s')) : s = .bv32 e :: s' := by
  obtain ⟨o, s₁, hpop, hrest⟩ := Act.bind_ok h
  rw [pop_ok hpop]
  cases o with
  | bv32 e' =>
    cases hrest
    rfl
  | _ => cases hrest

theorem popLong_ok {e : IntExpr} (h : popLong s = (.ok e, s')) : s = .bv64 e :: s' := by
  obtain ⟨o, s₁, hpop, hrest⟩ := Act.bind_ok h
  rw [pop_ok hpop]
  cases o with
  | bv64 e' =>
    cases hrest
    rfl
  | _ => cases hrest

theorem popRef_ok {x : RefExpr} (h : popRef s = (.ok x, s')) : s = .ref x :: s' := by
  obtain ⟨o, s₁, hpop, hrest⟩ := Act.bind_ok h
  rw [pop_ok hpop]
  cases o with
  | ref x' =>
    cases hrest
    rfl
  | _ => cases hrest

end Stack

namespace Machine

variable {m m' : Machine}

theorem onStack_ok {a : Act Stack α} {x : α} (h : onStack a m = (.ok x, m')) :
    a m.operands = (.ok x, m'.operands) ∧ m'.heap = m.heap ∧
      ∃ μ, m'.core.At μ m'.operands m'.heap := by
  obtain ⟨frames, prepared, heap, collector, log, classes⟩ := m
  cases frames with
  | nil => cases h
  | cons f rest =>
    obtain ⟨hres, rfl⟩ := Prod.mk.inj h
    exact ⟨Prod.ext hres rfl, rfl, _, _, rest, rfl, rfl, rfl, rfl⟩

theorem resolveArray_ok {x : RefExpr} {a : HostArray} {r : Ref}
    (h : resolveArray x a m = (.ok r, m')) :
    Heap.resolve x a.toValue m.heap = (.ok (.object r), m'.heap) ∧ r.isArray = true := by
  obtain ⟨y, m₁, hresolve, hrest⟩ := Act.bind_ok h
  cases y with
  | null => cases hrest
  | object r' =>
    obtain ⟨hr, hpure⟩ := Act.ensure_bind_ok hrest
    cases hpure
    obtain ⟨hres, rfl⟩ := Prod.mk.inj hresolve
    exact ⟨Prod.ext hres rfl, hr⟩

/-- An access that gets as far as the length of the array finds it. -/
theorem checkAccess_ok {x : RefExpr} {a : HostArray} {index : IntExpr} {n : Int32}
    {o : Option (Ref × HostArray)} (hat : ∃ μ, m.core.At μ m.operands m.heap)
    (h : checkAccess x (some a) index n m = (.ok o, m')) (hn : 0 ≤ n) :
    ∃ length, m.HasLength x a length := by
  obtain ⟨μ, hc⟩ := hat
  obtain ⟨b, m₁, hsign, hrest⟩ := Act.bind_ok h
  -- the test of the sign leaves the heap as it is, and it passes
  obtain ⟨reps, htells, -⟩ := negativeIndex_asks hc index index n
  obtain ⟨log, hrun⟩ := htells m.collector m.log
  rw [machine_core] at hrun
  obtain ⟨hb, rfl⟩ := Prod.mk.inj (hsign.symm.trans hrun)
  cases hb
  rw [if_neg (by simpa using hn)] at hrest
  obtain ⟨r, m₂, hresolve, -⟩ := Act.bind_ok hrest
  obtain ⟨hx, hr⟩ := resolveArray_ok hresolve
  exact ⟨_, r, _, hx, hr, rfl⟩

theorem access_ok {a : HostArray} {n : Int32} {b : Bool}
    {g : IntExpr → RefExpr → Option (Ref × HostArray) → Act Machine Bool}
    (h : (do
      let index ← onStack Stack.popInt
      let x ← onStack Stack.popRef
      checkAccess x (some a) index n >>= g index x) m = (.ok b, m')) :
    ∃ index x s length, m.operands = .bv32 index :: .ref x :: s ∧
      (0 ≤ n → m.HasLength x a length) := by
  obtain ⟨index, m₁, hindex, h⟩ := Act.bind_ok h
  obtain ⟨x, m₂, hx, h⟩ := Act.bind_ok h
  obtain ⟨o, m₃, hcheck, -⟩ := Act.bind_ok h
  obtain ⟨hindex, heap₁, -⟩ := onStack_ok hindex
  obtain ⟨hx, heap₂, hat⟩ := onStack_ok hx
  have hs : m.operands = .bv32 index :: .ref x :: m₂.operands := by
    rw [Stack.popInt_ok hindex, Stack.popRef_ok hx]
  by_cases hn : 0 ≤ n
  · obtain ⟨length, hlength⟩ := checkAccess_ok hat hcheck hn
    rw [HasLength, heap₂, heap₁] at hlength
    exact ⟨index, x, _, length, hs, fun _ => hlength⟩
  · exact ⟨index, x, _, .const 0, hs, fun hn' => absurd hn' hn⟩

end Machine

/-- Instructions that test integers for a fault.  An access through null tests none. -/
def Instruction.testsFault : Instruction → Bool
  | intDivide .. | longDivide .. | newArray .. | newMultiArray .. => true
  | arrayLoad _ a _ | arrayStore _ a _ => a.isSome
  | _ => false

/-- An instruction that answers has found what it tests. -/
theorem faces_of_exec {m m' : Machine} {i : Instruction} {b : Bool} (htests : i.testsFault = true)
    (h : i.exec m = (.ok b, m')) : ∃ es outcome, Faces m i es outcome := by
  cases i with
  | intDivide op d =>
    obtain ⟨r, m₁, hr, h⟩ := Act.bind_ok h
    obtain ⟨l, m₂, hl, -⟩ := Act.bind_ok h
    have hr := Stack.popInt_ok (Machine.onStack_ok hr).1
    have hl := Stack.popInt_ok (Machine.onStack_ok hl).1
    exact ⟨_, _, .intDivide (hl ▸ hr)⟩
  | longDivide op d =>
    obtain ⟨r, m₁, hr, h⟩ := Act.bind_ok h
    obtain ⟨l, m₂, hl, -⟩ := Act.bind_ok h
    have hr := Stack.popLong_ok (Machine.onStack_ok hr).1
    have hl := Stack.popLong_ok (Machine.onStack_ok hl).1
    exact ⟨_, _, .longDivide (hl ▸ hr)⟩
  | newArray n component =>
    change Machine.newArray n component m = _ at h
    rw [Machine.newArray] at h
    cases htype : Descriptor.arrayType component with
    | error _ =>
      rw [htype] at h
      cases h
    | ok type =>
      rw [htype] at h
      obtain ⟨e, m₁, he, -⟩ := Act.bind_ok h
      exact ⟨_, _, .newArray htype (Stack.popInt_ok (Machine.onStack_ok he).1)⟩
  | newMultiArray type dims =>
    obtain ⟨hdims, h⟩ := Act.ensure_bind_ok h
    obtain ⟨ls, m₂, hls, -⟩ := Act.bind_ok h
    obtain ⟨hs, hlen⟩ := Machine.popLengths_eq (Machine.onStack_ok hls).1
    exact ⟨_, _, .newMultiArray (by simpa using hdims) hlen hs⟩
  | arrayLoad w a n =>
    obtain ⟨a, rfl⟩ := Option.isSome_iff_exists.mp htests
    obtain ⟨index, x, s, length, hs, hlength⟩ := Machine.access_ok h
    exact ⟨_, _, .arrayLoad hs hlength⟩
  | arrayStore w a n =>
    obtain ⟨a, rfl⟩ := Option.isSome_iff_exists.mp htests
    obtain ⟨o, m₁, ho, h⟩ := Act.bind_ok h
    obtain ⟨hw, h⟩ := Act.ensure_bind_ok h
    obtain ⟨index, x, s, length, hs, hlength⟩ := Machine.access_ok h
    obtain ⟨ho, heap₁, -⟩ := Machine.onStack_ok ho
    rw [Machine.HasLength, heap₁] at hlength
    exact ⟨_, _, .arrayStore (of_decide_eq_true hw) ((Stack.pop_ok ho).trans (by rw [hs])) hlength⟩
  | _ => cases htests

/-! ## 4. The reports settle the outcome -/

/-- **What a test for faults reports settles its outcome.**  Let the host see the tested operands.
An instruction that answers has found the integers that it tests.  Every constraint that it reports
has an input and is true, and on other values of these integers the constraints hold exactly if the
outcome is the same: the divisor is zero or not, the first negative length is at the same place or
there is none, the index is negative, too big or in bounds.  The answer is that there is a fault
exactly if the outcome on this run is one. -/
theorem fault_recorded_settle {i : Instruction} (htests : i.testsFault = true) {m : Machine}
    (hsees : i.Sees m.operands) :
    (∀ b, (i.exec m).1 = .ok b → ∃ es outcome, Faces m i es outcome) ∧
    ∀ es outcome, Faces m i es outcome →
      (∀ c ∈ i.recorded m, c.isSymbolic = true ∧ c.holds = true) ∧
      Settle es outcome (i.recorded m) ∧
      ((i.exec m).1 = .ok true ↔ outcome (actual es) ≠ .fine) := by
  refine ⟨fun b hb => faces_of_exec htests (Prod.ext hb rfl), fun es outcome hfaces => ?_⟩
  obtain ⟨res, c', ts, ⟨reps, htells, hreps⟩, hres, hts⟩ := hfaces.decides hsees
  have hrecorded : i.recorded m = (ts.map (Test.constraint es)).filter Constraint.isSymbolic := by
    rw [Instruction.recorded, Instruction.reports_eq htells, hreps]
  have hexec : (i.exec m).1 = res := by
    obtain ⟨log, hrun⟩ := htells m.collector m.log
    exact congrArg Prod.fst hrun
  rw [hrecorded, hexec]
  refine ⟨fun c hc => ?_, settle_filter hts, hres⟩
  obtain ⟨hmem, hsym⟩ := List.mem_filter.mp hc
  obtain ⟨t, ht, rfl⟩ := List.mem_map.mp hmem
  have hactual : t.Holds (actual es) := (hts _ (possible_actual es)).mpr rfl t ht
  exact ⟨hsym, (t.holds_constraint es).mpr hactual⟩

/-- The length of an array, an int input with the value 3. -/
def inputLength : IntExpr := .var ⟨"n", 3, -2147483648, 2147483647⟩

/-- An index, an int input with the value 5. -/
def inputIndex : IntExpr := .var ⟨"i", 5, -2147483648, 2147483647⟩

/-- A machine that is about to read from a new array. -/
def atElement : Machine :=
  { Machine.recording none with
    frames := [⟨⟨"A", "f", "(II)V"⟩, [.bv32 inputIndex, .ref (.object ⟨1, "[I"⟩)], ⟨[]⟩, false⟩]
    heap := (Heap.newArray "[I" inputLength {}).2 }

/-- A read beyond the end of an array of three zeros. -/
def readBeyond : Instruction := .arrayLoad .bv32 (some ⟨"a", "[I", [.int 0, .int 0, .int 0]⟩) 5

/-- The index and the length are both inputs, and the index is too big. -/
theorem readBeyond_recorded_settle :
    readBeyond.testsFault = true ∧ readBeyond.Sees atElement.operands ∧
    (∀ b, (readBeyond.exec atElement).1 = .ok b →
      ∃ es outcome, Faces atElement readBeyond es outcome) ∧
    Faces atElement readBeyond [inputIndex, inputLength] Outcome.accessed ∧
    (∀ c ∈ readBeyond.recorded atElement, c.isSymbolic = true ∧ c.holds = true) ∧
    Settle [inputIndex, inputLength] Outcome.accessed (readBeyond.recorded atElement) ∧
    ((readBeyond.exec atElement).1 = .ok true ↔
      Outcome.accessed (actual [inputIndex, inputLength]) ≠ .fine) := by
  have hsees : readBeyond.Sees atElement.operands := by
    intro p hp e he
    cases List.mem_singleton.mp hp
    cases he
    rfl
  have hfaces : Faces atElement readBeyond [inputIndex, inputLength] Outcome.accessed :=
    .arrayLoad rfl fun _ => ⟨⟨1, "[I"⟩, _, rfl, rfl, rfl⟩
  obtain ⟨hfound, hsettle⟩ := fault_recorded_settle (i := readBeyond) rfl hsees
  exact ⟨rfl, hsees, hfound, hfaces, hsettle _ _ hfaces⟩

/-- It reports that the index is not negative and not below the length. -/
example : readBeyond.recorded atElement =
    [.relate inputIndex .ge (.const 0), .relate inputIndex .ge inputLength] := by
  decide

end Concolic
