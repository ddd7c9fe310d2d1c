import Concolic.Proofs.Outcomes
import Concolic.Proofs.Stated

/-
# Tests for faults

Divisions, new arrays and accesses of arrays test their operands for a fault.  The tests run in
order and stop at the first that fails, so the reports tell which one that was: the first negative
dimension, an index that is negative, one that is too big.

`Asks` says which tests an action makes.  Each row of tests comes with what it says about other
values of the operands: that the outcome is the same (`divided_iff`, `sized_iff`, `accessed_iff`).
-/
namespace Concolic

/-! ## 1. Outcomes -/

/-- How a test for faults comes out. -/
inductive Outcome
  | fine
  | divisionByZero
  /-- The first dimension with a negative length. -/
  | negativeLength (i : Nat)
  | negativeIndex
  | indexTooBig
deriving DecidableEq, Repr

namespace Outcome

/-- Of a division by a given value. -/
def divided : List Int → Outcome
  | [v] => if v = 0 then divisionByZero else fine
  | _ => fine

/-- Of a new array with the given lengths, the outermost first. -/
def sized (vs : List Int) : Outcome :=
  match vs.findIdx? (· < 0) with
  | some i => negativeLength i
  | none => fine

/-- Of an access with a given index to an array with a given length. -/
def accessed : List Int → Outcome
  | [i, n] => if i < 0 then negativeIndex else if n ≤ i then indexTooBig else fine
  | _ => fine

end Outcome

/-- The reference `x` stands for the array `a`, and the heap has `length` for its length. -/
def Machine.HasLength (m : Machine) (x : RefExpr) (a : HostArray) (length : IntExpr) : Prop :=
  ∃ r h, Heap.resolve x a.toValue m.heap = (.ok (.object r), h) ∧ r.isArray = true ∧
    h.arrayLength r (Machine.lengthWord a) = length

/-! ## 2. Actions that make tests -/

/-- The action makes the tests `ts` of `es`: it reports those in which an input occurs. -/
def Asks (es : List IntExpr) (c : Core) (a : Act Machine α) (res : Except Failure α) (c' : Core)
    (ts : List Test) : Prop :=
  ∃ reps, Tells c a res c' reps ∧
    reps.map Report.constraint = (ts.map (Test.constraint es)).filter Constraint.isSymbolic

namespace Asks

variable {es : List IntExpr} {c c₁ c₂ : Core} {a : Act Machine α} {g : α → Act Machine β} {x : α}
  {ts ts' : List Test}

theorem of_silent {res : Except Failure α} (h : Tells c a res c₁ []) : Asks es c a res c₁ [] :=
  ⟨[], h, rfl⟩

theorem bind {res : Except Failure β} (ha : Asks es c a (.ok x) c₁ ts)
    (hg : Asks es c₁ (g x) res c₂ ts') : Asks es c (a >>= g) res c₂ (ts ++ ts') := by
  obtain ⟨reps, ha, hts⟩ := ha
  obtain ⟨reps', hg, hts'⟩ := hg
  refine ⟨reps ++ reps', ha.bind hg, ?_⟩
  rw [List.map_append, List.map_append, List.filter_append, hts, hts']

/-- After an action that makes no tests. -/
theorem silent_bind {res : Except Failure β} (ha : Tells c a (.ok x) c₁ [])
    (hg : Asks es c₁ (g x) res c₂ ts) : Asks es c (a >>= g) res c₂ ts :=
  (of_silent ha).bind hg

/-- Before an action that makes no tests. -/
theorem bind_silent {res : Except Failure β} (ha : Asks es c a (.ok x) c₁ ts)
    (hg : Tells c₁ (g x) res c₂ []) : Asks es c (a >>= g) res c₂ ts := by
  have h := ha.bind (of_silent hg)
  rwa [List.append_nil] at h

end Asks

theorem filter_singleton (d : Constraint) (rep : Report) (hrep : rep.constraint = d) :
    (Machine.ifSymbolic d rep).map Report.constraint = [d].filter Constraint.isSymbolic := by
  unfold Machine.ifSymbolic
  rw [List.filter_cons, List.filter_nil]
  split
  · rw [List.map_singleton, hrep]
  · rfl

section

variable {es : List IntExpr} {c : Core} {μ : MethodRef} {s : Stack} {h : Heap}

theorem support_asks (es : List IntExpr) (t : Test) :
    Asks es c (Machine.support (t.constraint es)) (.ok ()) c [t] :=
  ⟨_, Machine.support_tells _ _ _, filter_singleton _ _ rfl⟩

theorem decideAccess_asks (hc : c.At μ s h) (es : List IntExpr) (t : Test) (negated : Bool) :
    Asks es c (Machine.decideAccess (t.constraint es) negated) (.ok ()) c [t] := by
  obtain ⟨f, rest, hf, -⟩ := hc
  exact ⟨_, Machine.decideAccess_tells _ _ _ hf negated, filter_singleton _ _ rfl⟩

/-- A fault is told if there is one. -/
theorem faultIf_tells (hc : c.At μ s h) (p : Prop) [Decidable p] (x : Fault) :
    Tells c (do
      if p then Machine.fault x
      return (decide p)) (.ok (decide p)) c [] := by
  by_cases hp : p
  · rw [if_pos hp]
    exact (hc.fault x).silent_bind (Tells.pure _)
  · rw [if_neg hp]
    exact Tells.pure _

/-- The test of a sign. -/
def signTest (i : Nat) (n : Int32) : Test := ⟨.operand i, if n < 0 then .lt else .ge, .const 0⟩

theorem zeroDivisor_asks (hc : c.At μ s h) (e : IntExpr) (isZero : Bool) :
    Asks [e] c (Machine.zeroDivisor e isZero) (.ok isZero) c
      [⟨.operand 0, if isZero then .eq else .ne, .const 0⟩] := by
  obtain ⟨f, rest, hf, -⟩ := hc
  exact ⟨_, Machine.zeroDivisor_tells hf e isZero, filter_singleton _ _ rfl⟩

theorem negativeLength_asks (hc : c.At μ s h) {i : Nat} {e : IntExpr}
    (he : es.getD i (.const 0) = e) (n : Int32) :
    Asks es c (Machine.negativeLength e n) (.ok (decide (n < 0))) c [signTest i n] := by
  subst he
  exact (support_asks es (signTest i n)).bind_silent (faultIf_tells hc (n < 0) (.negativeSize n))

theorem negativeIndex_asks (hc : c.At μ s h) (index length : IntExpr) (n : Int32) :
    Asks [index, length] c (Machine.negativeIndex index n) (.ok (decide (n < 0))) c
      [signTest 0 n] :=
  (decideAccess_asks hc [index, length] (signTest 0 n) _).bind_silent
    (faultIf_tells hc (n < 0) (.negativeIndex n))

/-- The test of an index against the length of the array. -/
def lengthTest (tooBig : Bool) : Test := ⟨.operand 0, if tooBig then .ge else .lt, .operand 1⟩

theorem indexTooBig_asks (hc : c.At μ s h) (index length : IntExpr) (n : Int32) :
    Asks [index, length] c (Machine.indexTooBig index n length)
      (.ok (decide (length.concrete ≤ n.toInt64))) c
      [lengthTest (decide (length.concrete ≤ n.toInt64))] := by
  refine (decideAccess_asks hc [index, length] (lengthTest _) _).bind_silent ?_
  cases decide (length.concrete ≤ n.toInt64) with
  | true => exact (hc.fault _).silent_bind (Tells.pure true)
  | false => exact Tells.pure false

/-! ## 3. Tests in a row -/

/-- The tests of lengths, up to the first that is negative. -/
def signTests : Nat → List Int32 → List Test
  | _, [] => []
  | i, n :: ns => signTest i n :: if n < 0 then [] else signTests (i + 1) ns

theorem anyNegative_asks (hc : c.At μ s h) {dims : List Int32} {ls : List IntExpr}
    (hlen : ls.length = dims.length) {i : Nat} (hls : es.drop i = ls) :
    Asks es c (Machine.anyNegative (ls.zip dims)) (.ok (dims.any (· < 0))) c
      (signTests i dims) := by
  induction dims generalizing ls i with
  | nil =>
    cases List.eq_nil_of_length_eq_zero hlen
    exact Asks.of_silent (Tells.pure false)
  | cons n ns ih =>
    rcases ls with _ | ⟨e, ls⟩
    · cases hlen
    have he : es.getD i (.const 0) = e := by
      rw [List.getD_eq_getElem?_getD, ← List.head?_drop, hls]
      rfl
    have htail : es.drop (i + 1) = ls := by rw [← List.tail_drop, hls, List.tail_cons]
    have hfirst := negativeLength_asks hc he n
    rw [signTests, List.any_cons]
    by_cases hn : n < 0
    · rw [decide_eq_true hn] at hfirst ⊢
      rw [if_pos hn]
      exact hfirst.bind_silent (Tells.pure true)
    · rw [decide_eq_false hn] at hfirst ⊢
      rw [if_neg hn]
      exact hfirst.bind (ih (Nat.succ.inj hlen) htail)

/-- An action that looks at the machine, but not at its collector and its log. -/
theorem Asks.get_bind {g : Machine → Act Machine β} {res : Except Failure β} {c' : Core}
    {ts : List Test} (hcore : ∀ (m : Machine) k log, g (m.core.machine k log) = g m)
    (hg : Asks es c (g (c.machine (.calls []) [])) res c' ts) :
    Asks es c (get >>= g) res c' ts := by
  obtain ⟨reps, htells, hts⟩ := hg
  exact ⟨reps, htells.get_bind hcore, hts⟩

theorem resolveArray_tells (hc : c.At μ s h) {x : RefExpr} {a : HostArray} {r : Ref} {h' : Heap}
    (hx : Heap.resolve x a.toValue h = (.ok (.object r), h')) (hr : r.isArray = true) :
    ∃ c₁ : Core, Tells c (Machine.resolveArray x a) (.ok r) c₁ [] ∧ c₁.At μ s h' := by
  obtain ⟨c₁, hresolve, hc₁⟩ := hc.onHeap hx
  refine ⟨c₁, hresolve.silent_bind ?_, hc₁⟩
  dsimp only
  rw [hr]
  exact Tells.pure r

/-- The tests of an access: the sign of the index, and if it is not negative, the length. -/
def accessTests (n : Int32) (length : IntExpr) : List Test :=
  signTest 0 n :: if n < 0 then [] else [lengthTest (decide (length.concrete ≤ n.toInt64))]

/-- The answer of the checks: whether they find a fault. -/
def accessFaults (n : Int32) (length : IntExpr) : Bool :=
  decide (n < 0) || decide (length.concrete ≤ n.toInt64)

theorem checkAccess_asks {m : Machine} (hc : c.At μ s m.heap) {x : RefExpr} {a : HostArray}
    (index : IntExpr) {length : IntExpr} {n : Int32} (hlength : 0 ≤ n → m.HasLength x a length) :
    ∃ o c', Asks [index, length] c (Machine.checkAccess x (some a) index n) (.ok o) c'
      (accessTests n length) ∧ (o = none ↔ accessFaults n length = true) := by
  have hsign := negativeIndex_asks hc index length n
  by_cases hn : n < 0
  · rw [decide_eq_true hn] at hsign
    refine ⟨none, c, ?_, by simp [accessFaults, hn]⟩
    rw [accessTests, if_pos hn]
    exact hsign.bind_silent (Tells.pure none)
  · rw [decide_eq_false hn] at hsign
    obtain ⟨r, h', hx, hr, rfl⟩ := hlength (Int32.not_lt.mp hn)
    obtain ⟨c₁, hresolve, hc₁⟩ := resolveArray_tells hc hx hr
    obtain ⟨f, rest, hf, hμ, hs, rfl⟩ := hc₁
    have hbound := indexTooBig_asks ⟨f, rest, hf, hμ, hs, rfl⟩ index
      (c₁.heap.arrayLength r (Machine.lengthWord a)) n
    rw [accessTests, if_neg hn]
    by_cases hbig : (c₁.heap.arrayLength r (Machine.lengthWord a)).concrete ≤ n.toInt64
    · rw [decide_eq_true hbig] at hbound ⊢
      refine ⟨none, c₁, hsign.bind (Asks.silent_bind hresolve ?_), by simp [accessFaults, hbig]⟩
      exact Asks.get_bind (fun _ _ _ => rfl) (hbound.bind_silent (Tells.pure none))
    · rw [decide_eq_false hbig] at hbound ⊢
      refine ⟨some (r, a), c₁, hsign.bind (Asks.silent_bind hresolve ?_),
        by simp [accessFaults, hn, hbig]⟩
      exact Asks.get_bind (fun _ _ _ => rfl) (hbound.bind_silent (Tells.pure _))

end

/-! ## 4. What the tests say -/

theorem divided_iff {e : IntExpr} {z : Bool} (hz : z = true ↔ e.concrete.toInt = 0) {vs : List Int}
    (hvs : Possible [e] vs) :
    (∀ t ∈ [(⟨.operand 0, if z then .eq else .ne, .const 0⟩ : Test)], t.Holds vs) ↔
      Outcome.divided vs = Outcome.divided (actual [e]) := by
  obtain ⟨v, rfl⟩ := List.length_eq_one_iff.mp hvs.length_eq.symm
  rw [List.forall_mem_singleton, actual, List.map_singleton, Outcome.divided, Outcome.divided]
  cases z with
  | true =>
    rw [if_pos (hz.mp rfl)]
    change v = 0 ↔ _
    by_cases hv : v = 0 <;> simp [hv]
  | false =>
    rw [if_neg fun h => Bool.false_ne_true (hz.mpr h)]
    change v ≠ 0 ↔ _
    by_cases hv : v = 0 <;> simp [hv]

theorem divided_ne_fine {e : IntExpr} :
    Outcome.divided (actual [e]) ≠ .fine ↔ e.concrete.toInt = 0 := by
  change (if e.concrete.toInt = 0 then Outcome.divisionByZero else .fine) ≠ .fine ↔ _
  split
  next h => simp [h]
  next h => simp [h]

theorem signTest_holds (n : Int32) (pre ws : List Int) (w : Int) :
    (signTest pre.length n).Holds (pre ++ w :: ws) ↔ (w < 0 ↔ n.toInt < 0) := by
  have hvalue : (pre ++ w :: ws).getD pre.length 0 = w := by simp
  have hn : n < 0 ↔ n.toInt < 0 := Int32.lt_iff_toInt_lt
  unfold Test.Holds signTest Side.value
  dsimp only
  rw [hvalue]
  split
  next h =>
    change w < 0 ↔ _
    simp [hn.mp h]
  next h =>
    change 0 ≤ w ↔ _
    rw [hn] at h
    omega

theorem findIdx?_cons_eq_iff {p : α → Bool} {x y : α} {xs ys : List α} :
    (x :: xs).findIdx? p = (y :: ys).findIdx? p ↔
      p x = p y ∧ (p y = false → xs.findIdx? p = ys.findIdx? p) := by
  rw [List.findIdx?_cons, List.findIdx?_cons]
  cases p x <;> cases p y <;> cases xs.findIdx? p <;> cases ys.findIdx? p <;> simp

/-- The tests of lengths hold exactly if the first negative one is the same. -/
theorem signTests_iff {dims : List Int32} (pre : List Int) {ws : List Int}
    (hlen : ws.length = dims.length) :
    (∀ t ∈ signTests pre.length dims, t.Holds (pre ++ ws)) ↔
      ws.findIdx? (· < 0) = (dims.map Int32.toInt).findIdx? (· < 0) := by
  induction dims generalizing pre ws with
  | nil =>
    cases List.eq_nil_of_length_eq_zero hlen
    exact iff_of_true (fun t ht => absurd ht List.not_mem_nil) rfl
  | cons n ns ih =>
    rcases ws with _ | ⟨w, ws⟩
    · cases hlen
    have hn : n < 0 ↔ n.toInt < 0 := Int32.lt_iff_toInt_lt
    rw [signTests, List.forall_mem_cons, signTest_holds, List.map_cons, findIdx?_cons_eq_iff,
      decide_eq_decide, decide_eq_false_iff_not]
    refine and_congr_right fun _ => ?_
    split
    next hneg =>
      exact iff_of_true (fun t ht => absurd ht List.not_mem_nil) fun h => absurd (hn.mp hneg) h
    next hneg =>
      -- the values seen so far include `w` from here on
      have hrest := ih (pre ++ [w]) (Nat.succ.inj hlen)
      rw [List.length_append, List.length_singleton, List.append_assoc, List.singleton_append]
        at hrest
      rw [hrest, forall_prop_of_true (mt hn.mpr hneg)]

theorem sized_eq_iff {vs ws : List Int} :
    Outcome.sized vs = Outcome.sized ws ↔ vs.findIdx? (· < 0) = ws.findIdx? (· < 0) := by
  unfold Outcome.sized
  cases vs.findIdx? (· < 0) <;> cases ws.findIdx? (· < 0) <;> simp

theorem sized_eq_fine {vs : List Int} : Outcome.sized vs = .fine ↔ ∀ v ∈ vs, 0 ≤ v := by
  unfold Outcome.sized
  cases h : vs.findIdx? (· < 0) with
  | none => simpa using h
  | some i =>
    obtain ⟨hi, hneg, -⟩ := List.findIdx?_eq_some_iff_getElem.mp h
    simp only [reduceCtorEq, false_iff]
    intro hall
    have := hall _ (List.getElem_mem hi)
    simp at hneg
    omega

theorem actual_eq {ls : List IntExpr} {dims : List Int32} (hlen : ls.length = dims.length)
    (hseen : ∀ p ∈ ls.zip dims, p.1.concrete = p.2.toInt64) :
    actual ls = dims.map Int32.toInt := by
  induction dims generalizing ls with
  | nil =>
    cases List.eq_nil_of_length_eq_zero hlen
    rfl
  | cons n ns ih =>
    rcases ls with _ | ⟨e, ls⟩
    · cases hlen
    have he : e.concrete.toInt = n.toInt := by
      rw [hseen (e, n) List.mem_cons_self, Int32.toInt_toInt64]
    have hrest := ih (Nat.succ.inj hlen) fun p hp => hseen p (List.mem_cons_of_mem _ hp)
    exact congrArg₂ List.cons he hrest

theorem sized_iff {ls : List IntExpr} {dims : List Int32}
    (hactual : actual ls = dims.map Int32.toInt) {vs : List Int} (hvs : Possible ls vs) :
    (∀ t ∈ signTests 0 dims, t.Holds vs) ↔ Outcome.sized vs = Outcome.sized (actual ls) := by
  have hlen : vs.length = dims.length := by
    rw [← hvs.length_eq, ← List.length_map (f := Int32.toInt), ← hactual, actual, List.length_map]
  rw [sized_eq_iff, hactual]
  exact signTests_iff [] hlen

theorem sized_ne_fine (dims : List Int32) :
    dims.any (· < 0) = true ↔ Outcome.sized (dims.map Int32.toInt) ≠ .fine := by
  rw [Ne, sized_eq_fine, List.any_eq_true]
  simp [Int32.lt_iff_toInt_lt]

theorem lengthTest_holds (tooBig : Bool) (v k : Int) :
    (lengthTest tooBig).Holds [v, k] ↔ (k ≤ v ↔ tooBig = true) := by
  cases tooBig with
  | true =>
    change k ≤ v ↔ _
    simp
  | false =>
    change v < k ↔ _
    simp

theorem accessed_eq_iff {v k v' k' : Int} :
    Outcome.accessed [v, k] = Outcome.accessed [v', k'] ↔
      (v < 0 ↔ v' < 0) ∧ (¬ v' < 0 → (k ≤ v ↔ k' ≤ v')) := by
  unfold Outcome.accessed
  by_cases hv : v < 0 <;> by_cases hv' : v' < 0 <;> by_cases hk : k ≤ v <;>
    by_cases hk' : k' ≤ v' <;> simp [hv, hv', hk, hk']

theorem actual_access {index length : IntExpr} {n : Int32} (hn : index.concrete = n.toInt64) :
    actual [index, length] = [n.toInt, length.concrete.toInt] := by
  rw [← Int32.toInt_toInt64 n, ← hn]
  rfl

theorem accessed_iff {index length : IntExpr} {n : Int32} (hn : index.concrete = n.toInt64)
    {vs : List Int} (hvs : Possible [index, length] vs) :
    (∀ t ∈ accessTests n length, t.Holds vs) ↔
      Outcome.accessed vs = Outcome.accessed (actual [index, length]) := by
  obtain ⟨v, k, rfl⟩ := List.length_eq_two.mp hvs.length_eq.symm
  have hneg : n < 0 ↔ n.toInt < 0 := Int32.lt_iff_toInt_lt
  have hbig : length.concrete ≤ n.toInt64 ↔ length.concrete.toInt ≤ n.toInt := by
    rw [Int64.le_iff_toInt_le, Int32.toInt_toInt64]
  rw [actual_access hn, accessed_eq_iff, accessTests, List.forall_mem_cons]
  refine and_congr (signTest_holds n [] [k] v) ?_
  rw [← hneg]
  split
  next h => exact iff_of_true (fun t ht => absurd ht List.not_mem_nil) fun h' => absurd h h'
  next h =>
    rw [List.forall_mem_singleton, lengthTest_holds, decide_eq_true_iff, hbig,
      forall_prop_of_true h]

theorem accessed_ne_fine {index length : IntExpr} {n : Int32} (hn : index.concrete = n.toInt64) :
    accessFaults n length = true ↔ Outcome.accessed (actual [index, length]) ≠ .fine := by
  rw [actual_access hn, accessFaults, Bool.or_eq_true, decide_eq_true_iff, decide_eq_true_iff,
    Int32.lt_iff_toInt_lt, Int64.le_iff_toInt_le, Int32.toInt_toInt64, Outcome.accessed]
  change n.toInt < 0 ∨ _ ↔ _
  split
  next h => simp [h]
  next h => split <;> simp_all

end Concolic
