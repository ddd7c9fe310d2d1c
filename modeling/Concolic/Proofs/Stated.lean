import Concolic.Proofs.Effects
import Concolic.Proofs.Words

/-
# What is reported is true

Every constraint that an instruction reports relates two integer expressions, and it holds of their
concrete values.  There is one condition.  Divisions, new arrays and accesses of arrays do not look
at the operand that they test but at the number that the host saw in its place, so the two must be
the same (`Instruction.Sees`).

`exec_states` says it of all instructions, together with what `Effects` says: it goes through the
reporting instructions and takes the others from there.
-/
namespace Concolic

/-- A relation between expressions with `E` that holds of their concrete values provided `S`. -/
def Stated (E : IntExpr → Prop) (S : Prop) (d : Constraint) : Prop :=
  ∃ l ρ r, d = .relate l ρ r ∧ E l ∧ E r ∧ (S → ρ.holds l.concrete r.concrete = true)

theorem Relation.holds_negate (ρ : Relation) (a b : Int64) : ρ.negate.holds a b = !ρ.holds a b := by
  cases ρ with
  | eq => simp [negate, holds]
  | ne => simp [negate, holds]
  | lt => simp [negate, holds, ← Int64.not_lt]
  | le => simp [negate, holds, ← Int64.not_le]
  | gt => simp [negate, holds, ← Int64.not_lt]
  | ge => simp [negate, holds, ← Int64.not_le]

theorem toInt64_eq_zero {d : Int32} : d.toInt64 = 0 ↔ d = 0 := by
  refine ⟨fun h => ?_, fun h => h ▸ rfl⟩
  rw [← Int32.toInt32_toInt64 d, h]
  rfl

theorem toInt64_neg {d : Int32} : d.toInt64 < 0 ↔ d < 0 := Int32.toInt64_lt (b := 0)

variable {E : IntExpr → Prop} {P : Constraint → Prop} {S : Prop}

namespace Machine

/-! ## 1. Branches -/

theorem branchOn_states {l r : IntExpr} (hl : E l) (hr : E r) (branch : Int) (ρ : Relation) :
    Does E (Stated E S) (branchOn branch l ρ r) fun _ => True := by
  refine decideBranch_does ⟨_, _, _, rfl, hl, hr, fun _ => ?_⟩ branch
  split
  next h => exact h
  next h =>
    rw [Relation.holds_negate, eq_false_of_ne_true h]
    rfl

theorem branchZero_states (hE : Closed E) (ρ : Relation) (branch : Int) :
    Does E (Stated E S) (branchZero ρ branch) fun _ => True :=
  popInt_does.bind fun _ he => branchOn_states he (hE.const 0) branch ρ

theorem branchCompare_states (ρ : Relation) (branch : Int) :
    Does E (Stated E S) (branchCompare ρ branch) fun _ => True :=
  popInt_does.bind fun _ hr => popInt_does.bind fun _ hl => branchOn_states hl hr branch ρ

theorem tableSwitch_states (hE : Closed E) (branch : Int) (low high : Int32) :
    Does E (Stated E S) (tableSwitch branch low high) fun _ => True := by
  refine popInt_does.bind fun e he => ?_
  split
  next h =>
    exact decideBranch_does ⟨_, _, _, rfl, he, hE.const _, fun _ => decide_eq_true h⟩ branch
  · split
    next h =>
      exact decideBranch_does ⟨_, _, _, rfl, he, hE.const _, fun _ => decide_eq_true h⟩ branch
    · exact decideBranch_does ⟨_, _, _, rfl, he, hE.const _, fun _ => decide_eq_true rfl⟩ branch

theorem excludeKeys_states (hE : Closed E) (branch : Int) {e : IntExpr} (he : E e)
    {keys : List Int32} (h : ∀ k ∈ keys, k.toInt64 ≠ e.concrete) :
    Does E (Stated E S) (excludeKeys branch e keys) fun _ => True := by
  induction keys with
  | nil => exact Does.pure trivial
  | cons k keys ih =>
    refine Does.bind (Q := fun _ => True) ?_ fun _ _ =>
      ih fun k' hk' => h k' (List.mem_cons_of_mem k hk')
    refine decideBranch_does ⟨_, _, _, rfl, he, hE.const _, fun _ => decide_eq_true ?_⟩ branch
    exact fun heq => h k List.mem_cons_self heq.symm

theorem lookupSwitch_states (hE : Closed E) (branch : Int) (keys : List Int32) :
    Does E (Stated E S) (lookupSwitch branch keys) fun _ => True := by
  refine popInt_does.bind fun e he => ?_
  split
  · exact decideBranch_does ⟨_, _, _, rfl, he, hE.const _, fun _ => decide_eq_true rfl⟩ branch
  next h =>
    refine excludeKeys_states hE branch he fun k hk heq => h ?_
    exact List.any_eq_true.mpr ⟨k, hk, decide_eq_true heq⟩

/-! ## 2. Divisions -/

theorem zeroDivisor_states (hE : Closed E) {e : IntExpr} (he : E e) {z : Bool}
    (hz : S → (z = true ↔ e.concrete = 0)) :
    Does E (Stated E S) (zeroDivisor e z) fun _ => True := by
  have hsupport : Does E (Stated E S) (support (.relate e (if z then .eq else .ne) (.const 0)))
      fun _ => True := by
    refine support_does ⟨_, _, _, rfl, he, hE.const 0, fun hS => ?_⟩
    cases z with
    | true => exact decide_eq_true ((hz hS).mp rfl)
    | false => exact decide_eq_true fun h => Bool.false_ne_true ((hz hS).mpr h)
  refine hsupport.bind fun _ _ => ?_
  cases z with
  | true => exact (fault_does _).bind fun _ _ => Does.pure trivial
  | false => exact Does.pure trivial

/-- Pops an int of which something is known. -/
theorem popInt_triple (T : IntExpr → Prop) :
    Triple E P (fun s => ∀ e s', s = .bv32 e :: s' → T e) (onStack Stack.popInt)
      fun e _ => E e ∧ T e := by
  refine onStack_triple fun s hs hT => ⟨(Stack.popInt_keeps s hs).1, fun e he => ?_⟩
  refine ⟨(Stack.popInt_keeps s hs).2 e he, ?_⟩
  rcases s with _ | ⟨o, s⟩
  · cases he
  cases o with
  | bv32 e' =>
    cases he
    exact hT e s rfl
  | _ => cases he

/-- Pops a long of which something is known. -/
theorem popLong_triple (T : IntExpr → Prop) :
    Triple E P (fun s => ∀ e s', s = .bv64 e :: s' → T e) (onStack Stack.popLong)
      fun e _ => E e ∧ T e := by
  refine onStack_triple fun s hs hT => ⟨(Stack.popLong_keeps s hs).1, fun e he => ?_⟩
  refine ⟨(Stack.popLong_keeps s hs).2 e he, ?_⟩
  rcases s with _ | ⟨o, s⟩
  · cases he
  cases o with
  | bv64 e' =>
    cases he
    exact hT e s rfl
  | _ => cases he

theorem intDivide_states (hE : Closed E) (op : DivOp) (d : Int32) :
    Triple E (Stated E S) (fun s => S → (Instruction.intDivide op d).Sees s) (intDivide op d)
      fun _ _ => True := by
  refine ((popInt_triple fun e => S → e.concrete = d.toInt64).weaken ?_).bind ?_
  · rintro _ hsees e s' rfl hS
    exact hsees hS (0, d.toInt64) List.mem_cons_self e rfl
  rintro r _ ⟨hr, hd⟩
  refine Does.weaken (popInt_does.bind fun l hl => ?_)
  have hzero : S → (decide (d = 0) = true ↔ r.concrete = 0) := by
    intro hS
    rw [hd hS, decide_eq_true_iff, toInt64_eq_zero]
  refine (zeroDivisor_states hE hr hzero).bind fun z _ => ?_
  split
  · exact Does.pure trivial
  · exact (push_does (o := .bv32 _) (hE.combine hl hr _ _)).bind fun _ _ => Does.pure trivial

theorem longDivide_states (hE : Closed E) (op : DivOp) (d : Int64) :
    Triple E (Stated E S) (fun s => S → (Instruction.longDivide op d).Sees s) (longDivide op d)
      fun _ _ => True := by
  refine ((popLong_triple fun e => S → e.concrete = d).weaken ?_).bind ?_
  · rintro _ hsees e s' rfl hS
    exact hsees hS (0, d) List.mem_cons_self e rfl
  rintro r _ ⟨hr, hd⟩
  refine Does.weaken (popLong_does.bind fun l hl => ?_)
  have hzero : S → (decide (d = 0) = true ↔ r.concrete = 0) := by
    intro hS
    rw [hd hS, decide_eq_true_iff]
  refine (zeroDivisor_states hE hr hzero).bind fun z _ => ?_
  split
  · exact Does.pure trivial
  · exact (push_does (o := .bv64 _) (hE.combine hl hr _ _)).bind fun _ _ => Does.pure trivial

/-! ## 3. New arrays -/

/-- The sign of `e`, when it is that of `n`. -/
theorem sign_holds {e : IntExpr} {n : Int32} (h : e.concrete = n.toInt64) :
    (if n < 0 then Relation.lt else .ge).holds e.concrete 0 = true := by
  rw [h]
  split
  next hn => exact decide_eq_true (toInt64_neg.mpr hn)
  next hn => exact decide_eq_true (Int64.not_lt.mp (toInt64_neg.not.mpr hn))

theorem negativeLength_states (hE : Closed E) {e : IntExpr} (he : E e) {n : Int32}
    (hn : S → e.concrete = n.toInt64) :
    Does E (Stated E S) (negativeLength e n) fun _ => True := by
  refine (support_does ⟨_, _, _, rfl, he, hE.const 0, fun hS => sign_holds (hn hS)⟩).bind ?_
  intro _ _
  dsimp only
  split
  · exact (fault_does _).bind fun _ _ => Does.pure trivial
  · exact Does.pure trivial

theorem newArray_states (hE : Closed E) (n : Int32) (component : String) :
    Triple E (Stated E S) (fun s => S → (Instruction.newArray n component).Sees s)
      (newArray n component) fun _ _ => True := by
  unfold newArray
  split
  · exact (Does.fail _).weaken
  refine ((popInt_triple fun e => S → e.concrete = n.toInt64).weaken ?_).bind ?_
  · rintro _ hsees e s' rfl hS
    exact hsees hS (0, n.toInt64) List.mem_cons_self e rfl
  rintro length _ ⟨he, hn⟩
  refine Does.weaken ((negativeLength_states hE he hn).bind fun b _ => ?_)
  split
  · exact Does.pure trivial
  · refine (onHeap_does (Heap.newArray_keeps _ he)).bind fun r _ => ?_
    exact (push_does (o := .ref (.object r)) trivial).bind fun _ _ => Does.pure trivial

/-- The lengths stand on the stack, the innermost on top. -/
theorem popLengths_eq {k : Nat} {s s' : Stack} {ls : List IntExpr}
    (h : popLengths k s = (.ok ls, s')) : s = ls.reverse.map .bv32 ++ s' ∧ ls.length = k := by
  induction k generalizing s s' ls with
  | zero =>
    cases h
    exact ⟨rfl, rfl⟩
  | succ k ih =>
    rcases s with _ | ⟨o, s⟩
    · cases h
    cases o with
    | bv32 e =>
      cases hrest : popLengths k s with
      | mk res s₁ =>
        have hstep : popLengths (k + 1) (.bv32 e :: s) = (res.map (· ++ [e]), s₁) := by
          change (do return (← popLengths k) ++ [e] : Act Stack _) s = _
          rw [Act.bind_apply, hrest]
          cases res <;> rfl
        rw [hstep] at h
        cases res with
        | error _ => cases h
        | ok ls' =>
          cases h
          obtain ⟨rfl, rfl⟩ := ih hrest
          simp
    | _ => cases h

theorem popLengths_keeps {P : Operand → Prop} (k : Nat) :
    Act.Keeps (Stack.Each P) (popLengths k) fun ls => ∀ e ∈ ls, P (.bv32 e) := by
  induction k with
  | zero => exact Act.Keeps.pure fun e he => absurd he List.not_mem_nil
  | succ k ih =>
    refine Stack.popInt_keeps.bind fun last hlast => ih.bind fun ls hls => Act.Keeps.pure ?_
    intro e he
    rcases List.mem_append.mp he with hmem | hmem
    · exact hls e hmem
    · cases List.mem_singleton.mp hmem
      exact hlast

theorem sees_lengths {type : String} {dims : List Int32} {ls : List IntExpr} {s : Stack}
    (hlen : ls.length = dims.length)
    (hsees : (Instruction.newMultiArray type dims).Sees (ls.reverse.map .bv32 ++ s)) :
    ∀ p ∈ ls.zip dims, p.1.concrete = p.2.toInt64 := by
  -- reversing both lists turns positions in them into distances from the top of the stack
  intro p hp
  have hrev : p ∈ ls.reverse.zip dims.reverse := by
    rw [List.zip_eq_zipWith, ← List.reverse_zipWith hlen]
    exact List.mem_reverse.mpr hp
  obtain ⟨i, hi, rfl⟩ := List.mem_iff_getElem.mp hrev
  rw [List.length_zip] at hi
  have hl : i < ls.reverse.length := by omega
  have hd : i < dims.reverse.length := by omega
  rw [List.getElem_zip]
  refine hsees (i, dims.reverse[i].toInt64) ?_ _ ?_
  · refine List.mem_map.mpr ⟨(dims.reverse[i], i), ?_, rfl⟩
    exact List.mk_mem_zipIdx_iff_getElem?.mpr (List.getElem?_eq_getElem hd)
  · rw [List.getElem?_append_left (by rwa [List.length_map]), List.getElem?_map,
      List.getElem?_eq_getElem hl]
    rfl

theorem anyNegative_states (hE : Closed E) {ps : List (IntExpr × Int32)}
    (hps : ∀ p ∈ ps, E p.1 ∧ (S → p.1.concrete = p.2.toInt64)) :
    Does E (Stated E S) (anyNegative ps) fun _ => True := by
  induction ps with
  | nil => exact Does.pure trivial
  | cons p ps ih =>
    obtain ⟨he, hn⟩ := hps p List.mem_cons_self
    refine (negativeLength_states hE he hn).bind fun b _ => ?_
    split
    · exact Does.pure trivial
    · exact ih fun p' hp' => hps p' (List.mem_cons_of_mem p hp')

theorem newMultiArray_states (hE : Closed E) (type : String) (dims : List Int32) :
    Triple E (Stated E S) (fun s => S → (Instruction.newMultiArray type dims).Sees s)
      (newMultiArray type dims) fun _ _ => True := by
  refine Triple.ensure_bind fun _ => ?_
  refine Triple.bind (Q := fun ls _ => (∀ e ∈ ls, E e) ∧
    (S → ∀ p ∈ ls.zip dims, p.1.concrete = p.2.toInt64)) ?_ ?_
  · refine onStack_triple fun s hs hsees => ?_
    obtain ⟨hs', hls⟩ := popLengths_keeps (P := Operand.All E) dims.length s hs
    refine ⟨hs', fun ls hres => ⟨hls ls hres, fun hS => ?_⟩⟩
    obtain ⟨hshape, hlen⟩ := popLengths_eq (Prod.ext hres rfl)
    exact sees_lengths hlen (hshape ▸ hsees hS)
  rintro ls _ ⟨hls, hseen⟩
  have hps : ∀ p ∈ ls.zip dims, E p.1 ∧ (S → p.1.concrete = p.2.toInt64) :=
    fun p hp => ⟨hls p.1 (List.of_mem_zip hp).1, fun hS => hseen hS p hp⟩
  refine Does.weaken ((anyNegative_states hE hps).bind fun b _ => ?_)
  split
  · exact Does.pure trivial
  cases ls with
  | nil => exact Does.fail _
  | cons outer _ =>
    refine (onHeap_does (Heap.newArray_keeps _ (hls outer List.mem_cons_self))).bind fun r _ => ?_
    exact (push_does (o := .ref (.object r)) trivial).bind fun _ _ => Does.pure trivial

/-! ## 4. Accesses of arrays -/

theorem resolveArray_does (e : RefExpr) (a : HostArray) :
    Does E P (resolveArray e a) fun _ => True := by
  refine (resolve_does e a.toValue).bind fun x _ => ?_
  cases x with
  | null => exact Does.fail _
  | object r => exact (Does.ensure _ _).bind fun _ _ => Does.pure trivial

theorem arrayLength_does (hE : Closed E) (a : Option HostArray) :
    Does E P (arrayLength a) fun _ => True := by
  refine popRef_does.bind fun e _ => ?_
  cases a with
  | none => exact nullAccess_does
  | some a =>
    refine (resolveArray_does e a).bind fun r _ => Does.get_bind (fun _ _ _ => rfl) fun m hm => ?_
    exact (push_does (o := .bv32 _) (hm.heap.arrayLength hE r _)).bind fun _ _ => Does.pure trivial

theorem negativeIndex_states (hE : Closed E) {e : IntExpr} (he : E e) {n : Int32}
    (hn : S → e.concrete = n.toInt64) :
    Does E (Stated E S) (negativeIndex e n) fun _ => True := by
  refine (decideAccess_does ⟨_, _, _, rfl, he, hE.const 0, fun hS => sign_holds (hn hS)⟩ _).bind ?_
  intro _ _
  dsimp only
  split
  · exact (fault_does _).bind fun _ _ => Does.pure trivial
  · exact Does.pure trivial

theorem indexTooBig_states {e length : IntExpr} (he : E e) (hlength : E length) {n : Int32}
    (hn : S → e.concrete = n.toInt64) :
    Does E (Stated E S) (indexTooBig e n length) fun _ => True := by
  have hheld : S → (if decide (length.concrete ≤ n.toInt64) then Relation.ge else .lt).holds
      e.concrete length.concrete = true := by
    intro hS
    rw [hn hS]
    by_cases h : length.concrete ≤ n.toInt64
    · rw [if_pos (decide_eq_true h)]
      exact decide_eq_true h
    · rw [if_neg (by simpa using h)]
      exact decide_eq_true (Int64.not_le.mp h)
  unfold indexTooBig
  refine (decideAccess_does ⟨_, _, _, rfl, he, hlength, hheld⟩ _).bind fun _ _ => ?_
  dsimp only
  split
  · exact (fault_does _).bind fun _ _ => Does.pure trivial
  · exact Does.pure trivial

theorem checkAccess_states (hE : Closed E) (e : RefExpr) (a : Option HostArray) {index : IntExpr}
    (hindex : E index) {n : Int32} (hn : S → index.concrete = n.toInt64) :
    Does E (Stated E S) (checkAccess e a index n) fun _ => True := by
  cases a with
  | none => exact nullAccess_does.discard.bind fun _ _ => Does.pure trivial
  | some a =>
    refine (negativeIndex_states hE hindex hn).bind fun b _ => ?_
    split
    · exact Does.pure trivial
    refine (resolveArray_does e a).bind fun r _ => Does.get_bind (fun _ _ _ => rfl) fun m hm => ?_
    refine (indexTooBig_states hindex (hm.heap.arrayLength hE r _) hn).bind fun b _ => ?_
    split
    · exact Does.pure trivial
    · exact Does.pure trivial

theorem element_does (a : HostArray) (n : Int32) : Does E P (element a n) fun _ => True := by
  unfold element
  split
  · exact Does.pure trivial
  · exact Does.fail _

theorem arrayLoad_states (hE : Closed E) (w : Width) (a : Option HostArray) (n : Int32) :
    Triple E (Stated E S) (fun s => S → (Instruction.arrayLoad w a n).Sees s) (arrayLoad w a n)
      fun _ _ => True := by
  refine ((popInt_triple fun e => S → e.concrete = n.toInt64).weaken ?_).bind ?_
  · rintro _ hsees e s' rfl hS
    exact hsees hS (0, n.toInt64) List.mem_cons_self e rfl
  rintro index _ ⟨hindex, hn⟩
  refine Does.weaken (popRef_does.bind fun e _ => ?_)
  refine (checkAccess_states hE e a hindex hn).bind fun x _ => ?_
  rcases x with _ | ⟨r, a⟩
  · exact Does.pure trivial
  refine (element_does a n).bind fun v _ => Does.get_bind (fun _ _ _ => rfl) fun m _ => ?_
  refine (onHeap_does (Heap.observe_keeps hE _ _ _)).bind fun observed hobs => ?_
  refine Does.get_bind (fun _ _ _ => rfl) fun m hm => ?_
  refine (Does.ofExcept fun o ho => Operand.all_ofExpr (hm.heap.elem (slot r n) hobs) ho).bind ?_
  exact fun o ho => (push_does ho).bind fun _ _ => Does.pure trivial

theorem arrayStore_states (hE : Closed E) (w : Width) (a : Option HostArray) (n : Int32) :
    Triple E (Stated E S) (fun s => S → (Instruction.arrayStore w a n).Sees s) (arrayStore w a n)
      fun _ _ => True := by
  refine Triple.bind (Q := fun o s => o.All E ∧ ∀ e s', s = .bv32 e :: s' → S →
    e.concrete = n.toInt64) ?_ ?_
  · refine onStack_triple fun s hs hsees => ⟨(Stack.pop_keeps s hs).1, fun o ho => ?_⟩
    refine ⟨(Stack.pop_keeps s hs).2 o ho, fun e s' hs' hS => ?_⟩
    rcases s with _ | ⟨o', s⟩
    · cases ho
    cases hs'
    exact hsees hS (1, n.toInt64) List.mem_cons_self e rfl
  rintro o _ ⟨ho, _⟩
  refine Triple.ensure_bind fun _ => ?_
  refine ((popInt_triple fun e => S → e.concrete = n.toInt64).weaken fun _ h => h.2).bind ?_
  rintro index _ ⟨hindex, hn⟩
  refine Does.weaken (popRef_does.bind fun e _ => ?_)
  refine (checkAccess_states hE e a hindex hn).bind fun x _ => ?_
  rcases x with _ | ⟨r, a⟩
  · exact Does.pure trivial
  · exact (putHeap_does fun _ hh => hh.putElem _ (Operand.all_expr.mpr ho)).bind fun _ _ =>
      Does.pure trivial

end Machine

/-! ## 5. All instructions -/

theorem Does.safely {a : Act Machine Unit} (ha : Does E P a fun _ => True) :
    Does E P (Instruction.safely a) fun _ => True :=
  ha.bind fun _ _ => Does.pure trivial

/-- **Whatever an instruction reports relates expressions with `E`, and it is true if the host sees
the tested operands as they are.** -/
theorem Instruction.exec_states (hE : Closed E) (i : Instruction) :
    Triple E (Stated E S) (fun s => S → i.Sees s) i.exec fun _ _ => True := by
  cases i with
  | intDivide op d => exact Machine.intDivide_states hE op d
  | longDivide op d => exact Machine.longDivide_states hE op d
  | newArray n component => exact Machine.newArray_states hE n component
  | newMultiArray type dims => exact Machine.newMultiArray_states hE type dims
  | arrayLoad w a n => exact Machine.arrayLoad_states hE w a n
  | arrayStore w a n => exact Machine.arrayStore_states hE w a n
  | branchZero ρ b => exact (Machine.branchZero_states hE ρ b).safely.weaken
  | branchCompare ρ b => exact (Machine.branchCompare_states ρ b).safely.weaken
  | branchNull => exact Machine.popRef_does.discard.safely.weaken
  | branchSame =>
    exact (Machine.popRef_does.discard.bind fun _ _ => Machine.popRef_does.discard).safely.weaken
  | tableSwitch b low high => exact (Machine.tableSwitch_states hE b low high).safely.weaken
  | lookupSwitch b keys => exact (Machine.lookupSwitch_states hE b keys).safely.weaken
  | pushNull => exact (Machine.push_does (o := .ref .null) trivial).safely.weaken
  | pushInt v => exact (Machine.push_does (o := .bv32 _) (hE.const _)).safely.weaken
  | pushLong v => exact (Machine.push_does (o := .bv64 _) (hE.const _)).safely.weaken
  | pushFloat v => exact (Machine.push_does (o := .fp32 _) trivial).safely.weaken
  | pushDouble v => exact (Machine.push_does (o := .fp64 _) trivial).safely.weaken
  | pushConstant v => exact (Machine.pushConstant_does hE v).safely.weaken
  | load w i => exact (Machine.load_does w i).safely.weaken
  | store w i => exact (Machine.store_does w i).safely.weaken
  | increment i d => exact (Machine.increment_does hE i d).safely.weaken
  | intOp op => exact (Machine.intBinary_does hE _ _).safely.weaken
  | intShift op => exact (Machine.intBinary_does hE _ _).safely.weaken
  | intNegate => exact (Machine.intNegate_does hE).safely.weaken
  | longOp op => exact (Machine.longBinary_does hE _ _).safely.weaken
  | longShift op => exact (Machine.longShift_does hE op).safely.weaken
  | longNegate => exact (Machine.longNegate_does hE).safely.weaken
  | longCompare => exact (Machine.longCompare_does hE).safely.weaken
  | floatOp op => exact (Machine.floatBinary_does op).safely.weaken
  | floatNegate => exact Machine.floatNegate_does.safely.weaken
  | floatCompare => exact (Machine.floatCompare_does hE).safely.weaken
  | doubleOp op => exact (Machine.doubleBinary_does op).safely.weaken
  | doubleNegate => exact Machine.doubleNegate_does.safely.weaken
  | doubleCompare => exact (Machine.doubleCompare_does hE).safely.weaken
  | convert c => exact (Machine.convert_does hE c).safely.weaken
  | shuffle sh => exact (Machine.onStack_does (Stack.shuffle_keeps sh)).safely.weaken
  | newObject c => exact (Machine.newObject_does c).safely.weaken
  | arrayLength a => exact (Machine.arrayLength_does hE a).weaken
  | getField v o n d x => exact (Machine.getField_does hE v o n d x).weaken
  | putField v o n d => exact (Machine.putField_does v o n d).weaken
  | getStatic o n d x => exact (Machine.getStatic_does hE o n d x).safely.weaken
  | putStatic o n d => exact (Machine.putStatic_does o n d).safely.weaken
  | checkCast t => exact (Machine.checkCast_does t).safely.weaken
  | instanceOf v t => exact (Machine.instanceOf_does hE v t).safely.weaken
  | monitor v => exact (Machine.monitor_does v).weaken
  | enter m s n => exact (Machine.enter_does m s n).safely.weaken
  | leave => exact Machine.leave_does.safely.weaken
  | leaveWith w => exact (Machine.leaveWith_does w).safely.weaken
  | callUnwatched d s v => exact (Machine.callUnwatched_does hE d s v).safely.weaken
  | throwTo d v => exact (Machine.throwTo_does d v).safely.weaken

end Concolic
