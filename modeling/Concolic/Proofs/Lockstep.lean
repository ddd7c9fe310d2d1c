import Concolic.Proofs.Moves
import Concolic.Proofs.Reports

/-
# The machine and the plain machine in lockstep

The integer instructions of the machine compute what the plain machine computes, as long as no
addition of longs loses a carry (`Folding`), and the two machines part at the first one that does
(`lockstep_iff`).  The comparison covers failure: an instruction fails exactly if the plain machine
is stuck.

An addition loses a carry if it takes back the constant of a sum whose value is not that of its
parts.  Such a sum is made by an addition of ints that overflows; taken for a long, the sum keeps
its parts and its value, and nothing tells that it wrapped around.
-/
namespace Concolic

/-! ## 1. Instructions on ints -/

section Instructions

variable {P : Frame → Prop}

theorem popInt_any : Follows P (Machine.onStack Stack.popInt) Plain.popInt
    fun e v _ => e.IntSound ∧ v = e.concrete.toInt := by
  intro m f rest hf hs _
  rcases popInt_follows (fun _ _ => True) m f rest hf hs (fun _ _ _ => trivial) with
    h | ⟨x, y, m', f', ha, hp, hf', hs', hx, hy, -⟩
  · exact Or.inl h
  · exact Or.inr ⟨x, y, m', f', ha, hp, hf', hs', hx, hy⟩

theorem popLong_any : Follows P (Machine.onStack Stack.popLong) Plain.popLong
    fun e v _ => e.Tidy ∧ v = e.concrete.toInt := by
  intro m f rest hf hs _
  rcases popLong_follows (fun _ _ => True) m f rest hf hs (fun _ _ _ => trivial) with
    h | ⟨x, y, m', f', ha, hp, hf', hs', hx, hy, -⟩
  · exact Or.inl h
  · exact Or.inr ⟨x, y, m', f', ha, hp, hf', hs', hx, hy⟩

theorem IntExpr.IntSound.toInt_concreteInt {e : IntExpr} (h : e.IntSound) :
    e.concreteInt.toInt = e.concrete.toInt := h.isInt.toInt_toInt32

/-- Pushes an int of which the value is known. -/
theorem pushInt_follows {e : IntExpr} {a : Int32} {v : Int}
    (h : e.concrete = a.toInt64 ∧ e.IntSound) (hv : a.toInt = v) :
    Follows P (Machine.push (.bv32 e)) (Plain.push (.int v)) fun _ _ _ => True := by
  refine push_follows h.2 ?_
  rw [Operand.word, h.1, Int32.toInt_toInt64, hv]

/-- Pushes a long of which the value is known. -/
theorem pushLong_follows {e : IntExpr} {a : Int64} {v : Int} (h : e.concrete = a ∧ e.Tidy)
    (hv : a.toInt = v) :
    Follows P (Machine.push (.bv64 e)) (Plain.push (.long v)) fun _ _ _ => True := by
  refine push_follows h.2 ?_
  rw [Operand.word, h.1, hv]

theorem intBinary_follows {op : Operator} {f : Int32 → Int32 → Int32} {g : Int → Int → Int}
    (hvalue : ∀ a b, (f a b).toInt = g a.toInt b.toInt)
    (hfold : ∀ {l r : IntExpr}, l.IntSound → r.IntSound →
      (l.combine op r (f l.concreteInt r.concreteInt).toInt64).concrete =
          (f l.concreteInt r.concreteInt).toInt64 ∧
        (l.combine op r (f l.concreteInt r.concreteInt).toInt64).IntSound) :
    Follows P (Machine.intBinary op f)
      (do
        let b ← Plain.popInt
        let a ← Plain.popInt
        Plain.push (.int (g a b)))
      fun _ _ _ => True := by
  refine popInt_any.bind ?_
  rintro r _ - ⟨hr, rfl⟩
  refine popInt_any.bind ?_
  rintro l _ - ⟨hl, rfl⟩
  refine pushInt_follows (hfold hl hr) ?_
  rw [hvalue, hl.toInt_concreteInt, hr.toInt_concreteInt]

theorem intNegate_follows : Follows P Machine.intNegate
    (do
      let a ← Plain.popInt
      Plain.push (.int (Plain.wrap 32 (-a))))
    fun _ _ _ => True := by
  refine popInt_any.bind ?_
  rintro e _ - ⟨he, rfl⟩
  refine pushInt_follows (IntExpr.intSound_of_spec (IntExpr.apply_spec _ e _)) ?_
  rw [Int32.toInt_neg, he.toInt_concreteInt]
  rfl

theorem intToLong_follows : Follows P (Machine.convert .intToLong)
    (do Plain.push (.long (← Plain.popInt))) fun _ _ _ => True := by
  refine popInt_any.bind ?_
  rintro e _ - ⟨he, rfl⟩
  exact push_follows (o := .bv64 e) he.tidy rfl

/-! ## 2. Instructions on longs -/

theorem longShift_follows (op : ShiftOp) : Follows P (Machine.longShift op)
    (do
      let n ← Plain.popInt
      let a ← Plain.popLong
      Plain.push (.long (Plain.shiftOp 64 op a n)))
    fun _ _ _ => True := by
  refine popInt_any.bind ?_
  rintro r _ - ⟨-, rfl⟩
  refine popLong_any.bind ?_
  rintro l _ - ⟨-, rfl⟩
  obtain ⟨hval, hsum⟩ := IntExpr.combine_shiftOp_spec op l r (op.onLong l.concrete r.concrete)
  exact pushLong_follows ⟨hval, IntExpr.tidy_of_not_constSum hsum⟩ (op.toInt_onLong _ _)

theorem longNegate_follows : Follows P Machine.longNegate
    (do
      let a ← Plain.popLong
      Plain.push (.long (Plain.wrap 64 (-a))))
    fun _ _ _ => True := by
  refine popLong_any.bind ?_
  rintro e _ - ⟨-, rfl⟩
  obtain ⟨hval, hsum⟩ := IntExpr.apply_spec .neg e (-e.concrete)
  exact pushLong_follows ⟨hval, IntExpr.tidy_of_not_constSum hsum⟩ (Int64.toInt_neg _)

theorem longCompare_follows : Follows P Machine.longCompare
    (do
      let b ← Plain.popLong
      let a ← Plain.popLong
      Plain.push (.int (a - b).sign))
    fun _ _ _ => True := by
  refine popLong_any.bind ?_
  rintro r _ - ⟨-, rfl⟩
  refine popLong_any.bind ?_
  rintro l _ - ⟨-, rfl⟩
  obtain ⟨hval, hsum⟩ := IntExpr.threeWay_spec l r (threeWayInt l.concrete r.concrete)
  have hint : IsInt (l.threeWay r (threeWayInt l.concrete r.concrete)).concrete := by
    rw [hval]
    exact isInt_threeWayInt _ _
  refine push_follows (IntExpr.intSound_of_not_constSum hint hsum) ?_
  rw [Operand.word, hval, toInt_threeWayInt]

theorem longToInt_follows : Follows P (Machine.convert .longToInt)
    (do Plain.push (.int (Plain.wrap 32 (← Plain.popLong)))) fun _ _ _ => True := by
  refine popLong_any.bind ?_
  rintro e _ - ⟨-, rfl⟩
  exact pushInt_follows (IntExpr.intSound_of_spec (IntExpr.apply_spec _ e _))
    (Int64.toInt_toInt32 e.concrete)

/-- An operation on longs is matched unless it loses a carry. -/
theorem longBinary_follows (op : WordOp) :
    Follows (fun f => ∀ r l s, f.stack = .bv64 r :: .bv64 l :: s →
        ¬ (op = .add ∧ IntExpr.LosesCarry l r))
      (Machine.longBinary op.operator op.onLong)
      (do
        let b ← Plain.popLong
        let a ← Plain.popLong
        Plain.push (.long (Plain.wordOp 64 op a b)))
      fun _ _ _ => True := by
  refine ((popLong_follows fun r s => ∀ l s', s = .bv64 l :: s' →
    ¬ (op = .add ∧ IntExpr.LosesCarry l r)).weaken ?_).bind ?_
  · rintro f hf r s hr l s' rfl
    exact hf r l s' hr
  rintro r _ - ⟨hr, rfl, -⟩
  refine ((popLong_follows fun l _ => ¬ (op = .add ∧ IntExpr.LosesCarry l r)).weaken ?_).bind ?_
  · rintro f ⟨-, -, hf⟩ l s hl
    exact hf l s hl
  rintro l _ - ⟨hl, rfl, hkeeps⟩
  obtain ⟨hval, htidy⟩ := IntExpr.combine_wordOp_long op hl hr rfl
  exact pushLong_follows ⟨hval.mpr hkeeps, htidy⟩ (op.toInt_onLong _ _)

/-! ## 3. Division -/

/-- After an action that changes nothing but the collector and the log. -/
theorem Follows.after {a : Act Machine α} {x : α} {k : α → Act Machine β} {p : Plain.Move γ}
    {R : β → γ → Frame → Prop}
    (ha : ∀ c f rest, c.frames = f :: rest → ∃ reps, Tells c a (.ok x) c reps)
    (hk : Follows P (k x) p R) : Follows P (a >>= k) p R := by
  intro m f rest hf hs hP
  obtain ⟨reps, htells⟩ := ha m.core f rest hf
  obtain ⟨log', hrun⟩ := htells m.collector m.log
  rw [Machine.machine_core] at hrun
  have hstep : (a >>= k) m = k x (m.core.machine (m.collector.feedAll reps) log') := by
    rw [Act.bind_apply, hrun]
  rw [hstep]
  exact hk _ f rest hf hs hP

theorem zeroDivisor_after {k : Bool → Act Machine β} {p : Plain.Move γ} {R : β → γ → Frame → Prop}
    (e : IntExpr) (z : Bool) (hk : Follows P (k z) p R) :
    Follows P (Machine.zeroDivisor e z >>= k) p R :=
  Follows.after (fun _ _ _ h => ⟨_, Machine.zeroDivisor_tells h e z⟩) hk

theorem intDivide_follows (op : DivOp) (d : Int32) :
    Follows (fun f => ∀ e s, f.stack = .bv32 e :: s → d.toInt64 = e.concrete)
      (Machine.intDivide op d)
      (do
        let b ← Plain.popInt
        let a ← Plain.popInt
        Plain.divide .int 32 op a b)
      fun x y _ => x = y := by
  refine ((popInt_follows fun e _ => d.toInt64 = e.concrete).weaken fun f h => h).bind ?_
  rintro r _ - ⟨-, rfl, hd⟩
  have hdval : d.toInt = r.concrete.toInt := by rw [← hd, Int32.toInt_toInt64]
  refine popInt_any.bind ?_
  rintro l _ - ⟨hl, rfl⟩
  refine zeroDivisor_after r (d = 0) ?_
  have hzero : d = 0 ↔ r.concrete.toInt = 0 := by
    rw [← hdval, ← Int32.toInt_inj]
    rfl
  unfold Plain.divide
  by_cases h : d = 0
  · rw [if_pos (hzero.mp h), if_pos (decide_eq_true h)]
    exact Follows.pure fun _ _ => rfl
  · rw [if_neg (fun h0 => h (hzero.mpr h0)), if_neg (by simpa using h)]
    have h0 : l.concrete = 0 → (op.onInt l.concreteInt d).toInt64 = 0 := by
      intro hl0
      rw [IntExpr.concreteInt, hl0]
      exact congrArg Int32.toInt64 (op.onInt_zero d)
    refine (pushInt_follows (IntExpr.intSound_of_spec (IntExpr.combine_divOp_spec op r h0))
      ?_).safely
    rw [op.toInt_onInt, hl.toInt_concreteInt, hdval]

theorem longDivide_follows (op : DivOp) (d : Int64) :
    Follows (fun f => ∀ e s, f.stack = .bv64 e :: s → d = e.concrete)
      (Machine.longDivide op d)
      (do
        let b ← Plain.popLong
        let a ← Plain.popLong
        Plain.divide .long 64 op a b)
      fun x y _ => x = y := by
  refine ((popLong_follows fun e _ => d = e.concrete).weaken fun f h => h).bind ?_
  rintro r _ - ⟨-, rfl, hd⟩
  refine popLong_any.bind ?_
  rintro l _ - ⟨-, rfl⟩
  refine zeroDivisor_after r (d = 0) ?_
  have hzero : d = 0 ↔ r.concrete.toInt = 0 := by
    rw [← hd, ← Int64.toInt_inj]
    rfl
  unfold Plain.divide
  by_cases h : d = 0
  · rw [if_pos (hzero.mp h), if_pos (decide_eq_true h)]
    exact Follows.pure fun _ _ => rfl
  · rw [if_neg (fun h0 => h (hzero.mpr h0)), if_neg (by simpa using h)]
    have h0 : l.concrete = 0 → op.onLong l.concrete d = 0 := by
      intro hl0
      rw [hl0, op.onLong_zero]
    obtain ⟨hval, hsum⟩ := IntExpr.combine_divOp_spec op r h0
    refine (pushLong_follows ⟨hval, IntExpr.tidy_of_not_constSum hsum⟩ ?_).safely
    rw [op.toInt_onLong, hd]

/-! ## 4. Instructions on locals -/

theorem ensure_follows {b : Bool} {q : Prop} [Decidable q] (h : b = true ↔ q) (v : Violation) :
    Follows P (Act.ensure b v) (guard q : Plain.Move Unit) fun _ _ _ => True := by
  cases b with
  | true =>
    have hguard : (guard q : Plain.Move Unit) = pure () := if_pos (h.mp rfl)
    rw [hguard]
    exact Follows.pure fun _ _ => trivial
  | false =>
    have hguard : (guard q : Plain.Move Unit) = failure :=
      if_neg fun hq => Bool.false_ne_true (h.mpr hq)
    rw [hguard]
    exact Follows.fail (.violation v)

theorem load_follows (w : Width) (i : Int) : Follows P (Machine.load w i)
    (do
      let x ← Plain.readLocal i
      guard (x.width = w)
      Plain.push x)
    fun _ _ _ => True := by
  refine (readLocal_follows i).bind ?_
  rintro o _ - ⟨ho, rfl⟩
  refine (ensure_follows ?_ _).bind fun _ _ _ _ => push_follows ho rfl
  rw [decide_eq_true_iff, Operand.width_word]

theorem store_follows (w : Width) (i : Int) : Follows P (Machine.store w i)
    (do
      let x ← Plain.pop
      guard (x.width = w)
      Plain.writeLocal i x)
    fun _ _ _ => True := by
  refine pop_follows.bind ?_
  rintro o _ - ⟨ho, rfl⟩
  refine (ensure_follows ?_ _).bind fun _ _ _ _ => writeLocal_follows i ho rfl
  rw [decide_eq_true_iff, Operand.width_word]

theorem Machine.onLocals_bind (a : Act Locals α) (k : α → Act Locals β) :
    onLocals (a >>= k) = onLocals a >>= fun x => onLocals (k x) := by
  funext m
  obtain ⟨frames, prepared, heap, collector, log, classes⟩ := m
  cases frames with
  | nil => rfl
  | cons f rest =>
    simp only [onLocals, onTop, Act.zoom, Act.bind_apply]
    rcases a f.locals with ⟨e | x, t⟩ <;> rfl

theorem readInt_follows (i : Int) :
    Follows P (Machine.onLocals (Locals.readInt i)) (Plain.readInt i)
      fun e v _ => e.IntSound ∧ v = e.concrete.toInt := by
  unfold Locals.readInt
  rw [Machine.onLocals_bind]
  refine (readLocal_follows i).bind ?_
  rintro o _ - ⟨ho, rfl⟩
  rintro ⟨_, prepared, heap, collector, log, classes⟩ f rest rfl hs -
  cases o with
  | bv32 e => exact Or.inr ⟨e, _, _, f, rfl, rfl, rfl, hs, ho, rfl⟩
  | _ => exact Or.inl ⟨_, _, rfl, rfl⟩

theorem increment_follows (i : Int) (d : Int32) : Follows P (Machine.increment i d)
    (do
      let v ← Plain.readInt i
      Plain.writeLocal i (.int (Plain.wrap 32 (v + d.toInt))))
    fun _ _ _ => True := by
  unfold Machine.increment
  rw [Machine.onLocals_bind]
  refine (readInt_follows i).bind ?_
  rintro e _ - ⟨he, rfl⟩
  have hconst : (IntExpr.const d.toInt64).IntSound :=
    IntExpr.intSound_of_not_constSum (isInt_toInt64 d) id
  have hvalue : (IntExpr.const d.toInt64).concreteInt = d := Int32.toInt32_toInt64 d
  obtain ⟨hval, hsound⟩ := IntExpr.combine_add_int he hconst (c := (e.concreteInt + d).toInt64)
    (by rw [hvalue])
  refine writeLocal_follows i hsound ?_
  rw [Operand.word, hval, Int32.toInt_toInt64, Int32.toInt_add, he.toInt_concreteInt]
  rfl

end Instructions

/-! ## 5. Steps -/

/-- The instruction adds two longs and loses a carry. -/
def Instruction.LosesCarry : Instruction → Stack → Prop
  | longOp .add, .bv64 r :: .bv64 l :: _ => IntExpr.LosesCarry l r
  | _, _ => False

/-- **An instruction does what it does on the plain machine, unless it loses a carry.** -/
theorem step_follows {i : Instruction} (hi : Plain.knows i = true) :
    Follows (fun f => i.Sees f.stack ∧ ¬ i.LosesCarry f.stack) i.exec (Plain.step i)
      fun b b' _ => b = b' := by
  cases i with
  | pushInt v =>
    refine (pushInt_follows ⟨rfl, ?_⟩ rfl).safely
    exact IntExpr.intSound_of_not_constSum (isInt_toInt64 v) id
  | pushLong v => exact (pushLong_follows ⟨rfl, IntExpr.tidy_const v⟩ rfl).safely
  | load w i => exact (load_follows w i).safely
  | store w i => exact (store_follows w i).safely
  | increment i d => exact (increment_follows i d).safely
  | intOp op =>
    refine (intBinary_follows op.toInt_onInt fun hl hr => ?_).safely
    exact IntExpr.combine_wordOp_int op hl hr rfl
  | intShift op =>
    refine (intBinary_follows op.toInt_onInt fun _ _ => ?_).safely
    exact IntExpr.intSound_of_spec (IntExpr.combine_shiftOp_spec op _ _ _)
  | intDivide op d =>
    refine (intDivide_follows op d).weaken ?_
    rintro f ⟨hd, -⟩ e s hs
    exact (hd (0, d.toInt64) List.mem_cons_self e (by rw [hs]; rfl)).symm
  | intNegate => exact intNegate_follows.safely
  | longOp op =>
    refine ((longBinary_follows op).weaken ?_).safely
    rintro f ⟨-, hc⟩ r l s hs ⟨rfl, hloses⟩
    rw [hs] at hc
    exact hc hloses
  | longShift op => exact (longShift_follows op).safely
  | longDivide op d =>
    refine (longDivide_follows op d).weaken ?_
    rintro f ⟨hd, -⟩ e s hs
    exact (hd (0, d) List.mem_cons_self e (by rw [hs]; rfl)).symm
  | longNegate => exact longNegate_follows.safely
  | longCompare => exact longCompare_follows.safely
  | convert c =>
    cases c with
    | intToLong => exact intToLong_follows.safely
    | longToInt => exact longToInt_follows.safely
    | _ => cases hi
  | shuffle sh => exact (shuffle_follows sh).safely
  | _ => cases hi

/-- Where a carry is lost, the plain machine goes on as well, and the two words on top differ. -/
theorem step_parts {i : Instruction} {m : Machine} {f : Frame} {rest : List Frame}
    (hf : m.frames = f :: rest) (hs : f.Sound) (hloses : i.LosesCarry f.stack) :
    ∃ m' f' p, i.exec m = (.ok false, m') ∧ m'.frames = f' :: rest ∧
      Plain.step i f.plain = some (false, p) ∧ f'.plain ≠ p := by
  obtain ⟨_, prepared, heap, collector, log, classes⟩ := m
  obtain ⟨me, s, t, fk⟩ := f
  subst hf
  unfold Instruction.LosesCarry at hloses
  split at hloses
  next r l s heq =>
    cases heq
    obtain ⟨hr, hs'⟩ := hs.popped
    obtain ⟨hl, -⟩ := hs'.popped
    refine ⟨_, ⟨me, .bv64 (l.combine .add r (l.concrete + r.concrete)) :: s, t, fk⟩, _, rfl, rfl,
      rfl, ?_⟩
    intro heq
    have htop : Word.long (l.combine .add r (l.concrete + r.concrete)).concrete.toInt =
        Word.long (Plain.wordOp 64 .add l.concrete.toInt r.concrete.toInt) :=
      (List.cons.inj (congrArg Plain.stack heq)).1
    rw [← WordOp.toInt_onLong] at htop
    have hval : (l.combine .add r (l.concrete + r.concrete)).concrete = l.concrete + r.concrete :=
      Int64.toInt.inj (Word.long.inj htop)
    exact (IntExpr.combine_add_long_iff hl hr).mp hval hloses
  · exact hloses.elim

/-! ## 6. Runs -/

/-- `P` holds of every instruction of a run and the machine that it meets, up to the first one that
fails. -/
def Along (P : Instruction → Machine → Prop) : List Instruction → Machine → Prop
  | [], _ => True
  | i :: is, m => P i m ∧ ∀ b m', i.exec m = (.ok b, m') → Along P is m'

/-- What a run without failures shows: the answers, and the frame on top without expressions. -/
def shown (r : List (Except Failure Bool) × Machine) : Option (List Bool × Plain) := do
  let bs ← r.1.mapM Except.toOption
  let f ← r.2.frames.head?
  return (bs, f.plain)

theorem shown_cons_ok {i : Instruction} {m m' : Machine} {b : Bool} (h : i.exec m = (.ok b, m'))
    (is : List Instruction) :
    shown (Instruction.run (i :: is) m) =
      (shown (Instruction.run is m')).map fun (bs, p) => (b :: bs, p) := by
  have hrun : Instruction.run (i :: is) m =
      (.ok b :: (Instruction.run is m').1, (Instruction.run is m').2) := by
    simp only [Instruction.run, h]
  rw [hrun]
  simp only [shown, List.mapM_cons]
  cases (Instruction.run is m').1.mapM Except.toOption with
  | none => rfl
  | some bs => cases (Instruction.run is m').2.frames.head? <;> rfl

theorem shown_cons_error {i : Instruction} {m m' : Machine} {e : Failure}
    (h : i.exec m = (.error e, m')) (is : List Instruction) :
    shown (Instruction.run (i :: is) m) = none := by
  have hrun : Instruction.run (i :: is) m =
      (.error e :: (Instruction.run is m').1, (Instruction.run is m').2) := by
    simp only [Instruction.run, h]
  rw [hrun]
  rfl

theorem Plain.run_cons {i : Instruction} {p p' : Plain} {b : Bool}
    (h : Plain.step i p = some (b, p')) (is : List Instruction) :
    Plain.run (i :: is) p = (Plain.run is p').map fun (bs, q) => (b :: bs, q) := by
  change (Plain.step i p >>= fun (b, p') => (Plain.run is p' >>= fun (bs, q) =>
    some (b :: bs, q))) = _
  rw [h]
  change (Plain.run is p' >>= _) = _
  rcases Plain.run is p' with _ | ⟨bs, q⟩ <;> rfl

theorem Plain.run_cons_stuck {i : Instruction} {p : Plain} (h : Plain.step i p = none)
    (is : List Instruction) : Plain.run (i :: is) p = none := by
  change (Plain.step i p >>= _) = _
  rw [h]
  rfl

/-- A run keeps step if every part of it shows what the plain machine shows. -/
def KeepsStep (is : List Instruction) (m : Machine) (p : Plain) : Prop :=
  ∀ js, js <+: is → shown (Instruction.run js m) = Plain.run js p

theorem keepsStep_cons {i : Instruction} {is : List Instruction} {m m' : Machine} {p p' : Plain}
    {b : Bool} (hexec : i.exec m = (.ok b, m')) (hstep : Plain.step i p = some (b, p'))
    (hnil : shown (Instruction.run [] m) = Plain.run [] p) :
    KeepsStep (i :: is) m p ↔ KeepsStep is m' p' := by
  have hcons : ∀ js, shown (Instruction.run (i :: js) m) = Plain.run (i :: js) p ↔
      shown (Instruction.run js m') = Plain.run js p' := by
    intro js
    rw [shown_cons_ok hexec, Plain.run_cons hstep]
    constructor
    · intro h
      refine Option.map_injective ?_ h
      rintro ⟨bs, q⟩ ⟨bs', q'⟩ heq
      cases heq
      rfl
    · intro h
      rw [h]
  constructor
  · intro h js hjs
    exact (hcons js).mp (h (i :: js) ((List.prefix_cons_inj i).mpr hjs))
  · intro h js hjs
    rcases List.prefix_cons_iff.mp hjs with rfl | ⟨js', rfl, hjs'⟩
    · exact hnil
    · exact (hcons js').mpr (h js' hjs')

theorem shown_nil {m : Machine} {f : Frame} {rest : List Frame} (h : m.frames = f :: rest) :
    shown (Instruction.run [] m) = Plain.run [] f.plain := by
  simp only [shown, Instruction.run, h]
  rfl

/-- Going on after a step whose outcome is known. -/
theorem along_cons {P : Instruction → Machine → Prop} {i : Instruction} {is : List Instruction}
    {m m' : Machine} {b : Bool} (h : i.exec m = (.ok b, m')) :
    Along P (i :: is) m ↔ P i m ∧ Along P is m' := by
  refine and_congr_right fun _ => ⟨fun hall => hall b m' h, ?_⟩
  rintro halong b' m'' h'
  rw [h] at h'
  cases h'
  exact halong

/-- The induction along a run: as long as no carry is lost, the operands stay fit for their slots.
-/
theorem keepsStep_iff {is : List Instruction} {m : Machine} {f : Frame} {rest : List Frame}
    (hf : m.frames = f :: rest) (hs : f.Sound) (hknown : ∀ i ∈ is, Plain.knows i = true)
    (hsees : Along (fun i m => i.Sees m.operands) is m) :
    KeepsStep is m f.plain ↔ Along (fun i m => ¬ i.LosesCarry m.operands) is m := by
  induction is generalizing m f with
  | nil =>
    refine ⟨fun _ => trivial, fun _ js hjs => ?_⟩
    rw [List.prefix_nil.mp hjs]
    exact shown_nil hf
  | cons i is ih =>
    have hi : Plain.knows i = true := hknown i List.mem_cons_self
    have hstack : m.operands = f.stack := Core.operands_eq hf
    have hsee : i.Sees f.stack := hstack ▸ hsees.1
    by_cases hloses : i.LosesCarry f.stack
    · refine iff_of_false ?_ ?_
      · intro hkeeps
        obtain ⟨m', f', p, hexec, hf', hstep, hne⟩ := step_parts hf hs hloses
        have hone := hkeeps [i] ((List.prefix_cons_inj i).mpr List.nil_prefix)
        rw [shown_cons_ok hexec, Plain.run_cons hstep, shown_nil hf'] at hone
        cases hone
        exact hne rfl
      · intro halong
        exact halong.1 (hstack ▸ hloses)
    · have hloses' : ¬ i.LosesCarry m.operands := hstack ▸ hloses
      rcases step_follows hi m f rest hf hs ⟨hsee, hloses⟩ with
        ⟨e, m', hexec, hstep⟩ | ⟨b, b', m', f', hexec, hstep, hf', hs', rfl⟩
      · refine iff_of_true ?_ ⟨hloses', ?_⟩
        · intro js hjs
          rcases List.prefix_cons_iff.mp hjs with rfl | ⟨js', rfl, -⟩
          · exact shown_nil hf
          · rw [shown_cons_error hexec, Plain.run_cons_stuck hstep]
        · intro b m'' hexec'
          rw [hexec] at hexec'
          cases hexec'
      · rw [keepsStep_cons hexec hstep (shown_nil hf), along_cons hexec, and_iff_right hloses']
        exact ih hf' hs' (fun j hj => hknown j (List.mem_cons_of_mem i hj))
          ((along_cons hexec).mp hsees).2

/-! ## 7. Lockstep -/

/-- Whether the expression is a constant or an input. -/
def IntExpr.isLeaf : IntExpr → Bool
  | const _ => true
  | var _ => true
  | _ => false

/-- An int or a long that is a constant or an input of its width.  Of other operands nothing is
asked. -/
def Operand.Fresh : Operand → Prop
  | bv32 e => e.isLeaf = true ∧ IsInt e.concrete
  | bv64 e => e.isLeaf = true
  | _ => True

/-- All operands of the frame are fresh. -/
def Frame.Fresh (f : Frame) : Prop :=
  (∀ o ∈ f.stack, o.Fresh) ∧ ∀ o, some o ∈ f.locals.slots → o.Fresh

theorem IntExpr.not_constSum_of_isLeaf {e : IntExpr} (h : e.isLeaf = true) : ¬ e.IsConstSum := by
  cases e with
  | const v => exact id
  | var x => exact id
  | _ => cases h

theorem Operand.Fresh.sound {o : Operand} (h : o.Fresh) : o.Sound := by
  cases o with
  | bv32 e => exact IntExpr.intSound_of_not_constSum h.2 (IntExpr.not_constSum_of_isLeaf h.1)
  | bv64 e => exact IntExpr.tidy_of_not_constSum (IntExpr.not_constSum_of_isLeaf h)
  | _ => trivial

/-- **The integer machine runs in lockstep with the plain machine exactly as long as no addition of
longs loses a carry.**  Started on constants and inputs that fit their width, with divisors as the
operands have them, every part of a run shows the answers, the stack and the locals of the plain
machine if and only if no step of the run loses a carry. -/
theorem lockstep_iff {is : List Instruction} {m : Machine} {f : Frame} {rest : List Frame}
    (hf : m.frames = f :: rest) (hfresh : f.Fresh) (hknown : ∀ i ∈ is, Plain.knows i = true)
    (hsees : Along (fun i m => i.Sees m.operands) is m) :
    (∀ js, js <+: is → shown (Instruction.run js m) = Plain.run js f.plain) ↔
      Along (fun i m => ¬ i.LosesCarry m.operands) is m :=
  keepsStep_iff hf ⟨fun o ho => (hfresh.1 o ho).sound, fun o ho => (hfresh.2 o ho).sound⟩ hknown
    hsees

/-- A frame with the largest int on its stack, an input. -/
def largest : Frame :=
  ⟨⟨"A", "f", "(I)V"⟩, [.bv32 (.var ⟨"x", 2147483647, -2147483648, 2147483647⟩)], ⟨[]⟩, false⟩

/-- A machine in that frame. -/
def atLargest : Machine := { Machine.new none with frames := [largest] }

/-- Adds one to an int, makes the sum a long and takes the one back. -/
def undoneAsLong : List Instruction :=
  [.pushInt 1, .intOp .add, .convert .intToLong, .pushLong (-1), .longOp .add]

/-- **A sum that overflowed is undone past its overflow.**  The plain machine ends below the least
int, the machine where it began. -/
theorem undoneAsLong_parts :
    shown (Instruction.run undoneAsLong atLargest) =
        some ([false, false, false, false, false], ⟨[.long 2147483647], []⟩) ∧
      Plain.run undoneAsLong largest.plain =
        some ([false, false, false, false, false], ⟨[.long (-2147483649)], []⟩) := by
  constructor <;> decide

theorem undoneAsLong_not_lockstep :
    ¬ ∀ js, js <+: undoneAsLong →
      shown (Instruction.run js atLargest) = Plain.run js largest.plain := by
  have hframes : atLargest.frames = [largest] := rfl
  have hfresh : largest.Fresh := by
    refine ⟨fun o ho => ?_, fun o ho => by cases ho⟩
    cases List.mem_singleton.mp ho
    exact ⟨rfl, by decide⟩
  have hsees : Along (fun i m => i.Sees m.operands) undoneAsLong atLargest := by
    simp [undoneAsLong, Along, Instruction.Sees, Instruction.tested]
  rw [lockstep_iff hframes hfresh (by decide) hsees]
  intro halong
  have hlast := ((((halong.2 _ _ rfl).2 _ _ rfl).2 _ _ rfl).2 _ _ rfl).1
  exact hlast (Or.inr ⟨-1, rfl, _, _, by decide, rfl, by decide⟩)

end Concolic
