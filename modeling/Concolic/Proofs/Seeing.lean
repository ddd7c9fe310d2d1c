import Concolic.Proofs.Reports
import Concolic.Proofs.Words
import Concolic.Replay.Run

/-
# What a replay takes for the host

A line leaves out the divisor, the lengths and the index of its instruction.  A replay reads them
off the stack: it takes the concrete value of the operand that the instruction is about to test, cut
to an int where the instruction wants one.  So the instruction sees its operands as they are, unless
one of them stands in an int slot and is none (`read_sees`).

The readers form a table; `LineReader.Gives` says something of all steps that a reader can give.
-/
namespace Concolic

/-- Whatever the computation answers satisfies `Q`. -/
def Yields (x : Except ε α) (Q : α → Prop) : Prop := ∀ a, x = .ok a → Q a

namespace Yields

variable {Q : α → Prop} {R : β → Prop}

theorem any (x : Except ε α) : Yields x fun _ => True := fun _ _ => trivial

theorem ok {a : α} (h : Q a) : Yields (.ok a : Except ε α) Q := fun b hb => by
  cases hb
  exact h

theorem error (e : ε) : Yields (.error e : Except ε α) Q := fun b hb => by cases hb

theorem bind {x : Except ε α} {g : α → Except ε β} (hx : Yields x Q)
    (hg : ∀ a, Q a → Yields (g a) R) : Yields (x >>= g) R := by
  cases x with
  | error e => exact error e
  | ok a => exact hg a (hx a rfl)

/-- After a computation of which nothing need be known. -/
theorem any_bind {x : Except ε α} {g : α → Except ε β} (hg : ∀ a, Yields (g a) R) :
    Yields (x >>= g) R :=
  (any x).bind fun a _ => hg a

theorem map {x : Except ε α} {f : α → β} (hx : Yields x fun a => R (f a)) :
    Yields (x.map f) R := by
  cases x with
  | error e => exact error _
  | ok a => exact ok (hx a rfl)

theorem mapError {x : Except ε α} (hx : Yields x Q) (f : ε → δ) : Yields (x.mapError f) Q := by
  cases x with
  | error e => exact error _
  | ok a => exact ok (hx a rfl)

end Yields

/-- The ints that an instruction tests are ints. -/
def Instruction.TestsInts (i : Instruction) (s : Stack) : Prop :=
  ∀ p ∈ i.tested, ∀ e, s[p.1]? = some (.bv32 e) → IsInt e.concrete

namespace Replay

/-! ## 1. Looking at the stack -/

theorem stack_peek (s : Stack) (i : Nat) :
    (Stack.peek i s).1 = s[i]?.elim (.error (.violation (.peekRange i s.length))) .ok := by
  unfold Stack.peek
  change ((if (i : Int) < 0 then _ else _ : Act Stack Operand) s).1 = _
  rw [if_neg (by omega), Int.toNat_natCast]
  cases s[i]? <;> rfl

theorem peek_yields (r : Replay) (i : Nat) :
    Yields (r.peek i) fun o => r.machine.operands[i]? = some o := by
  obtain ⟨⟨frames, prepared, heap, collector, log, classes⟩, host, faults⟩ := r
  cases frames with
  | nil => exact Yields.error _
  | cons f rest =>
    have hrun : ∀ m : Machine, m.frames = f :: rest →
        (Machine.onStack (Stack.peek i) m).1 = (Stack.peek i f.stack).1 := by
      rintro ⟨_, _, _, _, _, _⟩ rfl
      rfl
    unfold peek
    rw [hrun _ rfl, stack_peek]
    change Yields _ fun o => f.stack[i]? = some o
    cases f.stack[i]? with
    | none => exact Yields.error _
    | some o => exact Yields.ok rfl

theorem peekInt_yields (r : Replay) (i : Nat) :
    Yields (r.peekInt i) fun v => ∀ o e, r.machine.operands[i]? = some o → o.expr = .int e →
      e.concrete = v := by
  refine (r.peek_yields i).bind fun o ho => ?_
  split
  next e he =>
    refine Yields.ok fun o' e' ho' he' => ?_
    rw [ho] at ho'
    cases ho'
    rw [he] at he'
    cases he'
    rfl
  · exact Yields.error _

/-- The operand with an int, as an instruction sees it that takes the value cut to an int. -/
theorem sees_cut {r : Replay} {i : Nat} {v : Int64} {e : IntExpr}
    (hv : ∀ o e, r.machine.operands[i]? = some o → o.expr = .int e → e.concrete = v)
    (he : r.machine.operands[i]? = some (.bv32 e)) (hint : IsInt e.concrete) :
    e.concrete = v.toInt32.toInt64 := by
  rw [← hv _ e he rfl, hint.toInt64_toInt32]

/-- The lengths of the dimensions, which the replay looks up from the innermost. -/
theorem peekDims_yields (r : Replay) (n : Nat) :
    Yields (peekDims r n) fun dims => dims.length = n ∧
      ∀ p ∈ dims.reverse.zipIdx, ∃ v : Int64, p.1 = v.toInt32 ∧
        ∀ o e, r.machine.operands[p.2]? = some o → o.expr = .int e → e.concrete = v := by
  induction n with
  | zero => exact Yields.ok ⟨rfl, fun p hp => absurd hp List.not_mem_nil⟩
  | succ n ih =>
    refine (r.peekInt_yields n).bind fun v hv => ih.bind fun dims hdims => ?_
    obtain ⟨hlen, hall⟩ := hdims
    refine Yields.ok ⟨congrArg (· + 1) hlen, fun p hp => ?_⟩
    rw [List.reverse_cons, List.zipIdx_append, List.length_reverse, hlen] at hp
    rcases List.mem_append.mp hp with hmem | hmem
    · exact hall p hmem
    · cases List.mem_singleton.mp hmem
      refine ⟨v, rfl, fun o e ho he => hv o e ?_ he⟩
      rwa [Nat.zero_add] at ho

/-! ## 2. Readers -/

/-- All steps that the reader gives satisfy `Q`. -/
def LineReader.Gives (Q : Replay → Step → Prop) : LineReader → Prop
  | args0 f => ∀ r, Yields (f r) (Q r)
  | args1 f => ∀ r a, Yields (f r a) (Q r)
  | args2 f => ∀ r a b, Yields (f r a b) (Q r)
  | args3 f => ∀ r a b c, Yields (f r a b c) (Q r)
  | args4 f => ∀ r a b c d, Yields (f r a b c d) (Q r)
  | args5 f => ∀ r a b c d e, Yields (f r a b c d e) (Q r)
  | many f => ∀ r as, Yields (f r as) (Q r)

theorem LineReader.Gives.read {Q : Replay → Step → Prop} {l : LineReader} (h : l.Gives Q)
    (name : String) (r : Replay) (args : List String) : Yields (l.read name r args) (Q r) := by
  unfold LineReader.read
  dsimp only
  split
  · exact (h r).mapError _
  · exact (h r _).mapError _
  · exact (h r _ _).mapError _
  · exact (h r _ _ _).mapError _
  · exact (h r _ _ _ _).mapError _
  · exact (h r _ _ _ _ _).mapError _
  · exact (h r _).mapError _
  · exact Yields.error _

/-- The step's instruction sees its operands if they are ints. -/
def SeesInts (r : Replay) (s : Step) : Prop :=
  s.instruction.TestsInts r.machine.operands → s.instruction.Sees r.machine.operands

/-- An instruction that tests nothing. -/
theorem untested {r : Replay} {s : Step} (h : s.instruction.tested = []) :
    Yields (.ok s : Except Cause Step) (SeesInts r) :=
  Yields.ok fun _ => Instruction.sees_of_tested_eq_nil h _

theorem fixed_gives {i : Instruction} (h : i.tested = []) : (fixed i).Gives SeesInts :=
  fun _ => untested h

theorem indexed_gives {f : Int → Instruction} (h : ∀ v, (f v).tested = []) :
    (indexed f).Gives SeesInts :=
  fun _ _ => Yields.any_bind fun v => untested (h v)

theorem readIntDivision_gives (op : DivOp) :
    (readIntDivision (.intDivide op)).Gives SeesInts := by
  refine fun r => (r.peekInt_yields 0).bind fun v hv => Yields.ok fun hints p hp e he => ?_
  cases List.mem_singleton.mp hp
  exact sees_cut hv he (hints _ hp e he)

theorem readLongDivision_gives (op : DivOp) :
    (readLongDivision (.longDivide op)).Gives SeesInts := by
  refine fun r => (r.peekInt_yields 0).bind fun v hv => Yields.ok fun _ p hp e he => ?_
  cases List.mem_singleton.mp hp
  exact hv _ e he rfl

theorem readNewArray_gives : readNewArray.Gives SeesInts := by
  refine fun r _ => (r.peekInt_yields 0).bind fun v hv => Yields.ok fun hints p hp e he => ?_
  cases List.mem_singleton.mp hp
  exact sees_cut hv he (hints _ hp e he)

theorem readNewMultiArray_gives : readNewMultiArray.Gives SeesInts := by
  refine fun r type count => Yields.any_bind fun n => ?_
  split
  · exact Yields.error _
  refine Yields.any_bind fun size => ?_
  split
  · exact Yields.error _
  refine (peekDims_yields r n.toNat).bind fun dims hdims => Yields.ok fun hints p hp e he => ?_
  obtain ⟨q, hq, rfl⟩ := List.mem_map.mp hp
  obtain ⟨v, hcut, hv⟩ := hdims.2 q hq
  change _ = q.1.toInt64
  rw [hcut]
  exact sees_cut hv he (hints _ hp e he)

theorem readArrayLoad_gives (w : Width) : (readArrayLoad w).Gives SeesInts := by
  refine fun r name => Yields.any_bind fun a => ?_
  refine (r.peekInt_yields 0).bind fun v hv => Yields.ok fun hints p hp e he => ?_
  cases List.mem_singleton.mp hp
  exact sees_cut hv he (hints _ hp e he)

theorem storeStep_yields (w : Width) (r : Replay) (a : Option HostArray) (value : StackValue) :
    Yields (storeStep w r a value) (SeesInts r) := by
  refine (r.peekInt_yields 1).bind fun v hv => Yields.ok fun hints p hp e he => ?_
  cases List.mem_singleton.mp hp
  exact sees_cut hv he (hints _ hp e he)

theorem readArrayStore_gives (w : Width) : (readArrayStore w).Gives SeesInts := by
  cases w with
  | ref =>
    exact fun r _ _ => Yields.any_bind fun a => Yields.any_bind fun _ => storeStep_yields _ r a _
  | _ =>
    exact fun r _ => Yields.any_bind fun a => Yields.any_bind fun _ => storeStep_yields _ r a _

/-! ## 3. The table -/

theorem plain_tested : ∀ p ∈ Mnemonic.plain, p.2.tested = [] := by decide

theorem onLocal_tested : ∀ p ∈ Mnemonic.onLocal, ∀ v, (p.2 v).tested = [] := by
  simp [Mnemonic.onLocal, Instruction.tested]

theorem branch_tested : ∀ p ∈ Mnemonic.branch, ∀ v, (p.2 v).tested = [] := by
  simp [Mnemonic.branch, Instruction.tested]

theorem intDivision_gives : ∀ p ∈ Mnemonic.intDivision, (readIntDivision p.2).Gives SeesInts := by
  simp only [Mnemonic.intDivision, List.forall_mem_cons]
  exact ⟨readIntDivision_gives _, readIntDivision_gives _, fun _ h => absurd h List.not_mem_nil⟩

theorem longDivision_gives :
    ∀ p ∈ Mnemonic.longDivision, (readLongDivision p.2).Gives SeesInts := by
  simp only [Mnemonic.longDivision, List.forall_mem_cons]
  exact ⟨readLongDivision_gives _, readLongDivision_gives _, fun _ h => absurd h List.not_mem_nil⟩

theorem readCall_gives : readCall.Gives SeesInts := by
  intro r args
  dsimp only
  split
  · exact Yields.any_bind fun _ => untested rfl
  · exact Yields.any_bind fun _ => Yields.any_bind fun _ => untested rfl
  · exact Yields.error _

theorem readLookupSwitch_gives : readLookupSwitch.Gives SeesInts := by
  refine fun r args => Yields.any_bind fun ws => ?_
  cases ws with
  | nil => exact Yields.error _
  | cons => exact untested rfl

/-- **Every line gives a step that sees the ints it tests.** -/
theorem readers_give : ∀ p ∈ readers, p.2.Gives SeesInts := by
  simp only [readers, List.forall_mem_append, List.forall_mem_map]
  refine ⟨⟨⟨⟨⟨⟨⟨?plain, ?onLocal⟩, ?branch⟩, ?intDivision⟩, ?longDivision⟩, ?load⟩, ?store⟩, ?other⟩
  case plain => exact fun p hp => fixed_gives (plain_tested p hp)
  case onLocal => exact fun p hp => indexed_gives (onLocal_tested p hp)
  case branch => exact fun p hp => indexed_gives (branch_tested p hp)
  case intDivision => exact intDivision_gives
  case longDivision => exact longDivision_gives
  case load => exact fun p _ => readArrayLoad_gives p.2
  case store => exact fun p _ => readArrayStore_gives p.2
  case other =>
    simp only [List.forall_mem_cons]
    exact ⟨indexed_gives fun _ => rfl, indexed_gives fun _ => rfl, indexed_gives fun _ => rfl,
      -- constants and increments
      fun _ _ => Yields.any_bind fun _ => untested rfl,
      fun _ _ => Yields.any_bind fun _ => untested rfl,
      fun _ _ => Yields.any_bind fun _ => untested rfl,
      fun _ _ _ => Yields.any_bind fun _ => untested rfl,
      fun _ _ _ => Yields.any_bind fun _ => Yields.any_bind fun _ => untested rfl,
      -- switches
      fun _ _ _ _ => Yields.any_bind fun _ => Yields.any_bind fun _ => Yields.any_bind fun _ =>
        untested rfl,
      readLookupSwitch_gives,
      -- objects, arrays and fields
      fun _ _ => untested rfl,
      readNewArray_gives, readNewArray_gives, readNewMultiArray_gives,
      fun _ _ => Yields.any_bind fun _ => untested rfl,
      fun _ _ _ _ _ _ => Yields.any_bind fun _ => Yields.any_bind fun _ => untested rfl,
      fun _ _ _ _ _ => Yields.any_bind fun _ => untested rfl,
      fun _ _ _ _ _ => Yields.any_bind fun _ => untested rfl,
      fun _ _ _ _ => untested rfl,
      fun _ _ => untested rfl,
      fun _ _ _ => Yields.any_bind fun _ => untested rfl,
      fun _ _ => Yields.any_bind fun _ => untested rfl,
      fun _ _ => Yields.any_bind fun _ => untested rfl,
      -- calls
      fun _ _ _ _ _ _ => Yields.any_bind fun _ => Yields.any_bind fun _ => untested rfl,
      readCall_gives,
      fun _ _ _ => Yields.any_bind fun _ => Yields.any_bind fun _ => untested rfl,
      fun _ h => absurd h List.not_mem_nil⟩

/-- A line that stands for a step has a reader in the table. -/
theorem read_ok {r : Replay} {line name : String} {s : Step}
    (h : r.read line = .ok (some (name, s))) :
    ∃ word args l, Text.fields line = word :: args ∧ (name, l) ∈ readers ∧
      l.read name r args = .ok s := by
  unfold read at h
  split at h
  · cases h
  next word args hfields =>
    dsimp only at h
    split at h
    · cases h
    next l hl =>
      obtain ⟨front, rest, htable, -⟩ := List.lookup_eq_some_iff.mp hl
      have hmem : (Text.upper word, l) ∈ readers :=
        htable ▸ List.mem_append_right front List.mem_cons_self
      cases hread : l.read (Text.upper word) r args with
      | error e =>
        rw [hread] at h
        cases h
      | ok s' =>
        rw [hread] at h
        cases h
        exact ⟨word, args, l, hfields, hmem, hread⟩

/-- **A line's instruction sees its operands if those in int slots are ints.** -/
theorem read_sees {r : Replay} {line name : String} {s : Step}
    (h : r.read line = .ok (some (name, s))) (hints : s.instruction.TestsInts r.machine.operands) :
    s.instruction.Sees r.machine.operands := by
  obtain ⟨word, args, l, -, hmem, hread⟩ := read_ok h
  exact (readers_give _ hmem).read name r args s hread hints

end Replay

end Concolic
