import Concolic.Proofs.IntSlots
import Concolic.Proofs.PathTruth

/-
# The range of ints along a replay

Every operand of the width of ints has a value of 32 bits, on every stack and in all locals, after
any lines of any trace and also after those that fail.  There are two conditions, and both are about
the host: a field or element is read and written at one width only, and no array has more elements
than an int can count (`Replay.int_slots_hold_ints`).

The invariant is `Machine.IntsFit`, which every instruction keeps if it names its place.  So this
file shows that the instructions of lines do: the words of a line are not empty, and the objects it
mentions are those of the host, which have an identity (`Replay.read_hosted`).  A start has read its
ints within their bounds (`Replay.start_intsFit`).
-/
namespace Concolic

/-! ## 1. Words -/

namespace Text

theorem ne_nil_of_mem_fieldsFrom {field cs w : List Char} (h : w ∈ fieldsFrom field cs) :
    w ≠ [] := by
  have hcut : ∀ {field : List Char}, ¬ field.isEmpty = true → field.reverse ≠ [] := by
    intro field hfield hnil
    exact hfield (List.isEmpty_iff.mpr (List.reverse_eq_nil_iff.mp hnil))
  induction cs generalizing field with
  | nil =>
    unfold fieldsFrom at h
    split at h
    · exact absurd h List.not_mem_nil
    next hfield =>
      cases List.mem_singleton.mp h
      exact hcut hfield
  | cons c cs ih =>
    unfold fieldsFrom at h
    split at h
    · split at h
      · exact ih h
      next hfield =>
        rcases List.mem_cons.mp h with rfl | hrest
        · exact hcut hfield
        · exact ih hrest
    · exact ih h

/-- The words of a line are not empty. -/
theorem ne_empty_of_mem_fields {line w : String} (h : w ∈ fields line) : w ≠ "" := by
  obtain ⟨cs, hcs, rfl⟩ := List.mem_map.mp h
  intro hempty
  exact ne_nil_of_mem_fieldsFrom hcs (String.ofList_inj.mp hempty)

end Text

/-! ## 2. Objects of the host -/

theorem HostArray.toValue_same_self (a : HostArray) : a.toValue.same a.toValue = true := by
  simp [toValue, Value.same]

namespace Host

/-- What has a name in the host has an identity. -/
theorem lookup_yields (h : Host) (name : String) :
    Yields (h.lookup name) fun v => v.same v = true := by
  unfold lookup value?
  split
  · exact Yields.ok rfl
  · split
    next v hv =>
      refine Yields.ok ?_
      split at hv
      next a _ =>
        cases hv
        exact a.toValue_same_self
      · obtain ⟨c, -, rfl⟩ := Option.map_eq_some_iff.mp hv
        simp [Value.same]
    · exact Yields.error _

theorem array_yields (h : Host) (name : String) :
    Yields (h.array name) fun x => ∀ a, x = some a → a ∈ h.arrays := by
  unfold array
  split
  · exact Yields.ok nofun
  · split
    next a ha =>
      refine Yields.ok fun a' heq => ?_
      cases heq
      exact List.mem_of_find?_eq_some ha
    · exact Yields.error _
    · exact Yields.error _

/-- No array has more elements than an int can count. -/
def ShortArrays (h : Host) : Prop := ∀ a ∈ h.arrays, a.elems.length < 2 ^ 31

instance (h : Host) : Decidable h.ShortArrays :=
  inferInstanceAs (Decidable (∀ a ∈ h.arrays, a.elems.length < 2 ^ 31))

/-- The arrays of a host after a store are as long as before. -/
theorem length_of_mem_setElem {h : Host} {name : String} {i : Nat} {v : Value} {a' : HostArray}
    (ha' : a' ∈ (h.setElem name i v).arrays) :
    ∃ a ∈ h.arrays, a'.elems.length = a.elems.length := by
  obtain ⟨a, ha, rfl⟩ := List.mem_map.mp ha'
  refine ⟨a, ha, ?_⟩
  split
  · exact List.length_set
  · rfl

end Host

/-! ## 3. Lines -/

namespace Instruction

/-- The instruction is for a place of the host or for the length of an array. -/
def meetsHost : Instruction → Bool
  | getField .. | putField .. | getStatic .. | putStatic .. | arrayLoad .. | arrayStore ..
  | arrayLength .. => true
  | _ => false

theorem accessed_of_apart {i : Instruction} (h : i.meetsHost = false) : i.accessed = none := by
  cases i with
  | getField | putField | getStatic | putStatic | arrayLoad | arrayStore => cases h
  | _ => rfl

end Instruction

namespace Replay

/-- The places that the step accesses are named, and the array whose length it takes is the
host's. -/
structure Hosted (r : Replay) (s : Step) : Prop where
  named : ∀ p w, s.instruction.accessed = some (p, w) → p.Named
  array : ∀ a, s.instruction = .arrayLength (some a) → a ∈ r.host.arrays

theorem hosted_of_apart {r : Replay} {s : Step} (h : s.instruction.meetsHost = false) :
    Hosted r s := by
  refine ⟨fun p w hp => ?_, fun a ha => ?_⟩
  · rw [Instruction.accessed_of_apart h] at hp
    cases hp
  · rw [ha] at h
    cases h

/-- All steps that the reader gives for words that are not empty satisfy `Q`. -/
def LineReader.GivesWords (Q : Replay → Step → Prop) : LineReader → Prop
  | args0 f => ∀ r, Yields (f r) (Q r)
  | args1 f => ∀ r a, a ≠ "" → Yields (f r a) (Q r)
  | args2 f => ∀ r a b, a ≠ "" → b ≠ "" → Yields (f r a b) (Q r)
  | args3 f => ∀ r a b c, a ≠ "" → b ≠ "" → c ≠ "" → Yields (f r a b c) (Q r)
  | args4 f => ∀ r a b c d, a ≠ "" → b ≠ "" → c ≠ "" → d ≠ "" → Yields (f r a b c d) (Q r)
  | args5 f => ∀ r a b c d e, a ≠ "" → b ≠ "" → c ≠ "" → d ≠ "" → e ≠ "" →
      Yields (f r a b c d e) (Q r)
  | many f => ∀ r as, (∀ a ∈ as, a ≠ "") → Yields (f r as) (Q r)

theorem LineReader.GivesWords.read {Q : Replay → Step → Prop} {l : LineReader}
    (h : l.GivesWords Q) (name : String) (r : Replay) {args : List String}
    (hargs : ∀ a ∈ args, a ≠ "") : Yields (l.read name r args) (Q r) := by
  unfold LineReader.read
  dsimp only
  split
  · exact (h r).mapError _
  · exact (h r _ (hargs _ (by simp))).mapError _
  · exact (h r _ _ (hargs _ (by simp)) (hargs _ (by simp))).mapError _
  · exact (h r _ _ _ (hargs _ (by simp)) (hargs _ (by simp)) (hargs _ (by simp))).mapError _
  · exact (h r _ _ _ _ (hargs _ (by simp)) (hargs _ (by simp)) (hargs _ (by simp))
      (hargs _ (by simp))).mapError _
  · exact (h r _ _ _ _ _ (hargs _ (by simp)) (hargs _ (by simp)) (hargs _ (by simp))
      (hargs _ (by simp)) (hargs _ (by simp))).mapError _
  · exact (h r _ hargs).mapError _
  · exact Yields.error _

/-- An instruction that is for no place. -/
theorem apart {r : Replay} {s : Step} (h : s.instruction.meetsHost = false) :
    Yields (.ok s : Except Cause Step) (Hosted r) :=
  Yields.ok (hosted_of_apart h)

theorem fixed_hosted {i : Instruction} (h : i.meetsHost = false) : (fixed i).GivesWords Hosted :=
  fun _ => apart h

theorem indexed_hosted {f : Int → Instruction} (h : ∀ v, (f v).meetsHost = false) :
    (indexed f).GivesWords Hosted :=
  fun _ _ _ => Yields.any_bind fun v => apart (h v)

/-- An element of an array of the host, if there is an array. -/
theorem hosted_of_element {r : Replay} {s : Step} {w : Width} {a : Option HostArray} {n : Int32}
    (hs : s.instruction = .arrayLoad w a n ∨ s.instruction = .arrayStore w a n) : Hosted r s := by
  have haccess : s.instruction.accessed = a.map fun a => (.element a.toValue n, w) := by
    rcases hs with hs | hs <;> rw [hs] <;> cases a <;> rfl
  refine ⟨fun p w' hp => ?_, fun a' ha' => ?_⟩
  · rw [haccess] at hp
    obtain ⟨a, -, heq⟩ := Option.map_eq_some_iff.mp hp
    cases heq
    exact a.toValue_same_self
  · rw [ha'] at hs
    rcases hs with hs | hs <;> cases hs

theorem readArrayLoad_hosted (w : Width) : (readArrayLoad w).GivesWords Hosted :=
  fun _ _ _ => Yields.any_bind fun _ => Yields.any_bind fun _ =>
    Yields.ok (hosted_of_element (Or.inl rfl))

theorem storeStep_hosted (w : Width) (r : Replay) (a : Option HostArray) (value : StackValue) :
    Yields (storeStep w r a value) (Hosted r) :=
  Yields.any_bind fun _ => Yields.ok (hosted_of_element (Or.inr rfl))

theorem readArrayStore_hosted (w : Width) : (readArrayStore w).GivesWords Hosted := by
  cases w with
  | ref =>
    exact fun r _ _ _ _ => Yields.any_bind fun a => Yields.any_bind fun _ =>
      storeStep_hosted _ r a _
  | _ => exact fun r _ _ => Yields.any_bind fun a => Yields.any_bind fun _ =>
      storeStep_hosted _ r a _

theorem readArrayLength_hosted : readArrayLength.GivesWords Hosted := by
  refine fun r name _ => ((r.host.array_yields name).mapError _).bind fun a ha => ?_
  refine Yields.ok ⟨nofun, fun a' heq => ha a' ?_⟩
  cases heq
  rfl

/-- A field, if its descriptor has a width. -/
theorem hosted_of_field {r : Replay} {s : Step} {p : Place} {w : Option Width}
    (hs : s.instruction.accessed = w.map (p, ·))
    (hlen : ∀ a, s.instruction ≠ .arrayLength (some a)) (hp : p.Named) : Hosted r s := by
  refine ⟨fun p' w' hp' => ?_, fun a ha => absurd ha (hlen a)⟩
  rw [hs] at hp'
  obtain ⟨_, -, heq⟩ := Option.map_eq_some_iff.mp hp'
  cases heq
  exact hp

theorem readGetField_hosted : readGetField.GivesWords Hosted :=
  fun r receiver _ _ _ _ _ howner _ _ _ =>
    ((r.host.lookup_yields receiver).mapError _).bind fun _ hv => Yields.any_bind fun _ =>
      Yields.ok (hosted_of_field rfl nofun ⟨hv, howner⟩)

theorem readPutField_hosted : readPutField.GivesWords Hosted :=
  fun r receiver _ _ _ _ howner _ _ =>
    ((r.host.lookup_yields receiver).mapError _).bind fun _ hv =>
      Yields.ok (hosted_of_field rfl nofun ⟨hv, howner⟩)

theorem readGetStatic_hosted : readGetStatic.GivesWords Hosted :=
  fun _ _ _ _ _ howner _ _ _ => Yields.any_bind fun _ =>
    Yields.ok (hosted_of_field rfl nofun howner)

theorem readPutStatic_hosted : readPutStatic.GivesWords Hosted :=
  fun _ _ _ _ howner _ _ => Yields.ok (hosted_of_field rfl nofun howner)

theorem readNewMultiArray_hosted : readNewMultiArray.GivesWords Hosted := by
  refine fun r type count _ _ => Yields.any_bind fun n => ?_
  split
  · exact Yields.error _
  refine Yields.any_bind fun size => ?_
  split
  · exact Yields.error _
  · exact Yields.any_bind fun dims => apart rfl

theorem readLookupSwitch_hosted : readLookupSwitch.GivesWords Hosted := by
  refine fun r args _ => Yields.any_bind fun ws => ?_
  cases ws with
  | nil => exact Yields.error _
  | cons => exact apart rfl

theorem readCall_hosted : readCall.GivesWords Hosted := by
  intro r args _
  dsimp only
  split
  · exact Yields.any_bind fun _ => apart rfl
  · exact Yields.any_bind fun _ => Yields.any_bind fun _ => apart rfl
  · exact Yields.error _

theorem plain_apart : ∀ p ∈ Mnemonic.plain, p.2.meetsHost = false := by decide

theorem onLocal_apart : ∀ p ∈ Mnemonic.onLocal, ∀ v, (p.2 v).meetsHost = false := by
  simp [Mnemonic.onLocal, Instruction.meetsHost]

theorem branch_apart : ∀ p ∈ Mnemonic.branch, ∀ v, (p.2 v).meetsHost = false := by
  simp [Mnemonic.branch, Instruction.meetsHost]

theorem intDivision_apart : ∀ p ∈ Mnemonic.intDivision, ∀ d, (p.2 d).meetsHost = false := by
  simp [Mnemonic.intDivision, Instruction.meetsHost]

theorem longDivision_apart : ∀ p ∈ Mnemonic.longDivision, ∀ d, (p.2 d).meetsHost = false := by
  simp [Mnemonic.longDivision, Instruction.meetsHost]

/-- **Every line names its place.** -/
theorem readers_hosted : ∀ p ∈ readers, p.2.GivesWords Hosted := by
  simp only [readers, List.forall_mem_append, List.forall_mem_map]
  refine ⟨⟨⟨⟨⟨⟨⟨?plain, ?onLocal⟩, ?branch⟩, ?intDivision⟩, ?longDivision⟩, ?load⟩, ?store⟩, ?other⟩
  case plain => exact fun p hp => fixed_hosted (plain_apart p hp)
  case onLocal => exact fun p hp => indexed_hosted (onLocal_apart p hp)
  case branch => exact fun p hp => indexed_hosted (branch_apart p hp)
  case intDivision => exact fun p hp _ => Yields.any_bind fun _ => apart (intDivision_apart p hp _)
  case longDivision =>
    exact fun p hp _ => Yields.any_bind fun _ => apart (longDivision_apart p hp _)
  case load => exact fun p _ => readArrayLoad_hosted p.2
  case store => exact fun p _ => readArrayStore_hosted p.2
  case other =>
    simp only [List.forall_mem_cons]
    exact ⟨indexed_hosted fun _ => rfl, indexed_hosted fun _ => rfl, indexed_hosted fun _ => rfl,
      -- constants and increments
      fun _ _ _ => Yields.any_bind fun _ => apart rfl,
      fun _ _ _ => Yields.any_bind fun _ => apart rfl,
      fun _ _ _ => Yields.any_bind fun _ => apart rfl,
      fun _ _ _ _ _ => Yields.any_bind fun _ => apart rfl,
      fun _ _ _ _ _ => Yields.any_bind fun _ => Yields.any_bind fun _ => apart rfl,
      -- switches
      fun _ _ _ _ _ _ _ => Yields.any_bind fun _ => Yields.any_bind fun _ =>
        Yields.any_bind fun _ => apart rfl,
      readLookupSwitch_hosted,
      -- objects, arrays and fields
      fun _ _ _ => apart rfl,
      fun _ _ _ => Yields.any_bind fun _ => apart rfl,
      fun _ _ _ => Yields.any_bind fun _ => apart rfl,
      readNewMultiArray_hosted, readArrayLength_hosted, readGetField_hosted, readPutField_hosted,
      readGetStatic_hosted, readPutStatic_hosted,
      fun _ _ _ => apart rfl,
      fun _ _ _ _ _ => Yields.any_bind fun _ => apart rfl,
      fun _ _ _ => Yields.any_bind fun _ => apart rfl,
      fun _ _ _ => Yields.any_bind fun _ => apart rfl,
      -- calls
      fun _ _ _ _ _ _ _ _ _ _ _ => Yields.any_bind fun _ => Yields.any_bind fun _ => apart rfl,
      readCall_hosted,
      fun _ _ _ _ _ => Yields.any_bind fun _ => Yields.any_bind fun _ => apart rfl,
      fun _ h => absurd h List.not_mem_nil⟩

/-- **The instruction of a line is for a place that has a name.** -/
theorem read_hosted {r : Replay} {line name : String} {s : Step}
    (h : r.read line = .ok (some (name, s))) : Hosted r s := by
  obtain ⟨word, args, l, hfields, hmem, hread⟩ := read_ok h
  have hargs : ∀ a ∈ args, a ≠ "" := fun a ha =>
    Text.ne_empty_of_mem_fields (hfields ▸ List.mem_cons_of_mem word ha)
  exact (readers_hosted _ hmem).read name r hargs s hread

/-! ## 4. Runs -/

/-- What a line has accessed. -/
def accessedBy (r : Replay) (line : String) : List (Place × Width) :=
  match r.read line with
  | .ok (some (_, s)) => s.instruction.completed r.machine
  | _ => []

/-- What lines have accessed, those apart that fault or fail. -/
def accesses (r : Replay) : List String → List (Place × Width)
  | [] => []
  | line :: ls => r.accessedBy line ++ (r.exec line).2.accesses ls

/-- A step changes only the elements of host arrays, not how many there are. -/
theorem perform_lengths (name line : String) (s : Step) (r : Replay) :
    ∀ a' ∈ (r.perform name line s).2.host.arrays,
      ∃ a ∈ r.host.arrays, a'.elems.length = a.elems.length := by
  have h := r.performs name line s
  generalize r.perform name line s = p at h ⊢
  cases h with
  | endless | failed | faulted | done | misfit => exact fun a ha => ⟨a, ha, rfl⟩
  | stored => exact fun a' ha' => Host.length_of_mem_setElem ha'

theorem perform_shortArrays {r : Replay} (hr : r.host.ShortArrays) (name line : String) (s : Step) :
    (r.perform name line s).2.host.ShortArrays := by
  intro a' ha'
  obtain ⟨a, ha, hlen⟩ := r.perform_lengths name line s a' ha'
  rw [hlen]
  exact hr a ha

end Replay

/-- What fits depends on frames, heap and prepared classes only. -/
theorem Machine.IntsFit.of_core {as : List (Place × Width)} {m m' : Machine} (hm : m.IntsFit as)
    (h : m'.core = m.core) : m'.IntsFit as := by
  obtain ⟨frames, prepared, heap, collector, log, classes⟩ := m
  obtain ⟨frames', prepared', heap', collector', log', classes'⟩ := m'
  cases h
  exact ⟨⟨hm.sound.heap, hm.sound.frames⟩, hm.fits.heap, hm.fits.frames⟩

theorem SingleWidth.append_left {as bs : List (Place × Width)} (h : SingleWidth (as ++ bs)) :
    SingleWidth as :=
  fun a ha b hb => h a (List.mem_append_left bs ha) b (List.mem_append_left bs hb)

namespace Replay

variable {as : List (Place × Width)} {r : Replay}

/-- **One line.** -/
theorem exec_intsFit (hm : r.machine.IntsFit as) (hr : r.host.ShortArrays) (line : String)
    (hsingle : SingleWidth (as ++ r.accessedBy line)) :
    (r.exec line).2.machine.IntsFit (as ++ r.accessedBy line) ∧
      (r.exec line).2.host.ShortArrays := by
  have hsame : r.machine.IntsFit (as ++ []) := by rwa [List.append_nil]
  unfold exec
  unfold accessedBy at hsingle ⊢
  cases hread : r.read line with
  | error e => exact ⟨hsame, hr⟩
  | ok x =>
    cases x with
    | none => exact ⟨hsame, hr⟩
    | some p =>
      obtain ⟨name, s⟩ := p
      rw [hread] at hsingle
      have hhosted := read_hosted hread
      have hstep := hm.exec (fun a ha => hr a (hhosted.array a ha)) hhosted.named hsingle
      exact ⟨hstep.of_core (r.perform_machine name line s).1, perform_shortArrays hr name line s⟩

/-- **All lines.** -/
theorem after_intsFit (hm : r.machine.IntsFit as) (hr : r.host.ShortArrays) {ls : List String}
    (hsingle : SingleWidth (as ++ r.accesses ls)) :
    (r.after ls).machine.IntsFit (as ++ r.accesses ls) := by
  induction ls generalizing r as with
  | nil => exact (List.append_nil as).symm ▸ hm
  | cons line ls ih =>
    rw [accesses, ← List.append_assoc] at hsingle ⊢
    obtain ⟨hm', hr'⟩ := exec_intsFit hm hr line hsingle.append_left
    exact ih hm' hr' hsingle

end Replay

/-! ## 5. Starts -/

namespace Host

theorem readInt_yields (name : String) (part : ArgPart) (t : IntType) (s : String) {default : Int}
    (hdefault : t.lo ≤ default ∧ default ≤ t.hi) :
    Yields (readInt name part t s default) fun v => t.lo ≤ v ∧ v ≤ t.hi := by
  unfold readInt
  split
  · exact Yields.ok hdefault
  · split
    · exact Yields.error _
    · split
      · exact Yields.error _
      · exact Yields.ok (by omega)

theorem IntType.zero_mem (t : IntType) : t.lo ≤ 0 ∧ 0 ≤ t.hi := by
  cases t <;> decide

/-- The values of the types narrower than long are ints. -/
theorem IntType.isInt {t : IntType} (ht : t ≠ .long) {v : Int} (hv : t.lo ≤ v ∧ v ≤ t.hi) :
    IsInt (Int64.ofInt v) := by
  have hlo : -2 ^ 31 ≤ t.lo := by
    cases t with
    | long => exact absurd rfl ht
    | _ => decide
  have hhi : t.hi < 2 ^ 31 := by
    cases t with
    | long => exact absurd rfl ht
    | _ => decide
  unfold IsInt
  rw [Int64.toInt_ofInt_of_le (by omega) (by omega)]
  omega

/-- An argument is an int if it is for an int slot, and a number refers to nothing. -/
def Fresh (o : Operand) : Prop := o.Ints IntExpr.IntSound ∧ ∀ h, o.Issued h

theorem intOperand_fresh (t : IntType) (a : Trace.Arg) : Yields (intOperand t a) Fresh := by
  refine (readInt_yields _ _ t _ t.zero_mem).bind fun v hv => ?_
  refine Yields.any_bind fun lo => Yields.any_bind fun hi => ?_
  dsimp only
  by_cases hout : v < lo ∨ hi < v
  · rw [if_pos hout]
    exact Yields.error _
  rw [if_neg hout]
  refine Yields.ok ?_
  by_cases hlong : t = .long
  · rw [if_pos hlong]
    exact ⟨trivial, fun _ => trivial⟩
  · rw [if_neg hlong]
    refine ⟨?_, fun _ => trivial⟩
    change IntExpr.IntSound _
    split
    · exact IntExpr.intSound_of_not_constSum (t.isInt hlong hv) id
    · exact IntExpr.intSound_of_not_constSum (t.isInt hlong hv) id

theorem realOperand_fresh (p : Numeral.Precision) (a : Trace.Arg) :
    Yields (realOperand p a) Fresh := by
  refine Yields.any_bind fun v => Yields.any_bind fun lo => Yields.any_bind fun hi => Yields.ok ?_
  cases p with
  | single => exact ⟨trivial, fun _ => trivial⟩
  | double => exact ⟨trivial, fun _ => trivial⟩

theorem argument_fresh (h : Host) (a : Trace.Arg) :
    Yields (h.argument a) fun x => ∀ o, x = .inl o → Fresh o := by
  have hleft : ∀ {x : Except ArgError Operand}, Yields x Fresh →
      Yields (x.map (Sum.inl : Operand → Operand ⊕ Value)) fun y => ∀ o, y = .inl o → Fresh o :=
    fun hx => Yields.map fun o ho o' heq => by
      cases heq
      exact hx o ho
  unfold argument
  split
  · exact hleft (intOperand_fresh _ a)
  · split
    · exact hleft (realOperand_fresh _ a)
    · exact hleft (realOperand_fresh _ a)
    · exact Yields.map fun v _ o heq => by cases heq

end Host

namespace Replay

/-- The operands of a start are ints where they should be. -/
theorem operands_ints {G : Location → Prop} (h : Host) (args : List Trace.Arg) :
    Act.Keeps (Heap.IntsBut G) (operands h args) fun res =>
      Yields res fun os => ∀ o ∈ os, o.Ints IntExpr.IntSound := by
  induction args with
  | nil => exact Act.Keeps.pure (Yields.ok fun o ho => absurd ho List.not_mem_nil)
  | cons a args ih =>
    have hone : Act.Keeps (Heap.IntsBut G) (h.operand a) fun res =>
        Yields res (Operand.Ints IntExpr.IntSound) := by
      have harg := h.argument_fresh a
      unfold Host.operand
      split
      · exact Act.Keeps.pure (Yields.error _)
      next o ho => exact Act.Keeps.pure (Yields.ok (harg _ ho o rfl).1)
      next v _ =>
        exact (Heap.reference_over (Heap.heapClosed_intsBut G) v).bind fun _ _ =>
          Act.Keeps.pure (Yields.ok trivial)
    refine hone.bind fun res hres => ?_
    cases res with
    | error e => exact Act.Keeps.pure (Yields.error _)
    | ok o =>
      refine ih.bind fun res' hres' => ?_
      cases res' with
      | error e => exact Act.Keeps.pure (Yields.error _)
      | ok os =>
        exact Act.Keeps.pure (Yields.ok (List.forall_mem_cons.mpr ⟨hres o rfl, hres' os rfl⟩))

/-- The operands of a start refer to what was handed out. -/
theorem operands_grows (h₀ : Heap) (h : Host) (args : List Trace.Arg) :
    Act.Grows Heap.Sound h₀ (operands h args) fun h' res =>
      Yields res fun os => ∀ o ∈ os, o.Issued h' := by
  induction args generalizing h₀ with
  | nil => exact Act.Grows.pure fun _ _ => Yields.ok fun o ho => absurd ho List.not_mem_nil
  | cons a args ih =>
    have hone : Act.Grows Heap.Sound h₀ (h.operand a) fun h' res =>
        Yields res (Operand.Issued h') := by
      have harg := h.argument_fresh a
      unfold Host.operand
      split
      · exact Act.Grows.pure fun _ _ => Yields.error _
      next o ho => exact Act.Grows.pure fun h' _ => Yields.ok ((harg _ ho o rfl).2 h')
      next v _ =>
        refine (Heap.reference_grows h₀ v).bind fun h' e _ _ he => ?_
        exact Act.Grows.pure fun h'' hle => Yields.ok (hle.issued_operand (o := .ref e) he)
    refine hone.bind fun h' res _ _ hres => ?_
    cases res with
    | error e => exact Act.Grows.pure fun _ _ => Yields.error _
    | ok o =>
      refine (ih h').bind fun h'' res' _ hle hres' => ?_
      cases res' with
      | error e => exact Act.Grows.pure fun _ _ => Yields.error _
      | ok os =>
        refine Act.Grows.pure fun h₃ hle' => Yields.ok (List.forall_mem_cons.mpr ⟨?_, ?_⟩)
        · exact (le_trans hle hle').issued_operand (hres o rfl)
        · exact fun o' ho' => hle'.issued_operand (hres' os rfl o' ho')

end Replay

namespace Machine

theorem prepareStack_some (os : List Operand) :
    prepareStack (os.map some) = (do
      modify fun m => { m with frames := [] }
      pushFrame (.placeholder "<bottom>" [])
      pushFrame (.placeholder "<main>" os.reverse)) := by
  have hargs : (os.map some).mapM id = some os := by
    simpa using List.mapM_pure (m := Option) (f := id) (l := os)
  rw [prepareStack, hargs]

theorem placeholder_each {P : Operand → Prop} {name : String} {s : Stack} (hs : ∀ o ∈ s, P o) :
    (Frame.placeholder name s).Each P :=
  ⟨hs, fun _ ho => absurd ho List.not_mem_nil⟩

theorem start_fits {H : Heap → Prop} {E : IntExpr → Prop} {os : List Operand}
    (hos : ∀ o ∈ os, o.Ints E) (method : MethodRef) (static : Bool) (size : Int) :
    Act.Keeps (Fits E H) (start method static size (os.map some)) fun _ => True := by
  refine Act.Keeps.bind (Q := fun _ => True) ?_ fun _ _ => enter_fits method static size
  rw [prepareStack_some]
  refine Act.Keeps.bind (Q := fun _ => True) (Act.Keeps.modify fun m hm => ?_) fun _ _ => ?_
  · exact ⟨hm.heap, fun f hf => absurd hf List.not_mem_nil⟩
  have hbottom : (Frame.placeholder "<bottom>" []).Each (Operand.Ints E) :=
    placeholder_each fun _ ho => absurd ho List.not_mem_nil
  refine (pushFrame_fits hbottom).bind fun _ _ => ?_
  exact pushFrame_fits (placeholder_each fun o ho => hos o (List.mem_reverse.mp ho))

theorem start_grows {m₀ : Machine} {os : List Operand} (hos : ∀ o ∈ os, o.Issued m₀.heap)
    (method : MethodRef) (static : Bool) (size : Int) :
    Act.Grows Sound m₀ (start method static size (os.map some)) fun _ _ => True := by
  refine Act.Grows.andThen (Q := fun _ _ => True) ?_ fun _ _ _ => enter_grows method static size
  rw [prepareStack_some]
  refine Act.Grows.andThen (Q := fun _ _ => True) (Act.Grows.modify fun m hm _ => ?_)
    fun m₁ _ hle₁ => ?_
  · exact ⟨⟨hm.heap, fun f hf => absurd hf List.not_mem_nil⟩,
      le_of_heap_eq rfl (List.Subset.refl _)⟩
  have hbottom : (Frame.placeholder "<bottom>" []).Each (Operand.Issued m₁.heap) :=
    placeholder_each fun _ ho => absurd ho List.not_mem_nil
  refine (pushFrame_grows hbottom).andThen fun m₂ _ hle₂ => ?_
  refine pushFrame_grows (placeholder_each fun o ho => ?_)
  exact (le_trans hle₁ hle₂).1.issued_operand (hos o (List.mem_reverse.mp ho))

end Machine

/-- **A replay starts with ints in its int slots.** -/
theorem Replay.start_intsFit {t : Trace} {r : Replay} {log : List Event}
    (h : start t = (.ok r, log)) : r.machine.IntsFit [] := by
  unfold start at h
  split at h
  · cases h
  next host _ =>
    have hempty : Heap.IntsBut (Machine.Wide (Machine.new (some host.resolver)) []) {} :=
      fun l e hl => by cases l <;> cases hl
    obtain ⟨hheap, hos⟩ := operands_ints host t.args {} hempty
    obtain ⟨hsound, -, hissued⟩ := operands_grows {} host t.args {} Heap.sound_empty (le_refl _)
    split at h
    · cases h
    · cases h
    next os m hrun =>
      have hres : (operands host t.args {}).1 = .ok (.ok os) := congrArg Prod.fst hrun
      have hm : { Machine.new (some host.resolver) with heap := (operands host t.args {}).2 } = m :=
        congrArg Prod.snd hrun
      have hfits : m.Fits IntExpr.IntSound (Heap.IntsBut fun _ => False) := by
        subst hm
        refine ⟨hheap.mono ?_, fun f hf => absurd hf List.not_mem_nil⟩
        rintro l ⟨p, w, hmem, -⟩
        exact absurd hmem List.not_mem_nil
      have hissue : ∀ o ∈ os, o.Issued m.heap := by
        subst hm
        exact hissued _ hres os rfl
      have hm' : m.Sound := by
        subst hm
        exact ⟨hsound, fun f hf => absurd hf List.not_mem_nil⟩
      obtain ⟨hfits', -⟩ := Machine.start_fits (hos _ hres os rfl) t.method t.static t.maxLocals m
        hfits
      obtain ⟨hsound', -, -⟩ := Machine.start_grows hissue t.method t.static t.maxLocals m hm'
        (le_refl m)
      split at h
      · cases h
      next m' hrun' =>
        rw [hrun'] at hfits' hsound'
        cases h
        exact ⟨hsound', hfits'.heap.mono fun _ => False.elim, hfits'.frames⟩

theorem Replay.start_of_toOption {t : Trace} {r : Replay} (h : (start t).1.toOption = some r) :
    start t = (.ok r, (start t).2) := by
  refine Prod.ext ?_ rfl
  cases hres : (start t).1 with
  | error e =>
    rw [hres] at h
    cases h
  | ok r' =>
    rw [hres] at h
    cases h
    rfl

/-! ## 6. The range of ints -/

/-- **Int slots hold ints.**  After any lines of any trace, every operand of the width of ints has a
value of 32 bits, on all stacks and in all locals.  The lines may access every field and every
element at one width only, and the arrays of the host must not be longer than an int can count. -/
theorem Replay.int_slots_hold_ints {t : Trace} {r : Replay} {log : List Event}
    (hstart : start t = (.ok r, log)) (ls : List String) (hsingle : SingleWidth (r.accesses ls))
    (hshort : r.host.ShortArrays) :
    ∀ f ∈ (r.after ls).machine.frames, ∀ e : IntExpr,
      (.bv32 e ∈ f.stack ∨ some (.bv32 e) ∈ f.locals.slots) →
        -2 ^ 31 ≤ e.concrete.toInt ∧ e.concrete.toInt ≤ 2 ^ 31 - 1 := by
  intro f hf e he
  have hfit : (r.after ls).machine.IntsFit ([] ++ r.accesses ls) :=
    after_intsFit (start_intsFit hstart) hshort hsingle
  have heach := hfit.fits.frames f hf
  have hsound : e.IntSound := by
    rcases he with hstack | hlocal
    · exact heach.stack _ hstack
    · exact heach.locals _ hlocal
  exact ⟨hsound.isInt.1, Int.le_sub_one_of_lt hsound.isInt.2⟩

/-- The greatest int, a long that is no int, and an array of ints. -/
def greatestInt : Trace where
  method := ⟨"A", "f", "(IJ[I)V"⟩
  static := true
  maxLocals := 4
  args := [{ type := "I", name := "x", value := "2147483647" },
    { type := "J", name := "y", value := "2147483648" }, { type := "[I", ref := "a" }]
  arrays := [("a", { type := "[I", elems := ["7", "-8"] })]

/-- Stores the int and the long in fields, adds 1 to the int, fails to add longs, and takes the
length of the array. -/
def overflowing : List String :=
  ["ILOAD 0", "PUTSTATIC A f I", "LLOAD 1", "PUTSTATIC A g J", "GETSTATIC A f I 2147483647",
    "ICONST 1", "IADD", "DUP", "LADD", "ALOAD 3", "ARRAYLENGTH a"]

/-- The sum wraps around, and the long in the field beside the int is not mistaken for one. -/
theorem overflowing_in_range :
    ∃ r log, Replay.start greatestInt = (.ok r, log) ∧ SingleWidth (r.accesses overflowing) ∧
      r.host.ShortArrays ∧
      ∀ f ∈ (r.after overflowing).machine.frames, ∀ e : IntExpr,
        (.bv32 e ∈ f.stack ∨ some (.bv32 e) ∈ f.locals.slots) →
          -2 ^ 31 ≤ e.concrete.toInt ∧ e.concrete.toInt ≤ 2 ^ 31 - 1 := by
  have hrun : ((Replay.start greatestInt).1.toOption.map fun r =>
      (r.accesses overflowing, r.host.arrays)) =
        some ([(.static "A" "f", .bv32), (.static "A" "g", .bv64), (.static "A" "f", .bv32)],
          [⟨"a", "[I", [.int 7, .int (-8)]⟩]) := by
    decide +kernel
  obtain ⟨r, hr, hall⟩ := Option.map_eq_some_iff.mp hrun
  obtain ⟨haccesses, harrays⟩ := Prod.mk.inj hall
  have hstart := Replay.start_of_toOption hr
  have hsingle : SingleWidth (r.accesses overflowing) := by
    rw [haccesses]
    decide
  have hshort : r.host.ShortArrays := by
    rw [Host.ShortArrays, harrays]
    simp
  exact ⟨r, _, hstart, hsingle, hshort,
    Replay.int_slots_hold_ints hstart overflowing hsingle hshort⟩

end Concolic
