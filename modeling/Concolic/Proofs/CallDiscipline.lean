import Concolic.Proofs.TopFrame

/-
# Calls, returns and exceptions

A call takes its arguments off the caller's stack and puts a frame on top.  From then on, and until
the depth is back, nothing that happens reaches the caller or the frames beneath it: not the nested
calls, not the exceptions that are caught above it, not the instructions that fail.  So a return
finds the caller as the call left it, and adds its result to that stack and nothing else.

The argument is one fact about an instruction and one induction.  An instruction takes frames off
and puts frames on, and either it takes off at most one or it leaves at most one in their place
(`Instruction.exec_rebuilds`).  If the depth does not fall to that of the caller, then the caller
and all below it are among the frames that were not touched (`Machine.Above.exec`), hence the same
holds of a run (`Instruction.run_above`).

An exception leaves its handler with one operand if the machine can refer to the exception.  There
are values without identity, which no reference can stand for; if one is thrown, then the
instruction fails when the frames are gone and the handler's stack is cleared already.
-/
namespace Concolic

/-! ## 1. Parts that answer -/

/-- The stack `s'` is `s` without the arguments of the method and, unless it is static, without its
receiver beneath them. -/
def MethodRef.Takes (method : MethodRef) (static : Bool) (s s' : Stack) : Prop :=
  ∃ (widths : List (Option Width)) (result : Option Width) (args receiver : List Operand),
    Descriptor.method (Text.bytes method.desc) = .ok (widths, result) ∧
    args.map (fun o => some o.width) = widths ∧
    receiver.map Operand.width = (if static then [] else [.ref]) ∧
    s = args.reverse ++ receiver ++ s'

namespace Machine

variable {m m' : Machine}

theorem topFrame_ok {f : Frame} (h : topFrame m = (.ok f, m')) :
    m' = m ∧ ∃ rest, m.frames = f :: rest := by
  obtain ⟨frames, prepared, heap, collector, log, classes⟩ := m
  cases frames with
  | nil => cases h
  | cons f' rest =>
    cases h
    exact ⟨rfl, rest, rfl⟩

/-- An action on the stack answers only if there is a frame, and changes only its stack. -/
theorem onStack_frames {a : Act Stack α} {x : α} (h : onStack a m = (.ok x, m')) :
    ∃ f s rest, m.frames = f :: rest ∧ a f.stack = (.ok x, s) ∧
      m'.frames = { f with stack := s } :: rest := by
  obtain ⟨frames, prepared, heap, collector, log, classes⟩ := m
  cases frames with
  | nil => cases h
  | cons f rest =>
    obtain ⟨hres, rfl⟩ := Prod.mk.inj h
    exact ⟨f, _, rest, rfl, Prod.ext hres rfl, rfl⟩

/-- The arguments are popped from the last. -/
theorem popArgs_ok {desc : String} {ws : List (Option Width)} {s s' : Stack} {os : List Operand}
    (h : popArgs desc ws s = (.ok os, s')) :
    os.reverse.map (fun o => some o.width) = ws ∧ s = os.reverse ++ s' := by
  induction ws generalizing s os with
  | nil =>
    cases h
    exact ⟨rfl, rfl⟩
  | cons w ws ih =>
    obtain ⟨o, s₁, hpop, h⟩ := Act.bind_ok h
    obtain ⟨hw, h⟩ := Act.ensure_bind_ok h
    obtain ⟨os', s₂, hrest, h⟩ := Act.bind_ok h
    cases h
    obtain ⟨hws, hs⟩ := ih hrest
    rw [List.reverse_append, Stack.pop_ok hpop, hs]
    exact ⟨congrArg₂ List.cons (of_decide_eq_true hw) hws, rfl⟩

theorem popArguments_ok {desc : String} {args : List Operand}
    (h : popArguments desc m = (.ok args, m')) :
    ∃ f s rest result, m.frames = f :: rest ∧ m'.frames = { f with stack := s } :: rest ∧
      Descriptor.method (Text.bytes desc) = .ok (args.map (fun o => some o.width), result) ∧
      f.stack = args.reverse ++ s := by
  obtain ⟨⟨widths, result⟩, m₁, hwidths, hrest⟩ := Act.bind_ok h
  obtain ⟨hdesc, rfl⟩ := Act.ofExcept_ok hwidths
  obtain ⟨f, s, rest, hf, hpop, hf'⟩ := onStack_frames hrest
  obtain ⟨hargs, hs⟩ := popArgs_ok hpop
  rw [List.map_reverse, List.reverse_inj] at hargs
  exact ⟨f, s, rest, result, hf, hf', hargs ▸ hdesc, hs⟩

theorem fill_ok {f f' : Frame} {a : Act Locals Unit} (h : fill f a m = (.ok f', m')) : m' = m := by
  rcases ha : a f.locals with ⟨_ | _, t⟩
  · rw [fill, ha] at h
    cases h
  · rw [fill, ha] at h
    cases h
    rfl

theorem handOver_ok {method : MethodRef} {static : Bool} {size : Int} {callee : Frame}
    (h : handOver method static size m = (.ok callee, m')) :
    ∃ caller below s, m.frames = caller :: below ∧ method.Takes static caller.stack s ∧
      m'.frames = { caller with stack := s } :: below := by
  obtain ⟨_, m₀, hdiscard, hcall⟩ := Act.bind_ok h
  obtain ⟨_, _, htop, hpure⟩ := Act.bind_ok (a := topFrame) hdiscard
  cases hpure
  obtain ⟨rfl, -⟩ := topFrame_ok htop
  obtain ⟨args, m₁, hargs, hfill⟩ := Act.bind_ok hcall
  obtain ⟨caller, s, below, result, hm, hm₁, hdesc, hstack⟩ := popArguments_ok hargs
  cases hf : Frame.enter method size with
  | error e =>
    rw [hf] at hfill
    cases hfill
  | ok f =>
    rw [hf] at hfill
    cases static with
    | true =>
      obtain rfl := fill_ok hfill
      refine ⟨caller, below, s, hm, ⟨_, result, args, [], hdesc, rfl, rfl, ?_⟩, hm₁⟩
      rw [hstack, List.append_nil]
    | false =>
      obtain ⟨x, m₂, hpop, hfill⟩ := Act.bind_ok hfill
      obtain ⟨f', m₃, hreceiver, hfill⟩ := Act.bind_ok hfill
      obtain rfl := fill_ok hfill
      obtain rfl := fill_ok hreceiver
      obtain ⟨caller', s', below', hm₁', hpop, hm₂⟩ := onStack_frames hpop
      obtain ⟨rfl, rfl⟩ := List.cons.inj (hm₁.symm.trans hm₁')
      have hs : s = .ref x :: s' := Stack.popRef_ok hpop
      refine ⟨caller, below, s', hm, ⟨_, result, args, [.ref x], hdesc, rfl, rfl, ?_⟩, hm₂⟩
      rw [hstack, hs, List.append_assoc]
      rfl

theorem popFrame_apply {f : Frame} {rest : List Frame} (hm : m.frames = f :: rest) :
    popFrame m = (.ok f, { m with frames := rest, log := .pop f.method :: m.log }) := by
  rw [popFrame, Act.get_bind_apply, hm]
  rfl

end Machine

/-! ## 2. What an instruction does to the frames -/

/-- The second list of frames comes from the first by taking some off and putting some on.  Only one
is taken off, or at most one is put on. -/
def Rebuilds (before after : List Frame) : Prop :=
  ∃ off on rest, before = off ++ rest ∧ after = on ++ rest ∧ (off.length = 1 ∨ on.length ≤ 1)

namespace Machine

variable {m m' : Machine} {f : Frame} {rest : List Frame}

theorem enter_rebuilds (method : MethodRef) (static : Bool) (size : Int)
    (hm : m.frames = f :: rest) :
    Rebuilds m.frames (enter method static size m).2.frames := by
  obtain ⟨f', hf'⟩ := (handOver_over method static size m (over_true m)).1.cons hm
  rw [enter_eq, Act.bind_apply]
  rcases hcall : handOver method static size m with ⟨_ | callee, m₁⟩
  · rw [hcall] at hf'
    exact ⟨[f], [f'], rest, hm, hf', Or.inl rfl⟩
  · rw [hcall] at hf'
    have hpush : (pushFrame callee m₁).2.frames = [callee, f'] ++ rest :=
      congrArg (List.cons callee) hf'
    exact ⟨[f], _, rest, hm, hpush, Or.inl rfl⟩

theorem leave_apply (hm : m.frames = f :: rest) :
    leave m = (.ok (), { m with frames := rest, log := .pop f.method :: m.log }) := by
  change (popFrame >>= fun _ => pure ()) m = _
  rw [Act.bind_apply, popFrame_apply hm]
  rfl

/-- A return with a result takes a frame off.  It answers only if the result is on the stack of that
frame and has the right width, and if there is a caller to push it for. -/
theorem leaveWith_cases (w : Width) (hm : m.frames = f :: rest) :
    ((leaveWith w m).1 ≠ .ok () ∧ (leaveWith w m).2.frames = rest) ∨
    ∃ o t g rest', f.stack = o :: t ∧ o.width = w ∧ rest = g :: rest' ∧
      (leaveWith w m).2.frames = { g with stack := o :: g.stack } :: rest' := by
  rw [leaveWith, Act.bind_apply, popFrame_apply hm]
  dsimp only
  cases hstack : f.stack with
  | nil => exact Or.inl ⟨nofun, rfl⟩
  | cons o t =>
    dsimp only
    by_cases hw : o.width = w
    · rw [decide_eq_true hw]
      cases rest with
      | nil => exact Or.inl ⟨nofun, rfl⟩
      | cons g rest' => exact Or.inr ⟨o, t, g, rest', rfl, hw, rfl, rfl⟩
    · rw [decide_eq_false hw]
      exact Or.inl ⟨nofun, rfl⟩

/-- Frames are popped until the wanted ones are left. -/
theorem unwind_apply {off base : List Frame} {fuel : Nat} (hm : m.frames = off ++ base)
    (hfuel : off.length ≤ fuel) :
    ∃ log, unwind base.length fuel m = (.ok (), { m with frames := base, log }) := by
  have hdone : ∀ {m : Machine}, m.frames = base → m = { m with frames := base, log := m.log } := by
    rintro m rfl
    rfl
  induction fuel generalizing off m with
  | zero =>
    obtain rfl : off = [] := List.eq_nil_of_length_eq_zero (Nat.le_zero.mp hfuel)
    exact ⟨m.log, congrArg (Prod.mk _) (hdone hm)⟩
  | succ fuel ih =>
    rw [unwind, Act.get_bind_apply]
    cases off with
    | nil =>
      have hlast : ¬ base.length < m.depth := by simp [depth, hm]
      rw [if_neg hlast]
      exact ⟨m.log, congrArg (Prod.mk _) (hdone hm)⟩
    | cons f off =>
      have hmore : base.length < m.depth := by
        rw [depth, hm, List.length_append, List.length_cons]
        omega
      rw [if_pos hmore]
      change ∃ log, (leave >>= fun _ => unwind base.length fuel) m = _
      rw [Act.bind_apply, leave_apply hm]
      exact ih rfl (Nat.le_of_succ_le_succ hfuel)

/-- An exception first takes off the frames above the handler and clears its stack. -/
theorem throwTo_apply {d : Int} (hpos : 0 < d) (hle : d ≤ m.depth) (exception : Value) :
    ∃ off handler lower log, m.frames = off ++ handler :: lower ∧ (lower.length + 1 : Int) = d ∧
      throwTo d exception m =
        (onHeap (Heap.reference exception) >>= fun x => push (.ref x))
          { m with frames := { handler with stack := [] } :: lower, log } := by
  obtain ⟨n, rfl⟩ : ∃ n : Nat, d = n + 1 := ⟨(d - 1).toNat, by omega⟩
  have hdepth : n + 1 ≤ m.frames.length := by
    rw [depth] at hle
    omega
  have hsplit := (List.take_append_drop (m.frames.length - (n + 1)) m.frames).symm
  have hlength : (m.frames.drop (m.frames.length - (n + 1))).length = n + 1 := by
    rw [List.length_drop]
    omega
  obtain ⟨handler, lower, hbase⟩ := List.exists_cons_of_length_eq_add_one hlength
  rw [hbase] at hsplit hlength
  have hfuel : (m.frames.take (m.frames.length - (n + 1))).length ≤ m.depth :=
    List.length_take_le' _ _
  obtain ⟨log, hunwind⟩ := unwind_apply hsplit hfuel
  refine ⟨_, handler, lower, log, hsplit, ?_, ?_⟩
  · rw [List.length_cons] at hlength
    omega
  · have htoNat : (n + 1 : Int).toNat = (handler :: lower).length := by
      rw [hlength]
      rfl
    have hbounds :
        (decide (0 < (n + 1 : Int)) && decide ((n + 1 : Int).toNat ≤ m.depth)) = true := by
      rw [decide_eq_true hpos, htoNat, hlength]
      exact decide_eq_true hdepth
    rw [throwTo, Act.get_bind_apply, hbounds, htoNat]
    change (unwind _ _ >>= _) m = _
    rw [Act.bind_apply, hunwind]
    rfl

theorem throwTo_rebuilds (d : Int) (exception : Value) (hm : m.frames = f :: rest) :
    Rebuilds m.frames (throwTo d exception m).2.frames := by
  by_cases hd : 0 < d ∧ d ≤ m.depth
  · obtain ⟨off, handler, lower, log, hframes, -, hthrow⟩ := throwTo_apply hd.1 hd.2 exception
    have hclear := over_true { m with frames := { handler with stack := [] } :: lower, log }
    obtain ⟨hrefer, -⟩ := pushReference_over (heapClosed_true _) exception _ hclear
    obtain ⟨g, hg⟩ := hrefer.cons rfl
    rw [← hthrow] at hg
    refine ⟨off ++ [handler], [g], lower, ?_, hg, Or.inr (Nat.le_refl 1)⟩
    rw [hframes, List.append_assoc]
    rfl
  · have hrefused : (decide (0 < d) && decide (d.toNat ≤ m.depth)) = false := by
      rw [Bool.and_eq_false_iff, decide_eq_false_iff_not, decide_eq_false_iff_not]
      omega
    rw [throwTo, Act.get_bind_apply, hrefused]
    exact ⟨[f], [f], rest, hm, hm, Or.inl rfl⟩

end Machine

namespace Heap

variable {h : Heap} {v : Value}

/-- The expression refers to the value. -/
def Refers (h : Heap) (v : Value) : RefExpr → Prop
  | .null => v = .null
  | .object r => v ≠ .null ∧ h.Stands r v

/-- A value that has an identity is referred to, by the reference it has if it has one. -/
theorem reference_of_comparable (h : Heap) (hv : v.isComparable = true) :
    ∃ x h', reference v h = (.ok x, h') ∧ h'.Refers v x ∧
      ∀ r, v ≠ .null → h.object? v = some r → x = .object r := by
  by_cases hnull : v = .null
  · subst hnull
    exact ⟨_, _, reference_null h, rfl, fun r hne => absurd rfl hne⟩
  · have hstands := fun r => stands_of_reference (v := v) (h := h) (r := r)
    cases ho : h.object? v with
    | some r =>
      rw [reference_of_object? hnull ho] at hstands ⊢
      refine ⟨_, _, rfl, ⟨hnull, hstands r rfl⟩, fun r' _ hr' => ?_⟩
      cases hr'
      rfl
    | none =>
      rw [reference_of_none hnull ho, if_pos hv] at hstands ⊢
      exact ⟨_, _, rfl, ⟨hnull, hstands _ rfl⟩, nofun⟩

/-- No reference stands for a value without identity. -/
theorem reference_of_not_comparable (h : Heap) (hv : v.isComparable = false) :
    reference v h = (.error (.violation (.notComparable v)), h.issue) := by
  have hseq : v = .sequence := by
    cases v with
    | sequence => rfl
    | _ => cases hv
  subst hseq
  have hnone : h.object? .sequence = none := by
    rw [object?, Table.get?, Option.map_eq_none_iff, List.find?_eq_none]
    intro entry _ hfound
    cases hfound
  rw [reference_of_none (by decide) hnone]
  rfl

end Heap

namespace Instruction

theorem safely_state (a : Act Machine Unit) (m : Machine) : (safely a m).2 = (a m).2 := by
  rw [safely, Act.bind_apply]
  rcases a m with ⟨_ | _, m'⟩ <;> rfl

theorem safely_ok {a : Act Machine Unit} {m m' : Machine} {b : Bool}
    (h : safely a m = (.ok b, m')) : a m = (.ok (), m') := by
  obtain ⟨_, _, ha, hpure⟩ := Act.bind_ok h
  cases hpure
  exact ha

/-- **An instruction takes frames off and puts frames on, but only one of both at length.** -/
theorem exec_rebuilds (i : Instruction) {m : Machine} {f : Frame} {rest : List Frame}
    (hm : m.frames = f :: rest) : Rebuilds m.frames (i.exec m).2.frames := by
  cases hmove : i.movesFrames with
  | false =>
    obtain ⟨g, hg⟩ := exec_top hmove hm
    exact ⟨[f], [g], rest, hm, hg, Or.inl rfl⟩
  | true =>
    cases i with
    | enter method static size =>
      rw [exec, safely_state]
      exact Machine.enter_rebuilds method static size hm
    | leave =>
      rw [exec, safely_state, Machine.leave_apply hm]
      exact ⟨[f], [], rest, hm, rfl, Or.inl rfl⟩
    | leaveWith w =>
      rw [exec, safely_state]
      rcases Machine.leaveWith_cases w hm with ⟨-, hrest⟩ | ⟨o, t, g, rest', -, -, rfl, hcaller⟩
      · exact ⟨[f], [], rest, hm, hrest, Or.inl rfl⟩
      · exact ⟨[f, g], [_], rest', hm, hcaller, Or.inr (Nat.le_refl 1)⟩
    | throwTo d exception =>
      rw [exec, safely_state]
      exact Machine.throwTo_rebuilds d exception hm
    | _ => cases hmove

end Instruction

/-! ## 3. Runs above a caller -/

/-- There is a frame above those of `base`, which are the lowest ones. -/
def Machine.Above (base : List Frame) (m : Machine) : Prop :=
  ∃ upper, upper ≠ [] ∧ m.frames = upper ++ base

/-- **An instruction after which there is still a frame above the caller has not touched it.** -/
theorem Machine.Above.exec {base : List Frame} {m : Machine} (h : m.Above base)
    {i : Instruction} (hdepth : base.length < (i.exec m).2.depth) : (i.exec m).2.Above base := by
  obtain ⟨upper, hupper, hm⟩ := h
  have hpos := List.length_pos_iff.mpr hupper
  obtain ⟨f, rest, hcons⟩ := List.exists_cons_of_ne_nil hupper
  have htop : m.frames = f :: (rest ++ base) := by
    rw [hm, hcons]
    rfl
  obtain ⟨off, on, kept, hbefore, hafter, hlen⟩ := i.exec_rebuilds htop
  have hsum : off.length + kept.length = upper.length + base.length := by
    rw [← List.length_append, ← List.length_append, ← hbefore, hm]
  rw [Machine.depth, hafter, List.length_append] at hdepth
  -- what is kept is as long as the base, so the base is a part of it
  have hle : base.length ≤ kept.length := by omega
  have hsuffix : base <:+ kept :=
    List.suffix_of_suffix_length_le ⟨upper, hm.symm⟩ ⟨off, hbefore.symm⟩ hle
  obtain ⟨mid, rfl⟩ := hsuffix
  rw [List.length_append] at hdepth
  refine ⟨on ++ mid, fun hnil => ?_, by rw [hafter, List.append_assoc]⟩
  have hzero := congrArg List.length hnil
  rw [List.length_append, List.length_nil] at hzero
  omega

namespace Instruction

/-- The depth is above `n` before, between and after the instructions. -/
def StaysAbove (n : Nat) : List Instruction → Machine → Prop
  | [], m => n < m.depth
  | i :: is, m => n < m.depth ∧ StaysAbove n is (i.exec m).2

instance (n : Nat) : ∀ is m, Decidable (StaysAbove n is m)
  | [], m => inferInstanceAs (Decidable (n < m.depth))
  | i :: is, m =>
    have : Decidable (StaysAbove n is (i.exec m).2) := instDecidableStaysAbove n is (i.exec m).2
    inferInstanceAs (Decidable (n < m.depth ∧ StaysAbove n is (i.exec m).2))

theorem StaysAbove.depth_lt {n : Nat} {is : List Instruction} {m : Machine}
    (h : StaysAbove n is m) : n < m.depth := by
  cases is with
  | nil => exact h
  | cons => exact h.1

/-- **A run that stays above the caller does not touch it.** -/
theorem run_above {base : List Frame} {is : List Instruction} {m : Machine} (hm : m.Above base)
    (h : StaysAbove base.length is m) : (run is m).2.Above base := by
  induction is generalizing m with
  | nil => exact hm
  | cons i is ih => exact ih (hm.exec h.2.depth_lt) h.2

end Instruction

/-! ## 4. Calls -/

/-- The caller waits beneath frames of others.  A return that brings the depth back to it adds the
operand that it returns to the stack of the caller, or nothing. -/
structure Machine.Waits (caller : Frame) (below : List Frame) (m : Machine) : Prop where
  above : m.Above (caller :: below)
  returned : ∀ w m', (Instruction.leaveWith w).exec m = (.ok false, m') →
    m'.depth = below.length + 1 →
    ∃ callee o t, m.frames = callee :: caller :: below ∧ callee.stack = o :: t ∧ o.width = w ∧
      m'.frames = { caller with stack := o :: caller.stack } :: below
  left : ∀ m', Instruction.leave.exec m = (.ok false, m') → m'.depth = below.length + 1 →
    m'.frames = caller :: below

/-- If one frame less is as deep as the caller, then the frame above the caller is the only one. -/
theorem Machine.Above.single {base rest : List Frame} {f : Frame} {m : Machine} (h : m.Above base)
    (hm : m.frames = f :: rest) (hlen : rest.length = base.length) : rest = base := by
  obtain ⟨upper, hupper, hframes⟩ := h
  have hsuffix : base <:+ rest := by
    refine List.suffix_of_suffix_length_le ⟨upper, hframes.symm⟩ ⟨[f], hm.symm⟩ ?_
    exact Nat.le_of_eq hlen.symm
  exact (hsuffix.eq_of_length hlen.symm).symm

theorem Machine.Above.waits {caller : Frame} {below : List Frame} {m : Machine}
    (h : m.Above (caller :: below)) : m.Waits caller below := by
  obtain ⟨f, rest, hm⟩ : ∃ f rest, m.frames = f :: rest := by
    obtain ⟨upper, hupper, hm⟩ := h
    obtain ⟨f, upper', rfl⟩ := List.exists_cons_of_ne_nil hupper
    exact ⟨f, _, hm⟩
  refine ⟨h, fun w m' hret hdepth => ?_, fun m' hret hdepth => ?_⟩
  · have hret := Instruction.safely_ok hret
    rcases Machine.leaveWith_cases w hm with ⟨hfail, -⟩ | ⟨o, t, g, rest', hstack, hw, rfl, hcaller⟩
    · rw [hret] at hfail
      exact absurd rfl hfail
    · rw [hret] at hcaller
      have hlen : (g :: rest').length = (caller :: below).length := by
        rw [Machine.depth, hcaller] at hdepth
        exact hdepth
      obtain ⟨rfl, rfl⟩ := List.cons.inj (h.single hm hlen)
      exact ⟨f, o, t, hm, hstack, hw, hcaller⟩
  · have hret := Instruction.safely_ok hret
    rw [Machine.leave_apply hm] at hret
    cases hret
    exact h.single hm hdepth

/-- What an exception leaves: the frames beneath the handler, and the handler with the reference of
the exception as its only operand.  If nothing can refer to the exception, then the instruction
fails and leaves the handler without operand. -/
structure Machine.Catches (m : Machine) (d : Int) (exception : Value) (handler : Frame)
    (lower : List Frame) : Prop where
  frames : ∃ off, m.frames = off ++ handler :: lower
  length : (lower.length + 1 : Int) = d
  caught : exception.isComparable = true → ∃ x m',
    (Instruction.throwTo d exception).exec m = (.ok false, m') ∧
    m'.frames = { handler with stack := [.ref x] } :: lower ∧ m'.heap.Refers exception x ∧
    ∀ r, exception ≠ .null → m.heap.object? exception = some r → x = .object r
  refused : exception.isComparable = false → ∃ m',
    (Instruction.throwTo d exception).exec m =
      (.error (.violation (.notComparable exception)), m') ∧
    m'.frames = { handler with stack := [] } :: lower

theorem Machine.exists_catches {m : Machine} {d : Int} (hpos : 0 < d) (hle : d ≤ m.depth)
    (exception : Value) : ∃ handler lower, m.Catches d exception handler lower := by
  obtain ⟨off, handler, lower, log, hframes, hlen, hthrow⟩ := throwTo_apply hpos hle exception
  refine ⟨handler, lower, ⟨off, hframes⟩, hlen, fun hc => ?_, fun hc => ?_⟩
  · obtain ⟨x, h', href, hrefers, hknown⟩ := Heap.reference_of_comparable m.heap hc
    refine ⟨x, { m with frames := { handler with stack := [.ref x] } :: lower, heap := h', log },
      ?_, rfl, hrefers, hknown⟩
    rw [Instruction.exec, Instruction.safely, Act.bind_apply, hthrow, Act.bind_apply, onHeap,
      Act.zoom, href]
    rfl
  · refine ⟨{ m with frames := { handler with stack := [] } :: lower, heap := m.heap.issue, log },
      ?_, rfl⟩
    rw [Instruction.exec, Instruction.safely, Act.bind_apply, hthrow, Act.bind_apply, onHeap,
      Act.zoom, Heap.reference_of_not_comparable m.heap hc]

/-- **Calls and exceptions leave callers as they are.**  After a call, and for as long as the depth
stays above that of the caller, the frames beneath the caller are as before the call and the caller
has lost its arguments only; a return adds what it returns.  An exception leaves the handler with
its locals, and all below it as it was; the handler's only operand is the reference of the
exception if it has one. -/
theorem callers_undisturbed :
    (∀ (m m₁ : Machine) (method : MethodRef) (static : Bool) (size : Int),
      (Instruction.enter method static size).exec m = (.ok false, m₁) →
      ∃ caller below s, m.frames = caller :: below ∧ method.Takes static caller.stack s ∧
        ∀ is, Instruction.StaysAbove m.depth is m₁ →
          (Instruction.run is m₁).2.Waits { caller with stack := s } below) ∧
    ∀ (m : Machine) (d : Int) (exception : Value), 0 < d → d ≤ m.depth →
      ∃ handler lower, m.Catches d exception handler lower := by
  refine ⟨fun m m₁ method static size hcall => ?_,
    fun m d exception hpos hle => Machine.exists_catches hpos hle exception⟩
  have hcall := Instruction.safely_ok hcall
  rw [Machine.enter_eq] at hcall
  obtain ⟨callee, m₀, hhand, hpush⟩ := Act.bind_ok hcall
  obtain ⟨caller, below, s, hm, htakes, hm₀⟩ := Machine.handOver_ok hhand
  cases hpush
  have habove :
      Machine.Above ({ caller with stack := s } :: below) (Machine.pushFrame callee m₀).2 :=
    ⟨[callee], nofun, congrArg (List.cons callee) hm₀⟩
  refine ⟨caller, below, s, hm, htakes, fun is his => ?_⟩
  rw [Machine.depth, hm] at his
  exact (Instruction.run_above habove his).waits

namespace Machine

/-- The frame of a method with an int argument above its receiver, and an operand beneath both. -/
def calling : Frame :=
  ⟨⟨"A", "main", "()V"⟩, [.bv32 (.const 7), .ref .null, .bv64 (.const 9)], ⟨[none]⟩, false⟩

/-- A machine about to call. -/
def beforeCall : Machine :=
  { recording none with frames := [calling, .placeholder "<bottom>" []] }

/-- A call of an instance method that takes and returns an int. -/
def callWithInt : Instruction := .enter ⟨"A", "f", "(I)I"⟩ false 2

/-- A nested call, a return that fails since nothing was pushed, a nested call that an exception
ends, and an int for the return. -/
def nestedCalls : List Instruction :=
  [.load .bv32 1, .enter ⟨"B", "g", "()I"⟩ true 0, .leaveWith .bv32,
    .enter ⟨"B", "h", "()V"⟩ true 0, .pushNull, .throwTo 3 (.object "e" "E"), .intNegate,
    .pushInt 6]

/-- The caller waits through nested calls, a failed return and an exception. -/
theorem nestedCalls_undisturbed :
    (callWithInt.exec beforeCall).1 = .ok false ∧
    Instruction.StaysAbove 2 nestedCalls (callWithInt.exec beforeCall).2 ∧
    (∃ s, MethodRef.Takes ⟨"A", "f", "(I)I"⟩ false calling.stack s ∧
      (Instruction.run nestedCalls (callWithInt.exec beforeCall).2).2.Waits
        { calling with stack := s } [.placeholder "<bottom>" []]) ∧
    ∃ handler lower, beforeCall.Catches 1 (.object "e" "E") handler lower := by
  have hcall : (callWithInt.exec beforeCall).1 = .ok false := by rfl
  have habove : Instruction.StaysAbove 2 nestedCalls (callWithInt.exec beforeCall).2 := by
    decide +kernel
  refine ⟨hcall, habove, ?_, callers_undisturbed.2 _ _ _ (by decide) (by decide)⟩
  obtain ⟨caller, below, s, hm, htakes, hruns⟩ :=
    callers_undisturbed.1 beforeCall _ _ _ _ (Prod.ext hcall rfl)
  cases hm
  exact ⟨s, htakes, hruns nestedCalls habove⟩

end Machine

end Concolic
