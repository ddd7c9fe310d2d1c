import Concolic.Proofs.Descriptors
import Concolic.Proofs.HostLoads
import Concolic.Proofs.RefusedStores

/-
# Arguments

A call passes operands: the receiver, unless the method is static, and the arguments.  They are
popped from the last and laid out from the first, and a long or a double takes two locals.

* In a row the operands do not meet, so each lasts (`LocalStore.lasts_layout`) and is found at the
  slot that the widths before it add up to.
* A call of a method that is not watched takes the same operands off the stack, since both kinds of
  call begin with the same action (`handOver_eq`, `callUnwatched_eq`).

The descriptor is one of the grammar (`Descriptor.MethodType`), and both kinds of call are shown to
succeed in exactly the cases where they should (`call_passes_arguments`).  There is one more case
than one would think of: a frame can ask for more locals than any table can have.
-/
namespace Concolic

/-! ## 1. Operands in a row -/

/-- How many words operands of these widths take. -/
def Width.span : List Width → Nat
  | [] => 0
  | w :: ws => w.category + span ws

namespace LocalStore

/-- Stores of operands one after the other, the first into slot `i`. -/
def layout (i : Nat) : List Operand → List LocalStore
  | [] => []
  | o :: os => ⟨i, o⟩ :: layout (i + o.category) os

theorem le_slot_of_mem_layout {w : LocalStore} {i : Nat} {os : List Operand}
    (h : w ∈ layout i os) : (i : Int) ≤ w.slot := by
  induction os generalizing i with
  | nil => cases h
  | cons o os ih =>
    rcases List.mem_cons.mp h with rfl | h
    · exact Int.le_refl _
    · have := ih h
      omega

/-- What lasts of a first store and the others: its operand, if none of them meets it, and what
lasts of them. -/
theorem lasts_cons (w : LocalStore) (ws : List LocalStore) (i : Int) (o : Operand) :
    Lasts (w :: ws) i o ↔
      (w = ⟨i, o⟩ ∧ ∀ w' ∈ ws, ∀ j, i ≤ j → j < i + o.category → ¬ w'.Writes j) ∨
        Lasts ws i o := by
  constructor
  · rintro ⟨_ | ⟨w', earlier⟩, later, hws, hlater⟩
    · obtain ⟨rfl, rfl⟩ := List.cons.inj hws
      exact Or.inl ⟨rfl, hlater⟩
    · obtain ⟨rfl, rfl⟩ := List.cons.inj hws
      exact Or.inr ⟨earlier, later, rfl, hlater⟩
  · rintro (⟨rfl, hlater⟩ | ⟨earlier, later, rfl, hlater⟩)
    · exact ⟨[], ws, rfl, hlater⟩
    · exact ⟨w :: earlier, later, rfl, hlater⟩

/-- **In a row all operands last**, each at the slot that the words before it add up to. -/
theorem lasts_layout (i : Nat) (os : List Operand) (k : Int) (o : Operand) :
    Lasts (layout i os) k o ↔
      ∃ j, os[j]? = some o ∧ k = i + Width.span ((os.map Operand.width).take j) := by
  induction os generalizing i with
  | nil =>
    constructor
    · rintro ⟨_, _, h, -⟩
      exact absurd h (by simp [layout])
    · rintro ⟨j, h, -⟩
      cases h
  | cons p os ih =>
    have havoids : ∀ w ∈ layout (i + p.category) os, ∀ j, (i : Int) ≤ j → j < i + p.category →
        ¬ w.Writes j := by
      intro w hw j _ hj hwrites
      have := le_slot_of_mem_layout hw
      have := hwrites.1
      omega
    rw [layout, lasts_cons, ← Nat.or_exists_add_one, ih]
    refine or_congr ?_ (exists_congr fun j => and_congr Iff.rfl ?_)
    · constructor
      · rintro ⟨h, -⟩
        cases h
        exact ⟨rfl, by simp [Width.span]⟩
      · rintro ⟨h, hk⟩
        cases h
        obtain rfl : k = i := by simpa [Width.span] using hk
        exact ⟨rfl, havoids⟩
    · rw [List.map_cons, List.take_succ_cons, Width.span, Operand.category]
      omega

end LocalStore

namespace Locals

open LocalStore

/-- Whether stores succeed depends on the size of the table only. -/
theorem writeAll_ok_iff (ws : List LocalStore) (t : Locals) :
    (∃ t', writeAll ws t = (.ok (), t')) ↔
      ∀ w ∈ ws, 0 ≤ w.slot ∧ w.slot.toNat + w.operand.category ≤ t.size := by
  induction ws generalizing t with
  | nil => simp [writeAll]
  | cons w ws ih =>
    rw [List.forall_mem_cons, writeAll]
    rcases write_apply t w.slot w.operand with ⟨h0, hroom, hok⟩ | ⟨hout, e, t', herr⟩
    · have hsize : (t.stored w.slot.toNat w.operand).size = t.size := length_stored t _ _
      simp only [Act.bind_apply, hok, ih, hsize]
      exact ⟨fun h => ⟨⟨h0, hroom⟩, h⟩, fun h => h.2⟩
    · simp only [Act.bind_apply, herr]
      constructor
      · rintro ⟨_, h⟩
        cases h
      · exact fun h => absurd h.1 hout

theorem size_writeAll {ws : List LocalStore} {t t' : Locals}
    (h : writeAll ws t = (.ok (), t')) : t'.size = t.size := by
  induction ws generalizing t with
  | nil =>
    cases h
    rfl
  | cons w ws ih =>
    obtain ⟨⟨⟩, t₁, hwrite, hrest⟩ := Act.bind_ok h
    rw [ih hrest]
    have hsize := length_exec t ⟨w.slot, some w.operand⟩
    rwa [StoreCall.exec, write?, hwrite] at hsize

theorem layout_fits_iff {i n : Nat} (os : List Operand) (hi : i ≤ n) :
    (∀ w ∈ layout i os, 0 ≤ w.slot ∧ w.slot.toNat + w.operand.category ≤ n) ↔
      i + Width.span (os.map Operand.width) ≤ n := by
  induction os generalizing i with
  | nil => simpa [layout, Width.span] using hi
  | cons o os ih =>
    rw [layout, List.forall_mem_cons, List.map_cons, Width.span, ← Nat.add_assoc]
    by_cases hroom : i + o.category ≤ n
    · rw [ih hroom]
      exact ⟨fun h => h.2, fun h => ⟨⟨Int.natCast_nonneg i, hroom⟩, h⟩⟩
    · constructor
      · intro h
        exact absurd h.1.2 hroom
      · intro h
        have : i + o.category + _ ≤ n := h
        omega

end Locals

/-! ## 2. What is passed -/

namespace Descriptor.MethodType

/-- The widths of what is passed to a method: its receiver, unless it is static, and its
arguments. -/
def widths (t : MethodType) (static : Bool) : List Width :=
  (if static then [] else [.ref]) ++ t.args.map FieldType.width

/-- On top of the stack are the operands to pass to a method, the last one topmost; beneath them is
`rest`. -/
structure Passes (t : MethodType) (static : Bool) (s : Stack) (os : List Operand) (rest : Stack) :
    Prop where
  stack : s = os.reverse ++ rest
  widths : os.map Operand.width = t.widths static

variable {t : MethodType} {static : Bool} {s : Stack} {os os' : List Operand} {rest rest' : Stack}

/-- There is one way only to find them. -/
theorem Passes.unique (h : t.Passes static s os rest) (h' : t.Passes static s os' rest') :
    os = os' ∧ rest = rest' := by
  have hlength : os.reverse.length = os'.reverse.length := by
    have := congrArg List.length (h.widths.trans h'.widths.symm)
    simpa using this
  obtain ⟨hos, hrest⟩ := List.append_inj (h.stack.symm.trans h'.stack) hlength
  exact ⟨List.reverse_inj.mp hos, hrest⟩

end Descriptor.MethodType

namespace Machine

open Descriptor (MethodType FieldType)

variable {m m' : Machine} {f : Frame} {below : List Frame}

/-- The machine with another stack in the frame on top. -/
def withStack (m : Machine) (f : Frame) (below : List Frame) (s : Stack) : Machine :=
  { m with frames := { f with stack := s } :: below }

theorem onStack_ok_iff {a : Act Stack α} {x : α} (hm : m.frames = f :: below) :
    onStack a m = (.ok x, m') ↔ ∃ s, a f.stack = (.ok x, s) ∧ m' = m.withStack f below s := by
  have hrun : onStack a m = ((a f.stack).1, m.withStack f below (a f.stack).2) := by
    rw [onStack, onTop, hm]
    rfl
  rw [hrun, Prod.mk.injEq]
  constructor
  · rintro ⟨hx, rfl⟩
    exact ⟨_, Prod.ext hx rfl, rfl⟩
  · rintro ⟨s, ha, rfl⟩
    rw [ha]
    exact ⟨rfl, rfl⟩

theorem withStack_self (hm : m.frames = f :: below) : m.withStack f below f.stack = m := by
  obtain ⟨frames, prepared, heap, collector, log, classes⟩ := m
  subst hm
  rfl

/-- The arguments are popped if they are there. -/
theorem popArgs_ok_iff (desc : String) (ws : List (Option Width)) (os : List Operand)
    (s s' : Stack) :
    popArgs desc ws s = (.ok os, s') ↔
      os.reverse.map (fun o => some o.width) = ws ∧ s = os.reverse ++ s' := by
  refine ⟨popArgs_ok, ?_⟩
  rintro ⟨rfl, rfl⟩
  induction os using List.reverseRecOn with
  | nil => rfl
  | append_singleton os o ih =>
    rw [List.reverse_append, List.reverse_singleton, List.singleton_append, List.map_cons,
      List.cons_append, popArgs]
    refine Act.bind_ok_iff.mpr ⟨o, os.reverse ++ s', rfl, ?_⟩
    rw [decide_eq_true rfl]
    exact Act.bind_ok_iff.mpr ⟨(), _, rfl, Act.bind_ok_iff.mpr ⟨os, s', ih, rfl⟩⟩

section

variable {t : MethodType} {desc : String} (hdesc : Text.bytes desc = t.bytes)

include hdesc

theorem methodWidths_apply (s : σ) :
    methodWidths desc s =
      (.ok (t.args.map fun a => some a.width, t.result.map FieldType.width), s) := by
  rw [methodWidths, hdesc, Descriptor.method_bytes]
  rfl

theorem popArguments_ok_iff (hm : m.frames = f :: below) (args : List Operand) :
    popArguments desc m = (.ok args, m') ↔
      args.map Operand.width = t.args.map FieldType.width ∧
        ∃ s, f.stack = args.reverse ++ s ∧ m' = m.withStack f below s := by
  have hrun : popArguments desc m =
      onStack (popArgs desc (t.args.map fun a => some a.width).reverse) m := by
    rw [popArguments, Act.bind_apply, methodWidths_apply hdesc]
  have hwidths : (args.map fun o => some o.width) = (t.args.map fun a => some a.width) ↔
      args.map Operand.width = t.args.map FieldType.width := by
    have hsome : (args.map Operand.width).map some = (t.args.map FieldType.width).map some ↔ _ :=
      List.map_inj_right fun _ _ => Option.some.inj
    rw [List.map_map, List.map_map] at hsome
    exact hsome
  simp only [hrun, onStack_ok_iff hm, popArgs_ok_iff, List.map_reverse, List.reverse_inj, hwidths,
    and_assoc, exists_and_left]

end

/-- Pops the receiver, if there is one. -/
def popReceiver (static : Bool) : Act Machine (List Operand) :=
  if static then pure [] else do return [.ref (← onStack Stack.popRef)]

theorem popReceiver_ok_iff (static : Bool) (hm : m.frames = f :: below) (rs : List Operand) :
    popReceiver static m = (.ok rs, m') ↔
      rs.map Operand.width = (if static then [] else [.ref]) ∧
        ∃ s, f.stack = rs.reverse ++ s ∧ m' = m.withStack f below s := by
  cases static with
  | true =>
    constructor
    · intro h
      cases h
      exact ⟨rfl, f.stack, rfl, (withStack_self hm).symm⟩
    · rintro ⟨hnone, s, hs, rfl⟩
      obtain rfl := List.map_eq_nil_iff.mp hnone
      obtain rfl : f.stack = s := hs
      rw [withStack_self hm]
      rfl
  | false =>
    constructor
    · intro h
      obtain ⟨x, m₁, hpop, hpure⟩ := Act.bind_ok h
      cases hpure
      obtain ⟨s, href, rfl⟩ := (onStack_ok_iff hm).mp hpop
      exact ⟨rfl, s, Stack.popRef_ok href, rfl⟩
    · rintro ⟨hone, s, hs, rfl⟩
      obtain ⟨o, rfl, hwidth⟩ := List.map_eq_singleton_iff.mp hone
      obtain ⟨x, rfl⟩ : ∃ x, o = .ref x := by
        cases o with
        | ref x => exact ⟨x, rfl⟩
        | _ => cases hwidth
      refine Act.bind_ok_iff.mpr ⟨x, _, (onStack_ok_iff hm).mpr ⟨s, ?_, rfl⟩, rfl⟩
      rw [hs]
      rfl

/-- Takes what is passed to a method off the stack. -/
def takePassed (desc : String) (static : Bool) : Act Machine (List Operand) := do
  let args ← popArguments desc
  let receiver ← popReceiver static
  return receiver ++ args

/-- **What is passed is taken off if it is there.** -/
theorem takePassed_ok_iff {t : MethodType} {desc : String} (hdesc : Text.bytes desc = t.bytes)
    (static : Bool) (hm : m.frames = f :: below) (os : List Operand) :
    takePassed desc static m = (.ok os, m') ↔
      ∃ rest, t.Passes static f.stack os rest ∧ m' = m.withStack f below rest := by
  constructor
  · intro h
    obtain ⟨args, m₁, hargs, h⟩ := Act.bind_ok h
    obtain ⟨rs, m₂, hpop, h⟩ := Act.bind_ok h
    cases h
    obtain ⟨hwidths, s, hs, rfl⟩ := (popArguments_ok_iff hdesc hm args).mp hargs
    obtain ⟨hreceiver, rest, hrest, rfl⟩ := (popReceiver_ok_iff static rfl rs).mp hpop
    refine ⟨rest, ⟨?_, ?_⟩, rfl⟩
    · rw [hs, List.reverse_append, List.append_assoc]
      exact congrArg _ hrest
    · rw [List.map_append, hreceiver, hwidths, MethodType.widths]
  · rintro ⟨rest, ⟨hs, hwidths⟩, rfl⟩
    obtain ⟨rs, args, rfl, hreceiver, hargs⟩ := List.map_eq_append_iff.mp hwidths
    rw [List.reverse_append, List.append_assoc] at hs
    refine Act.bind_ok_iff.mpr ⟨args, m.withStack f below (rs.reverse ++ rest), ?_, ?_⟩
    · exact (popArguments_ok_iff hdesc hm args).mpr ⟨hargs, _, hs, rfl⟩
    · refine Act.bind_ok_iff.mpr ⟨rs, m.withStack f below rest, ?_, rfl⟩
      have htop : (m.withStack f below (rs.reverse ++ rest)).frames =
          { f with stack := rs.reverse ++ rest } :: below := rfl
      exact (popReceiver_ok_iff static htop rs).mpr ⟨hreceiver, rest, rfl, rfl⟩

/-! ## 3. Calls -/

theorem discard_topFrame_apply (hm : m.frames = f :: below) :
    (discard topFrame : Act Machine Unit) m = (.ok (), m) := by
  change (topFrame >>= fun _ => pure ()) m = _
  rw [Act.bind_apply, topFrame, Act.get_bind_apply, hm]
  rfl

theorem writeArguments_eq (i : Nat) (os : List Operand) :
    writeArguments i os = Locals.writeAll (LocalStore.layout i os) := by
  induction os generalizing i with
  | nil => rfl
  | cons o os ih => rw [writeArguments, LocalStore.layout, Locals.writeAll, ih]

theorem fill_ok_iff (f : Frame) (a : Act Locals Unit) (f' : Frame) :
    fill f a m = (.ok f', m') ↔
      m' = m ∧ ∃ t, a f.locals = (.ok (), t) ∧ f' = { f with locals := t } := by
  unfold fill
  rcases a f.locals with ⟨_ | _, t⟩
  · simp [Act.fail]
  · simp [and_comm, eq_comm]

/-- Filling a frame in two steps. -/
theorem fill_bind_fill (f : Frame) (a b : Act Locals Unit) :
    (fill f a >>= fun f' => fill f' b) = fill f (a >>= fun _ => b) := by
  funext m
  unfold fill
  simp only [Act.bind_apply]
  rcases a f.locals with ⟨_ | _, t⟩ <;> rfl

/-- The receiver is laid out like an argument before the others. -/
theorem handOver_eq {method : MethodRef} {size : Int} {f : Frame}
    (hf : Frame.enter method size = .ok f) (static : Bool) :
    handOver method static size =
      discard topFrame >>= fun _ => takePassed method.desc static >>= fun os =>
        fill f (Locals.writeAll (LocalStore.layout 0 os)) := by
  rw [handOver, hf]
  refine bind_congr fun _ => ?_
  rw [takePassed, bind_assoc]
  refine bind_congr fun args => ?_
  cases static with
  | true =>
    rw [writeArguments_eq]
    rfl
  | false =>
    dsimp only [popReceiver]
    simp only [Bool.false_eq_true, if_false, bind_assoc, pure_bind, fill_bind_fill]
    refine bind_congr fun x => ?_
    rw [writeArguments_eq]
    rfl

/-- **A call succeeds if the operands to pass are there and fit into a table.** -/
theorem enter_ok_iff {t : MethodType} {method : MethodRef}
    (hdesc : Text.bytes method.desc = t.bytes) (static : Bool) (size : Int)
    (hm : m.frames = f :: below) :
    enter method static size m = (.ok (), m') ↔
      ∃ os rest t₀ t', t.Passes static f.stack os rest ∧ Locals.empty size = .ok t₀ ∧
        Locals.writeAll (LocalStore.layout 0 os) t₀ = (.ok (), t') ∧
        m' = { m with
          frames := ⟨method, [], t', false⟩ :: { f with stack := rest } :: below
          log := .push method :: m.log } := by
  rw [enter_eq]
  cases hempty : Locals.empty size with
  | error e =>
    have hf : Frame.enter method size = .error e := by
      rw [Frame.enter, hempty]
      rfl
    constructor
    · intro h
      obtain ⟨callee, m₁, hcall, -⟩ := Act.bind_ok h
      rw [handOver, hf] at hcall
      obtain ⟨_, m₂, -, hcall⟩ := Act.bind_ok hcall
      obtain ⟨args, m₃, -, hcall⟩ := Act.bind_ok hcall
      cases hcall
    · rintro ⟨os, rest, t₀, t', -, h, -⟩
      cases h
  | ok t₀ =>
    have hf : Frame.enter method size = .ok ⟨method, [], t₀, false⟩ := by
      rw [Frame.enter, hempty]
      rfl
    rw [handOver_eq hf, bind_assoc, Act.bind_apply, discard_topFrame_apply hm]
    dsimp only
    rw [bind_assoc, Act.bind_ok_iff]
    simp only [takePassed_ok_iff hdesc static hm]
    constructor
    · rintro ⟨os, _, ⟨rest, hpasses, rfl⟩, h⟩
      obtain ⟨callee, m₁, hfill, hpush⟩ := Act.bind_ok h
      obtain ⟨rfl, t', hwrite, rfl⟩ := (fill_ok_iff _ _ _).mp hfill
      cases hpush
      exact ⟨os, rest, t₀, t', hpasses, rfl, hwrite, rfl⟩
    · rintro ⟨os, rest, _, t', hpasses, h, hwrite, rfl⟩
      cases h
      have hfill : fill ⟨method, [], t₀, false⟩ (Locals.writeAll (LocalStore.layout 0 os))
          (m.withStack f below rest) = (.ok ⟨method, [], t', false⟩, m.withStack f below rest) :=
        (fill_ok_iff _ _ _).mpr ⟨rfl, t', hwrite, rfl⟩
      exact ⟨os, _, ⟨rest, hpasses, rfl⟩, Act.bind_ok_iff.mpr ⟨_, _, hfill, rfl⟩⟩

end Machine

namespace Locals

variable {size : Int} {t₀ t' : Locals} (ht₀ : empty size = .ok t₀)

include ht₀

theorem writeAll_layout_ok_iff (os : List Operand) :
    (∃ t', writeAll (LocalStore.layout 0 os) t₀ = (.ok (), t')) ↔
      (Width.span (os.map Operand.width) : Int) ≤ size := by
  rw [writeAll_ok_iff, layout_fits_iff os (Nat.zero_le _), ← size_empty ht₀]
  omega

theorem slot_layout {os : List Operand}
    (h : writeAll (LocalStore.layout 0 os) t₀ = (.ok (), t')) (i : Int) (o : Operand) :
    Plain.slot t'.slots i = some o ↔
      ∃ j, os[j]? = some o ∧ i = Width.span ((os.map Operand.width).take j) := by
  rw [slot_writeAll ht₀ _ h, LocalStore.lasts_layout]
  simp

end Locals

/-! ## 4. Results -/

namespace Value

/-- Whether the value becomes a constant of the given width.  Longs are not cut to an int, and what
has no identity is no reference. -/
def converts (v : Value) : Width → Bool
  | .bv32 =>
    match v with
    | bool _ | byte _ | short _ | char _ | int _ | word _ | octet _ => true
    | _ => false
  | .bv64 =>
    match v with
    | int _ | long _ | word _ => true
    | _ => false
  | .fp32 | .fp64 => v.real?.isSome
  | .ref => v.isComparable

theorem toInt_ok_iff (v : Value) : (∃ n, v.toInt = .ok n) ↔ v.converts .bv32 = true := by
  cases v <;> simp [toInt, converts]

theorem toLong_ok_iff (v : Value) : (∃ n, v.toLong = .ok n) ↔ v.converts .bv64 = true := by
  cases v <;> simp [toLong, converts]

theorem toReal_ok_iff (v : Value) : (∃ x, v.toReal = .ok x) ↔ v.real?.isSome = true := by
  cases v <;> simp [toReal, real?]

end Value

namespace Heap

variable {v : Value} {w : Width} {h h' : Heap}

theorem constant_apply {α : Type} {c : Except Violation α} {x : α} (hc : c = .ok x)
    (g : α → Expr) (h : Heap) :
    (Act.ofExcept c >>= fun x => pure (g x) : Act Heap Expr) h = (.ok (g x), h) := by
  subst hc
  rfl

theorem constant_of_converts (hv : v.converts w = true) (h : Heap) :
    ∃ e h', constant (some w) v h = (.ok e, h') := by
  cases w with
  | bv32 =>
    obtain ⟨n, hn⟩ := v.toInt_ok_iff.mpr hv
    exact ⟨_, _, constant_apply hn _ h⟩
  | bv64 =>
    obtain ⟨n, hn⟩ := v.toLong_ok_iff.mpr hv
    exact ⟨_, _, constant_apply hn _ h⟩
  | fp32 | fp64 =>
    obtain ⟨x, hx⟩ := v.toReal_ok_iff.mpr hv
    exact ⟨_, _, constant_apply hx _ h⟩
  | ref =>
    obtain ⟨x, h', href, -⟩ := reference_of_comparable h hv
    exact ⟨.ref x, h', Act.bind_ok_iff.mpr ⟨x, h', href, rfl⟩⟩

/-- The constant for a value: it has the width that is asked for and shows the value. -/
structure IsConstant (h : Heap) (v : Value) (w : Width) (o : Operand) : Prop where
  width : o.width = w
  constant : o.expr.kind.isConstant = true
  shows : h.Shows v o

theorem isConstant_of_constant {e : Expr} (hrun : constant (some w) v h = (.ok e, h')) :
    v.converts w = true ∧ ∃ o, Operand.ofExpr w e = .ok o ∧ h'.IsConstant v w o := by
  cases w with
  | bv32 =>
    obtain ⟨n, hn, rfl⟩ := constant_ok (show constant (some .bv32) v h = _ from hrun)
    obtain ⟨k, hk, hcut⟩ := Value.integer?_of_toInt hn
    have hshows : h'.Shows v (.bv32 (.const n.toInt64)) :=
      ⟨k, hk, (Int32.toInt_toInt64 n).trans hcut⟩
    exact ⟨v.toInt_ok_iff.mp ⟨n, hn⟩, _, rfl, rfl, rfl, hshows⟩
  | bv64 =>
    obtain ⟨n, hn, rfl⟩ := constant_ok (show constant (some .bv64) v h = _ from hrun)
    exact ⟨v.toLong_ok_iff.mp ⟨n, hn⟩, _, rfl, rfl, rfl, Value.integer?_of_toLong hn⟩
  | fp32 =>
    obtain ⟨x, hx, rfl⟩ := constant_ok (show constant (some .fp32) v h = _ from hrun)
    exact ⟨v.toReal_ok_iff.mp ⟨x, hx⟩, _, rfl, rfl, rfl, x, Value.real?_of_toReal hx, rfl⟩
  | fp64 =>
    obtain ⟨x, hx, rfl⟩ := constant_ok (show constant (some .fp64) v h = _ from hrun)
    exact ⟨v.toReal_ok_iff.mp ⟨x, hx⟩, _, rfl, rfl, rfl, Value.real?_of_toReal hx⟩
  | ref =>
    obtain ⟨e', h₁, href, hpure⟩ := Act.bind_ok hrun
    cases hpure
    have hv : v.isComparable = true := by
      by_contra hv
      rw [reference_of_not_comparable h (Bool.not_eq_true _ ▸ hv)] at href
      cases href
    have hkind : (Expr.ref e').kind.isConstant = true := by cases e' <;> rfl
    exact ⟨hv, _, rfl, rfl, hkind, shows_of_reference href⟩

end Heap

namespace Machine

open Descriptor (MethodType FieldType)

variable {m m' : Machine} {f : Frame} {below : List Frame}

/-- Pushes the result that the host saw, if there is one. -/
def pushResult (desc : String) (result : Value) : Act Machine Unit := do
  let (_, w) ← methodWidths desc
  match w with
  | none => return
  | some w =>
    let e ← onHeap (Heap.constant (some w) result)
    push (← Act.ofExcept (Operand.ofExpr w e))

/-- **A call that is not watched takes what a watched one does.** -/
theorem callUnwatched_eq (desc : String) (static : Bool) (result : Value) :
    callUnwatched desc static result =
      discard topFrame >>= fun _ => takePassed desc static >>= fun _ => pushResult desc result := by
  rw [callUnwatched]
  refine bind_congr fun _ => ?_
  rw [takePassed, bind_assoc]
  change (popArguments desc >>= fun _ => pure ()) >>= _ = _
  rw [bind_assoc]
  refine bind_congr fun args => ?_
  cases static with
  | true => rfl
  | false =>
    change (pure () >>= fun _ => (onStack Stack.popRef >>= fun _ => pure ()) >>= _) = _
    simp only [popReceiver, Bool.false_eq_true, if_false, bind_assoc, pure_bind]
    rfl

end Machine

namespace Descriptor.MethodType

/-- The value can be a result of the method; any value can if the method has none. -/
def Accepts (t : MethodType) (v : Value) : Prop :=
  ∀ r, t.result = some r → v.converts r.width = true

/-- The operands are what the method leaves for the value: one constant, or nothing. -/
def Yields (t : MethodType) (h : Heap) (v : Value) (rs : List Operand) : Prop :=
  match t.result with
  | none => rs = []
  | some r => ∃ o, rs = [o] ∧ h.IsConstant v r.width o

end Descriptor.MethodType

namespace Machine

open Descriptor (MethodType FieldType)

variable {m m' : Machine} {f : Frame} {below : List Frame}

section

variable {t : MethodType} {desc : String} (hdesc : Text.bytes desc = t.bytes)

include hdesc

/-- The result is pushed if the method accepts it. -/
theorem pushResult_cases (v : Value) (hm : m.frames = f :: below) :
    (t.Accepts v ∧ ∃ rs m', pushResult desc v m = (.ok (), m') ∧
      m'.frames = { f with stack := rs ++ f.stack } :: below ∧ t.Yields m'.heap v rs) ∨
    (¬ t.Accepts v ∧ ∃ e m', pushResult desc v m = (.error e, m')) := by
  rw [pushResult, Act.bind_apply, methodWidths_apply hdesc]
  unfold MethodType.Accepts MethodType.Yields
  cases t.result with
  | none => exact Or.inl ⟨nofun, [], m, rfl, hm, rfl⟩
  | some r =>
    dsimp only [Option.map_some]
    rcases hrun : Heap.constant (some r.width) v m.heap with ⟨e | e, h'⟩
    · refine Or.inr ⟨?_, e, { m with heap := h' }, ?_⟩
      · intro haccepts
        obtain ⟨e', h'', hok⟩ := Heap.constant_of_converts (haccepts r rfl) m.heap
        rw [hrun] at hok
        cases hok
      · rw [Act.bind_apply, onHeap, Act.zoom, hrun]
    · obtain ⟨hconverts, o, ho, hconstant⟩ := Heap.isConstant_of_constant hrun
      have haccepts : ∀ r', some r = some r' → v.converts r'.width = true := by
        rintro r' ⟨⟩
        exact hconverts
      have htop : ({ m with heap := h' } : Machine).frames = f :: below := hm
      have hpush : push o { m with heap := h' } =
          (.ok (), withStack { m with heap := h' } f below (o :: f.stack)) := by
        rw [push, onStack_ok_iff htop]
        exact ⟨_, rfl, rfl⟩
      refine Or.inl ⟨haccepts, [o], withStack { m with heap := h' } f below (o :: f.stack), ?_,
        rfl, o, rfl, hconstant⟩
      rw [Act.bind_apply, onHeap, Act.zoom, hrun]
      dsimp only
      rw [ho]
      exact hpush

/-- **A call that is not watched succeeds if the operands to pass are there** and the result is
accepted. -/
theorem callUnwatched_ok_iff (static : Bool) (v : Value) (hm : m.frames = f :: below) :
    callUnwatched desc static v m = (.ok (), m') ↔
      ∃ os rest, t.Passes static f.stack os rest ∧
        pushResult desc v (m.withStack f below rest) = (.ok (), m') := by
  rw [callUnwatched_eq, Act.bind_apply, discard_topFrame_apply hm]
  dsimp only
  rw [Act.bind_ok_iff]
  simp only [takePassed_ok_iff hdesc static hm]
  constructor
  · rintro ⟨os, _, ⟨rest, hpasses, rfl⟩, hpush⟩
    exact ⟨os, rest, hpasses, hpush⟩
  · rintro ⟨os, rest, hpasses, hpush⟩
    exact ⟨os, _, ⟨rest, hpasses, rfl⟩, hpush⟩

end

/-! ## 5. Both kinds of call -/

section

variable {t : MethodType} {method : MethodRef} (hdesc : Text.bytes method.desc = t.bytes)
  (static : Bool) (hm : m.frames = f :: below)

include hdesc hm

theorem enter_succeeds_iff (size : Int) :
    (∃ m', enter method static size m = (.ok (), m')) ↔
      (∃ os rest, t.Passes static f.stack os rest) ∧
        (Width.span (t.widths static) : Int) ≤ size ∧ size ≤ Locals.sizeLimit := by
  simp only [enter_ok_iff hdesc static size hm]
  constructor
  · rintro ⟨m', os, rest, t₀, t', hpasses, hempty, hwrite, -⟩
    have hfits := (Locals.writeAll_layout_ok_iff hempty os).mp ⟨t', hwrite⟩
    rw [hpasses.widths] at hfits
    obtain ⟨h0, hlimit, -⟩ := (Locals.empty_eq_ok_iff size t₀).mp hempty
    exact ⟨⟨os, rest, hpasses⟩, hfits, by omega⟩
  · rintro ⟨⟨os, rest, hpasses⟩, hfits, hlimit⟩
    have hempty := (Locals.empty_eq_ok_iff size _).mpr ⟨by omega, by omega, rfl⟩
    rw [← hpasses.widths] at hfits
    obtain ⟨t', hwrite⟩ := (Locals.writeAll_layout_ok_iff hempty os).mpr hfits
    exact ⟨_, os, rest, _, t', hpasses, hempty, hwrite, rfl⟩

/-- What is passed moves from the caller's stack to the callee's locals. -/
theorem enter_frames {size : Int} (h : enter method static size m = (.ok (), m'))
    {os : List Operand} {rest : Stack} (hpasses : t.Passes static f.stack os rest) :
    ∃ locals : Locals,
      m'.frames = ⟨method, [], locals, false⟩ :: { f with stack := rest } :: below ∧
      (locals.size : Int) = size ∧ ∀ i o, Plain.slot locals.slots i = some o ↔
        ∃ j, os[j]? = some o ∧ i = Width.span ((t.widths static).take j) := by
  obtain ⟨os', rest', t₀, t', hpasses', hempty, hwrite, rfl⟩ :=
    (enter_ok_iff hdesc static size hm).mp h
  obtain ⟨rfl, rfl⟩ := hpasses.unique hpasses'
  refine ⟨t', rfl, ?_, ?_⟩
  · rw [Locals.size_writeAll hwrite, Locals.size_empty hempty]
  · rw [← hpasses.widths]
    exact Locals.slot_layout hempty hwrite

theorem callUnwatched_succeeds_iff (v : Value) :
    (∃ m', callUnwatched method.desc static v m = (.ok (), m')) ↔
      (∃ os rest, t.Passes static f.stack os rest) ∧ t.Accepts v := by
  simp only [callUnwatched_ok_iff hdesc static v hm]
  constructor
  · rintro ⟨m', os, rest, hpasses, hpush⟩
    rcases pushResult_cases hdesc v (m := m.withStack f below rest) rfl with
      ⟨haccepts, -⟩ | ⟨-, e, m'', herr⟩
    · exact ⟨⟨os, rest, hpasses⟩, haccepts⟩
    · rw [herr] at hpush
      cases hpush
  · rintro ⟨⟨os, rest, hpasses⟩, haccepts⟩
    rcases pushResult_cases hdesc v (m := m.withStack f below rest) rfl with
      ⟨-, rs, m', hpush, -⟩ | ⟨hrefuses, -⟩
    · exact ⟨m', os, rest, hpasses, hpush⟩
    · exact absurd haccepts hrefuses

/-- What is passed is replaced by the result. -/
theorem callUnwatched_frames {v : Value} (h : callUnwatched method.desc static v m = (.ok (), m'))
    {os : List Operand} {rest : Stack} (hpasses : t.Passes static f.stack os rest) :
    ∃ rs, m'.frames = { f with stack := rs ++ rest } :: below ∧ t.Yields m'.heap v rs := by
  obtain ⟨os', rest', hpasses', hpush⟩ := (callUnwatched_ok_iff hdesc static v hm).mp h
  obtain ⟨rfl, rfl⟩ := hpasses.unique hpasses'
  rcases pushResult_cases hdesc v (m := m.withStack f below rest) rfl with
    ⟨-, rs, m'', hok, hframes, hyields⟩ | ⟨-, e, m'', herr⟩
  · rw [hok] at hpush
    cases hpush
    exact ⟨rs, hframes, hyields⟩
  · rw [herr] at hpush
    cases hpush

end

/-- **Argument passing.**  A call of a method succeeds if and only if the operands to pass are on
the caller's stack and a table of the size that is asked for can be had and has room for them.  It
leaves the caller what is beneath them, and a frame on top whose stack is empty and whose locals
are the operands, each at the slot that the words before it add up to.  A call that is not watched
leaves the caller the same, with a constant for the result if there is one. -/
theorem call_passes_arguments {t : MethodType} {method : MethodRef}
    (hdesc : Text.bytes method.desc = t.bytes) (hm : m.frames = f :: below) (static : Bool)
    (size : Int) (v : Value) :
    ((∃ m', enter method static size m = (.ok (), m')) ↔
      (∃ os rest, t.Passes static f.stack os rest) ∧
        (Width.span (t.widths static) : Int) ≤ size ∧ size ≤ Locals.sizeLimit) ∧
    ((∃ m', callUnwatched method.desc static v m = (.ok (), m')) ↔
      (∃ os rest, t.Passes static f.stack os rest) ∧ t.Accepts v) ∧
    ∀ os rest, t.Passes static f.stack os rest →
      (∀ m', enter method static size m = (.ok (), m') →
        ∃ locals : Locals,
          m'.frames = ⟨method, [], locals, false⟩ :: { f with stack := rest } :: below ∧
          (locals.size : Int) = size ∧ ∀ i o, Plain.slot locals.slots i = some o ↔
            ∃ j, os[j]? = some o ∧ i = Width.span ((t.widths static).take j)) ∧
      ∀ m', callUnwatched method.desc static v m = (.ok (), m') →
        ∃ rs, m'.frames = { f with stack := rs ++ rest } :: below ∧ t.Yields m'.heap v rs := by
  refine ⟨enter_succeeds_iff hdesc static hm size, callUnwatched_succeeds_iff hdesc static hm v, ?_⟩
  intro os rest hpasses
  constructor
  · intro m' h
    exact enter_frames hdesc static hm h hpasses
  · intro m' h
    exact callUnwatched_frames hdesc static hm h hpasses

/-- A caller with a long on top of an int, beneath them a receiver and another operand. -/
def longOverInt : Frame :=
  { method := ⟨"A", "f", "()V"⟩
    stack := [.bv64 (.const 7), .bv32 (.const 5), .ref .null, .bv32 (.const 3)]
    locals := ⟨[]⟩
    fake := false }

/-- A machine with that caller alone. -/
def callsLongOverInt : Machine := { Machine.new none with frames := [longOverInt] }

/-- The int goes to slot 1 and the long to slot 2; the other operand stays. -/
theorem longOverInt_passed :
    ∃ m' locals, enter ⟨"A", "g", "(IJ)V"⟩ false 4 callsLongOverInt = (.ok (), m') ∧
      m'.frames = [⟨⟨"A", "g", "(IJ)V"⟩, [], locals, false⟩,
        { longOverInt with stack := [.bv32 (.const 3)] }] ∧
      Plain.slot locals.slots 0 = some (.ref .null) ∧
      Plain.slot locals.slots 1 = some (.bv32 (.const 5)) ∧
      Plain.slot locals.slots 2 = some (.bv64 (.const 7)) := by
  have hdesc : Text.bytes (MethodRef.mk "A" "g" "(IJ)V").desc =
      MethodType.bytes ⟨[.primitive .int, .primitive .long], none⟩ := by decide
  have hm : callsLongOverInt.frames = [longOverInt] := rfl
  have hpasses : MethodType.Passes ⟨[.primitive .int, .primitive .long], none⟩ false
      longOverInt.stack [.ref .null, .bv32 (.const 5), .bv64 (.const 7)] [.bv32 (.const 3)] :=
    ⟨rfl, rfl⟩
  obtain ⟨hsucceeds, -, hpassed⟩ := call_passes_arguments hdesc hm false 4 .null
  obtain ⟨m', h⟩ := hsucceeds.mpr ⟨⟨_, _, hpasses⟩, by decide, by decide⟩
  obtain ⟨locals, hframes, -, hslot⟩ := (hpassed _ _ hpasses).1 m' h
  refine ⟨m', locals, h, hframes, ?_, ?_, ?_⟩
  · exact (hslot _ _).mpr ⟨0, rfl, rfl⟩
  · exact (hslot _ _).mpr ⟨1, rfl, rfl⟩
  · exact (hslot _ _).mpr ⟨2, rfl, rfl⟩

/-- Nothing is to be passed and there is room, but no table is that large. -/
theorem hugeTable_refused :
    Text.bytes "()V" = MethodType.bytes ⟨[], none⟩ ∧
      MethodType.Passes ⟨[], none⟩ true longOverInt.stack [] longOverInt.stack ∧
      (Width.span (MethodType.widths ⟨[], none⟩ true) : Int) ≤ 4611686018427387904 ∧
      (enter ⟨"A", "g", "()V"⟩ true 4611686018427387904 callsLongOverInt).1 =
        .error (.crash .tableSize) :=
  ⟨by decide, ⟨rfl, rfl⟩, by decide, by decide⟩

end Machine

end Concolic
