import Concolic.Proofs.Folding
import Concolic.Proofs.TopFrame

/-
# Ints in int slots

An operand of the width of ints should have an int as its value.  The instructions see to that:
whatever they make of ints is one (`IntExpr.intClosed_intSound`).  But the heap keeps expressions
without widths.  A long that is stored in a field and read back as an int would be pushed as it is.

So the invariant must say which locations hold longs: those that were accessed at a width other than
that of ints.  All others hold ints (`Machine.IntsFit`).  If every place is accessed at one width
only, then a load of an int never comes to a location of the first kind, since different places are
kept at different locations.  The length of an array is no place that a program can name, so it is
always an int.
-/
namespace Concolic

/-! ## 1. What is made of ints -/

theorem Double.truncate_bounds {lo hi : Int} (hlo : lo ≤ 0) (hhi : 0 ≤ hi) (x : Double) :
    lo ≤ x.truncate lo hi ∧ x.truncate lo hi ≤ hi := by
  unfold Double.truncate
  split
  · exact ⟨hlo, hhi⟩
  · split <;> omega
  · dsimp only
    split <;> omega

theorem isInt_truncateInt (x : Double) : IsInt (Machine.truncateInt x) := by
  have hzero : Int32.minValue.toInt ≤ 0 ∧ 0 ≤ Int32.maxValue.toInt := by decide
  obtain ⟨hlo, hhi⟩ := Double.truncate_bounds hzero.1 hzero.2 x
  have hmin : Int32.minValue.toInt = -2 ^ 31 := by decide
  have hmax : Int32.maxValue.toInt = 2 ^ 31 - 1 := by decide
  rw [hmin, hmax] at hlo hhi
  unfold IsInt Machine.truncateInt
  rw [hmin, hmax, Int64.toInt_ofInt_of_le (by omega) (by omega)]
  omega

theorem isInt_threeWayDouble (a b : Double) : IsInt (threeWayDouble a b) := by
  unfold threeWayDouble
  split
  · exact isInt_toInt64 1
  · split
    · exact isInt_toInt64 (-1)
    · split
      · exact isInt_toInt64 1
      · exact isInt_toInt64 0

namespace IntExpr

theorem threeWayReal_spec (l r : RealExpr) (c : Int64) :
    (threeWayReal l r c).concrete = c ∧ ¬ (threeWayReal l r c).IsConstSum := by
  unfold threeWayReal
  dsimp only
  split <;> exact ⟨rfl, id⟩

theorem castReal_spec (x : RealExpr) (c : Int64) :
    (castReal x c).concrete = c ∧ ¬ (castReal x c).IsConstSum := by
  unfold castReal
  split <;> exact ⟨rfl, id⟩

/-- An expression that has the int it was told as its value, and is no sum. -/
theorem intSound_of_told {e : IntExpr} {c : Int64} (h : e.concrete = c ∧ ¬ e.IsConstSum)
    (hc : IsInt c) : e.IntSound :=
  intSound_of_not_constSum (h.1.symm ▸ hc) h.2

/-- **The instructions make ints of ints.** -/
theorem intClosed_intSound : IntClosed IntSound where
  const v := intSound_of_not_constSum (isInt_toInt64 v) id
  wordOp op _ _ hl hr := (combine_wordOp_int op hl hr rfl).2
  shiftOp op _ _ _ _ := (intSound_of_spec (combine_shiftOp_spec op _ _ _)).2
  divOp op l r d hl _ := by
    refine (intSound_of_spec (combine_divOp_spec op r fun hzero => ?_)).2
    rw [concreteInt, hzero]
    exact congrArg Int32.toInt64 (DivOp.onInt_zero op d)
  negate _ := (intSound_of_spec (apply_spec .neg _ _)).2
  narrow e := (intSound_of_spec (apply_spec .narrow e _)).2
  threeWay l r := intSound_of_told (threeWay_spec l r _) (isInt_threeWayInt _ _)
  threeWayReal l r := intSound_of_told (threeWayReal_spec l r _) (isInt_threeWayDouble _ _)
  castReal x := intSound_of_told (castReal_spec x _) (isInt_truncateInt _)

end IntExpr

/-! ## 2. What an instruction accesses -/

/-- The width of a field with the given descriptor, if it holds a value. -/
def Descriptor.width? (desc : String) : Option Width :=
  (Descriptor.width (Text.bytes desc)).toOption.join

namespace Instruction

/-- The place that a load or store is for, and the width at which it is accessed. -/
def accessed : Instruction → Option (Place × Width)
  | getField v o n d _ | putField v o n d => (Descriptor.width? d).map (Place.field v o n, ·)
  | getStatic o n d _ | putStatic o n d => (Descriptor.width? d).map (Place.static o n, ·)
  | arrayLoad w (some a) n | arrayStore w (some a) n => some (.element a.toValue n, w)
  | _ => none

end Instruction

namespace Machine

variable {m m' m₀ : Machine}

theorem fieldWidth_ok {desc : String} {w : Option Width} (h : fieldWidth desc m = (.ok w, m')) :
    Descriptor.width? desc = w := by
  rw [Descriptor.width?, (Act.ofExcept_ok h).1]
  rfl

theorem fieldWidth_grows_width? (desc : String) :
    Act.Grows Sound m₀ (fieldWidth desc) fun _ w => Descriptor.width? desc = w := by
  refine Act.Grows.ofExcept fun w hw _ _ => ?_
  rw [Descriptor.width?, hw]
  rfl

theorem element_grows (a : HostArray) (n : Int32) :
    Act.Grows Sound m₀ (element a n) fun _ _ => True := by
  unfold element
  split
  · exact Act.Grows.pure fun _ _ => trivial
  · exact Act.Grows.fail _

theorem fieldOrigin_grows (receiver : Value) (owner name desc : String) (v : Value) :
    Act.Grows Sound m₀ (fieldOrigin receiver owner name desc v) fun m x => ∀ l w v',
      x = some (l, w, v') →
        Descriptor.width? desc = w ∧ m.Locates (.field receiver owner name) l := by
  refine popRef_grows.bind fun _ e _ _ he => ?_
  split
  · exact nullAccess_grows.andThen fun _ _ _ => Act.Grows.pure fun _ _ _ _ _ h => by cases h
  · refine (resolve_grows he receiver).bind fun _ x _ _ hx => ?_
    cases x with
    | null => exact Act.Grows.fail _
    | object r =>
      refine (fieldWidth_grows_width? desc).bind fun _ w _ hle hw => ?_
      refine Act.Grows.pure fun _ hle' l w' v' h => ?_
      cases h
      exact ⟨hw, r, (le_trans hle hle').1.stands (hx r rfl), rfl⟩

theorem staticOrigin_grows (owner name desc : String) (v : Value) :
    Act.Grows Sound m₀ (staticOrigin owner name desc v) fun m x => ∀ l w v',
      x = some (l, w, v') → Descriptor.width? desc = w ∧ m.Locates (.static owner name) l := by
  refine (prepare_grows owner).bind fun _ _ _ _ hmem => ?_
  refine (fieldWidth_grows_width? desc).bind fun _ w _ hle hw => ?_
  refine Act.Grows.pure fun _ hle' l w' v' h => ?_
  cases h
  exact ⟨hw, (le_trans hle hle').2 hmem, rfl⟩

theorem elemOrigin_grows (w : Width) (a : Option HostArray) (n : Int32) :
    Act.Grows Sound m₀ (elemOrigin w a n) fun m x => ∀ l w' v', x = some (l, w', v') →
      w' = some w ∧ ∃ a', a = some a' ∧ m.Locates (.element a'.toValue n) l := by
  refine popInt_grows.andThen fun _ index _ => popRef_grows.bind fun _ e _ _ he => ?_
  refine (checkAccess_grows he a index n).bind fun _ x _ _ hx => ?_
  cases x with
  | none => exact Act.Grows.pure fun _ _ _ _ _ h => by cases h
  | some p =>
    obtain ⟨r, a'⟩ := p
    obtain ⟨ha, hr, harray⟩ := hx r a' rfl
    refine (element_grows a' n).andThen fun _ v hle => Act.Grows.pure fun _ hle' l w' v' h => ?_
    cases h
    exact ⟨rfl, a', ha, r, (le_trans hle hle').1.stands hr, harray, rfl⟩

end Machine

namespace Instruction

variable {m m' m₀ : Machine} {i : Instruction} {l : Location} {o : Operand}

/-- The location that a load finds is that of the place it accesses. -/
theorem origin_grows (m₀ : Machine) (i : Instruction) :
    Act.Grows Machine.Sound m₀ i.origin fun m x => ∀ l w v, x = some (l, some w, v) →
      ∃ p, i.accessed = some (p, w) ∧ m.Locates p l := by
  cases i with
  | getField r owner name d v =>
    refine (Machine.fieldOrigin_grows r owner name d v).imp fun m x _ _ hx l w v' h => ?_
    obtain ⟨hw, hl⟩ := hx l _ v' h
    exact ⟨_, by rw [accessed, hw]; rfl, hl⟩
  | getStatic owner name d v =>
    refine (Machine.staticOrigin_grows owner name d v).imp fun m x _ _ hx l w v' h => ?_
    obtain ⟨hw, hl⟩ := hx l _ v' h
    exact ⟨_, by rw [accessed, hw]; rfl, hl⟩
  | arrayLoad w a n =>
    refine (Machine.elemOrigin_grows w a n).imp fun m x _ _ hx l w' v' h => ?_
    obtain ⟨hw, a', rfl, hl⟩ := hx l _ v' h
    cases hw
    exact ⟨_, rfl, hl⟩
  | _ => exact Act.Grows.pure fun _ _ _ _ _ h => by cases h

/-- A store accesses its place at the width of the operand that it writes. -/
theorem target_accessed {p : Place} (h : i.target m = (.ok (some (l, o)), m'))
    (hp : i.place? = some p) : i.accessed = some (p, o.width) := by
  cases i with
  | putField v owner name d =>
    obtain ⟨o', m₁, -, h⟩ := Act.bind_ok h
    obtain ⟨w, m₂, hw, h⟩ := Act.bind_ok h
    obtain ⟨hwidth, h⟩ := Act.ensure_bind_ok h
    obtain ⟨e, m₃, -, h⟩ := Act.bind_ok h
    have heq : o' = o := by
      split at h
      · obtain ⟨_, _, -, h⟩ := Act.bind_ok h
        cases h
      · obtain ⟨x, m₄, -, h⟩ := Act.bind_ok h
        cases x with
        | null => cases h
        | object r =>
          cases h
          rfl
    cases hp
    rw [accessed, Machine.fieldWidth_ok hw, ← of_decide_eq_true hwidth, heq]
    rfl
  | putStatic owner name d =>
    obtain ⟨_, m₁, -, h⟩ := Act.bind_ok h
    obtain ⟨o', m₂, -, h⟩ := Act.bind_ok h
    obtain ⟨w, m₃, hw, h⟩ := Act.bind_ok h
    obtain ⟨hwidth, h⟩ := Act.ensure_bind_ok h
    cases h
    cases hp
    rw [accessed, Machine.fieldWidth_ok hw, ← of_decide_eq_true hwidth]
    rfl
  | arrayStore w a n =>
    obtain ⟨o', m₁, -, h⟩ := Act.bind_ok h
    obtain ⟨hwidth, h⟩ := Act.ensure_bind_ok h
    obtain ⟨index, m₂, -, h⟩ := Act.bind_ok h
    obtain ⟨e, m₃, -, h⟩ := Act.bind_ok h
    obtain ⟨x, m₄, -, h⟩ := Act.bind_ok h
    have heq : o' = o := by
      cases x with
      | none => cases h
      | some _ =>
        cases h
        rfl
    cases a with
    | none => cases hp
    | some a =>
      cases hp
      rw [accessed, ← heq, of_decide_eq_true hwidth]
  | _ => cases hp

end Instruction

/-! ## 3. Places that a program can name -/

/-- Every place is accessed at one width. -/
def SingleWidth (as : List (Place × Width)) : Prop :=
  ∀ a ∈ as, ∀ b ∈ as, a.1.same b.1 = true → a.2 = b.2

instance (as : List (Place × Width)) : Decidable (SingleWidth as) :=
  inferInstanceAs (Decidable (∀ a ∈ as, ∀ b ∈ as, _ → _))

/-- The place belongs to an object with an identity or to a class with a name, and a field is that
of such a class. -/
def Place.Named : Place → Prop
  | field v owner _ => v.same v = true ∧ owner ≠ ""
  | static owner _ => owner ≠ ""
  | element v _ => v.same v = true

theorem Place.Named.same_self {p : Place} (h : p.Named) : p.same p = true := by
  cases p with
  | field v owner name => simpa [Place.same] using h.1
  | static owner name => simp [Place.same]
  | element v i => simp [Place.same, show v.same v = true from h]

/-- The length of an array has no owner. -/
theorem Place.Named.not_length {p : Place} (h : p.Named) (m : Machine) (r : Ref) :
    ¬ m.Locates p (.field (Heap.lengthKey r)) := by
  intro hl
  cases p with
  | field v owner name =>
    obtain ⟨r', -, heq⟩ := hl
    exact h.2 (congrArg FieldKey.owner (Location.field.inj heq)).symm
  | static owner name =>
    exact h (congrArg FieldKey.owner (Location.field.inj hl.2)).symm
  | element v i =>
    obtain ⟨r', -, -, heq⟩ := hl
    cases heq

/-- The location was accessed at a width other than that of ints. -/
def Machine.Wide (m : Machine) (as : List (Place × Width)) (l : Location) : Prop :=
  ∃ p w, (p, w) ∈ as ∧ w ≠ .bv32 ∧ p.Named ∧ m.Locates p l

theorem Machine.Wide.mono {m m' : Machine} {as as' : List (Place × Width)} {l : Location}
    (hext : Heap.Extends m.heap m'.heap) (hprepared : m.prepared ⊆ m'.prepared) (has : as ⊆ as')
    (h : m.Wide as l) : m'.Wide as' l := by
  obtain ⟨p, w, hmem, hw, hnamed, hl⟩ := h
  exact ⟨p, w, has hmem, hw, hnamed, hl.mono hext hprepared⟩

/-- **What is accessed as an int is not wide.** -/
theorem SingleWidth.not_wide {m : Machine} {as : List (Place × Width)} (has : SingleWidth as)
    (hs : m.heap.Sound) {p : Place} {l : Location} (hp : (p, .bv32) ∈ as) (hl : m.Locates p l) :
    ¬ m.Wide as l := by
  rintro ⟨q, w, hq, hw, hnamed, hl'⟩
  exact hw (has _ hq _ hp (Machine.same_of_locates hs hnamed.same_self hl' hl))

/-! ## 4. The heap -/

namespace Heap

variable {G G' : Location → Prop} {h : Heap}

/-- Outside `G`, the integers in the heap are ints. -/
def IntsBut (G : Location → Prop) (h : Heap) : Prop :=
  ∀ l e, h.stored? l = some (.int e) → e.IntSound ∨ G l

theorem IntsBut.mono (hh : h.IntsBut G) (hG : ∀ l, G l → G' l) : h.IntsBut G' :=
  fun l e hl => (hh l e hl).imp_right (hG l)

/-- A store of an int, or into `G`. -/
theorem IntsBut.put (hh : h.IntsBut G) {l : Location} {x : Expr}
    (hx : ∀ e, x = .int e → e.IntSound ∨ G l) : (h.put l x).IntsBut G := by
  intro l' e hl'
  by_cases heq : l' = l
  · subst heq
    rw [stored?_put_self] at hl'
    exact hx e (Option.some.inj hl')
  · rw [stored?_put_of_ne heq] at hl'
    exact hh l' e hl'

theorem heapClosed_intsBut (G : Location → Prop) : HeapClosed IntExpr.IntSound (IntsBut G) where
  refs hfields helems hh l e hl := by
    refine hh l e (Eq.trans ?_ hl)
    cases l with
    | field k => rw [stored?, stored?, field?, field?, hfields]
    | elem k => rw [stored?, stored?, elem?, elem?, helems]
  length r e he hh := IntsBut.put (l := .field (lengthKey r)) hh fun e' heq => by
    cases heq
    exact Or.inl he

/-- The length of an array is an int if lengths are outside `G` and the array is not too long. -/
theorem IntsBut.arrayLength (hh : h.IntsBut G) {r : Ref} (hr : ¬ G (.field (lengthKey r)))
    {n : Int64} (hn : IsInt n) : (h.arrayLength r n).IntSound := by
  have hconst : (IntExpr.const n).IntSound := IntExpr.intSound_of_not_constSum hn id
  unfold Heap.arrayLength
  split
  next e he =>
    rcases current_eq (h.field? (lengthKey r)) (.int (.const n)) with hcur | hcur
    · refine (hh (.field (lengthKey r)) e ?_).resolve_right hr
      exact hcur.trans (congrArg some he)
    · cases hcur.symm.trans he
      exact hconst
  · exact hconst

end Heap

theorem isInt_lengthWord {a : HostArray} (h : a.elems.length < 2 ^ 31) :
    IsInt (Machine.lengthWord a) := by
  unfold IsInt Machine.lengthWord
  rw [Int64.toInt_ofNat_of_lt (by omega)]
  omega

/-! ## 5. Instructions -/

/-- What an instruction has accessed, if it did not fault or fail. -/
def Instruction.completed (i : Instruction) (m : Machine) : List (Place × Width) :=
  match (i.exec m).1 with
  | .ok false => i.accessed.toList
  | _ => []

theorem Instruction.mem_completed {i : Instruction} {m : Machine} {a : Place × Width}
    (hexec : (i.exec m).1 = .ok false) (ha : i.accessed = some a) : a ∈ i.completed m := by
  rw [completed, hexec, ha]
  exact List.mem_singleton_self a

/-- Every int slot holds an int, and so does the heap where no other width was accessed. -/
structure Machine.IntsFit (as : List (Place × Width)) (m : Machine) : Prop where
  sound : m.Sound
  fits : m.Fits IntExpr.IntSound (Heap.IntsBut (m.Wide as))

namespace Machine.IntsFit

variable {as as' : List (Place × Width)} {m : Machine} {i : Instruction}

/-- What the instruction leaves is told of the accesses before it. -/
theorem of_fits (hm : m.IntsFit as) (has : as ⊆ as')
    (h : (i.exec m).2.Fits IntExpr.IntSound (Heap.IntsBut (m.Wide as))) :
    (i.exec m).2.IntsFit as' := by
  obtain ⟨hsound, hext, hprepared, -⟩ := Instruction.exec_leaves hm.sound i
  exact ⟨hsound, h.heap.mono fun _ hl => hl.mono hext hprepared has, h.frames⟩

theorem load (hm : m.IntsFit as) (hload : i.isLoad = true)
    (hsingle : SingleWidth (as ++ i.completed m)) :
    (i.exec m).2.Fits IntExpr.IntSound (Heap.IntsBut (m.Wide as)) := by
  have hH := Heap.heapClosed_intsBut (m.Wide as)
  obtain ⟨hsound, hle, hplace⟩ := Instruction.origin_grows m i m hm.sound (le_refl m)
  have hover := (Instruction.origin_over hH i m hm.fits.over).1
  have hexec := congrFun (Instruction.exec_load hload) m
  rw [Act.bind_apply] at hexec
  rcases hfound : i.origin m with ⟨_ | x, m₁⟩
  · rw [hfound] at hover hexec
    rw [hexec]
    exact hover.fits hm.fits.frames
  · rw [hfound] at hover hexec hplace hsound hle
    dsimp only at hexec hplace hsound hle
    rw [hexec]
    refine Over.fits (fetch_over IntExpr.intClosed_intSound hH hover ?_) hm.fits.frames
    -- the location was not accessed at another width, since it is now as an int
    intro hok l v hx h hh e hl
    obtain ⟨p, hp, hlocates⟩ := hplace x rfl l .bv32 v hx
    rw [← hexec] at hok
    have hmem := List.mem_append_right as (Instruction.mem_completed hok hp)
    refine (hh l e hl).resolve_right fun hwide => ?_
    exact hsingle.not_wide hsound.heap hmem hlocates
      (hwide.mono hle.1.toExtends hle.2 (List.subset_append_left _ _))

theorem store (hm : m.IntsFit as) (hstore : i.isStore = true)
    (hnamed : ∀ p w, i.accessed = some (p, w) → p.Named) :
    (i.exec m).2.IntsFit (as ++ i.completed m) := by
  have hH := Heap.heapClosed_intsBut (m.Wide as)
  obtain ⟨hover, hints⟩ := Instruction.target_over hH i m hm.fits.over
  obtain ⟨hsound, hext, hprepared, -⟩ := Instruction.exec_leaves hm.sound i
  obtain ⟨-, -, hplace⟩ := Instruction.target_grows m i m hm.sound (le_refl m)
  rcases Instruction.exec_store_cases hstore m with ⟨-, heq⟩ | ⟨l, o, m₁, hfound, hexec⟩
  · refine hm.of_fits (List.subset_append_left _ _) ?_
    rw [heq]
    exact hover.fits hm.fits.frames
  · rw [hfound] at hover hints hplace
    obtain ⟨-, p, hp, hlocates⟩ := hplace (some (l, o)) rfl l o rfl
    have haccess := Instruction.target_accessed hfound hp
    have hmem := Instruction.mem_completed (by rw [hexec]) haccess
    have hfits := hover.fits hm.fits.frames
    refine ⟨hsound, ?_⟩
    rw [hexec] at hext hprepared ⊢
    refine ⟨Heap.IntsBut.put (hfits.heap.mono fun _ hl => ?_) fun e he => ?_, hfits.frames⟩
    · exact hl.mono hext hprepared (List.subset_append_left _ _)
    · cases o with
      | bv32 e' =>
        cases he
        exact Or.inl (hints _ rfl l _ rfl)
      | bv64 e' =>
        refine Or.inr ⟨p, .bv64, List.mem_append_right _ hmem, by decide, hnamed _ _ haccess, ?_⟩
        exact hlocates.mono (Heap.extends_put _ _ _) (List.Subset.refl _)
      | _ => cases he

/-- **One instruction.**  Int slots hold ints after it, if it names its place, accesses it at the
same width as before, and asks only for lengths that are ints. -/
theorem exec (hm : m.IntsFit as)
    (hlen : ∀ a, i = .arrayLength (some a) → a.elems.length < 2 ^ 31)
    (hnamed : ∀ p w, i.accessed = some (p, w) → p.Named)
    (hsingle : SingleWidth (as ++ i.completed m)) :
    (i.exec m).2.IntsFit (as ++ i.completed m) := by
  cases hstore : i.isStore with
  | true => exact hm.store hstore hnamed
  | false =>
    refine hm.of_fits (List.subset_append_left _ _) ?_
    cases hload : i.isLoad with
    | true => exact hm.load hload hsingle
    | false =>
      refine (Instruction.exec_fits IntExpr.intClosed_intSound (Heap.heapClosed_intsBut _) hload
        hstore (fun a ha h r hh => ?_) m hm.fits).1
      refine hh.arrayLength (fun hwide => ?_) (isInt_lengthWord (hlen a ha))
      obtain ⟨p, w, -, -, hp, hl⟩ := hwide
      exact hp.not_length m r hl

end Machine.IntsFit

end Concolic
