import Concolic.Proofs.ArrayRoundTrip
import Concolic.Proofs.Declarations
import Concolic.Proofs.Literals

/-
# Arguments and their bounds

An argument that is an integer is compared with its bounds when it is read, so that the input it
becomes lies within them, and these within the range of the type.  An argument that is a real is not
compared: whatever can be read is accepted.  The input lies within its bounds if it happens to; only
bounds that are not given take care of themselves, as every number of the precision lies between the
largest one and its negative (`largest_atMost`).

The script for a solver declares the input with its bounds.  For integers the concrete value
satisfies them.  For reals it may fail to in a second way: bounds are asserted as they are written
(`operand_within_bounds_iff`).
-/
namespace Concolic

/-! ## 1. Inputs within their bounds -/

/-- The concrete value lies between the bounds. -/
def IntVar.InBounds (x : IntVar) : Prop :=
  x.min.toInt ≤ x.concrete.toInt ∧ x.concrete.toInt ≤ x.max.toInt

/-- The concrete value lies between the bounds; not-a-number never does. -/
def RealVar.InBounds (x : RealVar) : Prop :=
  x.min.AtMost x.concrete ∧ x.concrete.AtMost x.max

instance (x : RealVar) : Decidable x.InBounds := instDecidableAnd

theorem IntVar.InBounds.admits {x : IntVar} (h : x.InBounds) :
    Smt.Admits (.int x) x.concrete.toInt := by
  rw [Smt.admits_int_iff]
  exact ⟨by exact_mod_cast h.1, by exact_mod_cast h.2⟩

namespace Host

/-! ## 2. Integers -/

variable {t : IntType} {a : Trace.Arg} {o : Operand}

theorem IntType.toInt_ofInt {v : Int} (hv : t.lo ≤ v ∧ v ≤ t.hi) : (Int64.ofInt v).toInt = v := by
  have hlo : Int64.minValue.toInt ≤ t.lo := by cases t <;> decide
  have hhi : t.hi ≤ Int64.maxValue.toInt := by cases t <;> decide
  exact Int64.toInt_ofInt_of_le (hlo.trans hv.1) (Int.lt_of_le_of_lt (hv.2.trans hhi) (by decide))

theorem IntType.ofDesc?_eq_long {s : String} : IntType.ofDesc? s = some .long ↔ s = "J" := by
  constructor
  · intro h
    unfold ofDesc? at h
    split at h <;> cases h
    rfl
  · rintro rfl
    rfl

theorem IntType.operand_wide_iff {e : IntExpr} : (∃ e', t.operand e = .bv64 e') ↔ t = .long := by
  unfold operand
  split
  next hlong => simp [hlong]
  next hshort => simp [hshort]

theorem IntType.lo_le_hi (t : IntType) : t.lo ≤ t.hi := t.zero_mem.1.trans t.zero_mem.2

/-- **A named integer that is accepted lies within its bounds,** and these in the range of its
type. -/
theorem inBounds_of_intOperand (hname : a.name ≠ "") (h : intOperand t a = .ok o) :
    ∃ x : IntVar, o = t.operand (.var x) ∧ x.name = a.name ∧ t.lo ≤ x.min.toInt ∧
      x.max.toInt ≤ t.hi ∧ x.InBounds := by
  obtain ⟨v, hv, h⟩ := Smt.ok_of_bind h
  obtain ⟨lo, hlo, h⟩ := Smt.ok_of_bind h
  obtain ⟨hi, hhi, h⟩ := Smt.ok_of_bind h
  replace hv := readInt_yields _ _ t _ t.zero_mem v hv
  replace hlo := readInt_yields _ _ t _ ⟨le_rfl, t.lo_le_hi⟩ lo hlo
  replace hhi := readInt_yields _ _ t _ ⟨t.lo_le_hi, le_rfl⟩ hi hhi
  dsimp only at h
  by_cases hout : v < lo ∨ hi < v
  · rw [if_pos hout] at h
    cases h
  rw [if_neg hout, if_neg hname] at h
  refine ⟨⟨a.name, .ofInt v, .ofInt lo, .ofInt hi⟩, (Except.ok.inj h).symm, rfl, ?_⟩
  unfold IntVar.InBounds
  dsimp only
  rw [IntType.toInt_ofInt hv, IntType.toInt_ofInt hlo, IntType.toInt_ofInt hhi]
  omega

/-! ## 3. Reals -/

open Ieee Numeral

variable {p : Precision} {v : Double}

theorem value?_largest (p : Precision) (neg : Bool) :
    (largest p neg).value? = some (Double.signed neg p.format.greatest) := by
  cases p with
  | single =>
    have hview : (Double.largestSingle neg).view = .finite neg 9007198717870080 75 := by
      cases neg <;> decide
    rw [largest, Double.value?_of_view hview]
    norm_num [Precision.format, Format.greatest, binary32, Format.maxExponent]
  | double =>
    have hview : (Double.largest neg).view = .finite neg 9007199254740991 971 := by
      cases neg <;> decide
    rw [largest, Double.value?_of_view hview]
    norm_num [Precision.format, Format.greatest, binary64, Format.maxExponent]

/-- **A bound that is not given excludes an infinity only.** -/
theorem largest_atMost (hv : p.Holds v) (hnan : v.isNaN = false) :
    ((largest p true).AtMost v ↔ v ≠ .infinity true) ∧
      (v.AtMost (largest p false) ↔ v ≠ .infinity false) := by
  cases hview : v.view with
  | nan =>
    rw [Double.isNaN, hview] at hnan
    cases hnan
  | infinite neg =>
    rw [Double.eq_infinity_of_view hview]
    cases p <;> cases neg <;> decide
  | finite neg m q =>
    have hvalue := Double.value?_of_view hview
    have hne : ∀ b, v ≠ .infinity b := by
      rintro b rfl
      rw [Double.value?_infinity] at hvalue
      cases hvalue
    obtain ⟨hlow, hhigh⟩ := hv.le_greatest hvalue
    rw [Double.atMost_iff (value?_largest p true) hvalue,
      Double.atMost_iff hvalue (value?_largest p false)]
    exact ⟨iff_of_true hlow (hne _), iff_of_true hhigh (hne _)⟩

/-- The precision of a type that is a real. -/
def realType? : String → Option Precision
  | "F" => some .single
  | "D" => some .double
  | _ => none

/-- An input of a precision as an operand. -/
def realInput (p : Precision) (x : RealVar) : Operand :=
  match p with
  | .single => .fp32 (.var x)
  | .double => .fp64 (.var x)

/-- The texts of the argument give the value and the bounds of the input. -/
structure Describes (p : Precision) (a : Trace.Arg) (x : RealVar) : Prop where
  name : x.name = a.name
  value : readReal a.name .value p a.value (.zero false) = .ok x.concrete
  min : readReal a.name .min p a.min (largest p true) = .ok x.min
  max : readReal a.name .max p a.max (largest p false) = .ok x.max

/-- **A named real is accepted as it is read,** without a look at its bounds. -/
theorem realOperand_eq_ok_iff (hname : a.name ≠ "") :
    realOperand p a = .ok o ↔ ∃ x, Describes p a x ∧ o = realInput p x := by
  constructor
  · intro h
    obtain ⟨v, hv, h⟩ := Smt.ok_of_bind h
    obtain ⟨lo, hlo, h⟩ := Smt.ok_of_bind h
    obtain ⟨hi, hhi, h⟩ := Smt.ok_of_bind h
    dsimp only at h
    rw [if_neg hname] at h
    refine ⟨⟨a.name, v, lo, hi⟩, ⟨rfl, hv, hlo, hhi⟩, ?_⟩
    rw [← Except.ok.inj h]
    cases p <;> rfl
  · rintro ⟨x, ⟨hx, hv, hlo, hhi⟩, rfl⟩
    unfold realOperand
    rw [hv, hlo, hhi, ← hx]
    rw [← hx] at hname
    simp only [bind, Except.bind, pure, Except.pure, if_neg hname]
    cases p <;> rfl

theorem holds_of_readReal {name s : String} {part : ArgPart} {default : Double}
    (hdefault : p.Holds default) (h : readReal name part p s default = .ok v) : p.Holds v := by
  unfold readReal at h
  split at h
  · cases h
    exact hdefault
  · split at h
    · cases h
    next hread =>
      cases h
      exact holds_of_parseReal hread

theorem eq_default_of_readReal {name s : String} {part : ArgPart} {default : Double} (hs : s = "")
    (h : readReal name part p s default = .ok v) : v = default := by
  rw [readReal, if_pos hs] at h
  exact (Except.ok.inj h).symm

/-- **When a real lies within its bounds.**  A number does, if no bounds are given. -/
theorem Describes.inBounds_iff {x : RealVar} (h : Describes p a x) :
    x.InBounds ↔ x.concrete.isNaN = false ∧
      (if a.min = "" then x.concrete ≠ .infinity true else x.min.AtMost x.concrete) ∧
      (if a.max = "" then x.concrete ≠ .infinity false else x.concrete.AtMost x.max) := by
  have hholds := holds_of_readReal (holds_zero p false) h.value
  have hnumber : x.InBounds → x.concrete.isNaN = false := fun hx => hx.1.2.1
  rw [← and_iff_right_of_imp hnumber]
  refine and_congr_right fun hnan => and_congr ?_ ?_
  · split
    next hempty => rw [eq_default_of_readReal hempty h.min, (largest_atMost hholds hnan).1]
    · rfl
  · split
    next hempty => rw [eq_default_of_readReal hempty h.max, (largest_atMost hholds hnan).2]
    · rfl

/-! ## 4. Arguments -/

variable {h : Host}

theorem operand_int (ht : IntType.ofDesc? a.type = some t) (heap : Heap) :
    (h.operand a heap).1 = .ok (intOperand t a) := by
  have hargument : h.argument a = (intOperand t a).map .inl := by rw [argument, ht]
  rw [operand, hargument]
  cases intOperand t a <;> rfl

theorem operand_real (hp : realType? a.type = some p) (heap : Heap) :
    (h.operand a heap).1 = .ok (realOperand p a) := by
  have hargument : h.argument a = (realOperand p a).map .inl := by
    unfold realType? at hp
    unfold argument
    split at hp
    next htype =>
      cases hp
      rw [htype]
      rfl
    next htype =>
      cases hp
      rw [htype]
      rfl
    · cases hp
  rw [operand, hargument]
  cases realOperand p a <;> rfl

/-- **Named arguments of primitive types within their bounds.**  An integer that is accepted lies
within its bounds, and these in the range of its type; only a `long` is wide; and the script that
declares the input admits its value.

A real is accepted if its texts can be read.  Then it lies within its bounds exactly if it is a
number that those bounds allow which are given, and no infinity where none is.  The script admits
its value exactly if every bound that is asserted allows it strictly, or is equal to it and written
with a literal that is not farther inside. -/
theorem operand_within_bounds_iff (h : Host) (a : Trace.Arg) (heap : Heap) (o : Operand)
    (hname : a.name ≠ "") :
    (∀ t, IntType.ofDesc? a.type = some t → (h.operand a heap).1 = .ok (.ok o) →
      ((∃ e, o = .bv64 e) ↔ a.type = "J") ∧
      ∃ x : IntVar, o = t.operand (.var x) ∧ x.name = a.name ∧ t.lo ≤ x.min.toInt ∧
        x.max.toInt ≤ t.hi ∧ x.InBounds ∧ Smt.Admits (.int x) x.concrete.toInt) ∧
    (∀ p, realType? a.type = some p →
      ((h.operand a heap).1 = .ok (.ok o) ↔ ∃ x, Describes p a x ∧ o = realInput p x) ∧
      ∀ x, Describes p a x →
        (x.InBounds ↔ x.concrete.isNaN = false ∧
          (if a.min = "" then x.concrete ≠ .infinity true else x.min.AtMost x.concrete) ∧
          (if a.max = "" then x.concrete ≠ .infinity false else x.concrete.AtMost x.max)) ∧
        ∀ r, x.concrete.value? = some r →
          (Smt.Admits (.real x) r ↔
            (x.min ≠ .largest true →
              ∀ w, x.min.value? = some w → w < r ∨ w = r ∧ x.min.literal ≤ w) ∧
            (x.max ≠ .largest false →
              ∀ w, x.max.value? = some w → r < w ∨ r = w ∧ w ≤ x.max.literal))) := by
  constructor
  · intro t ht hok
    rw [operand_int ht] at hok
    obtain ⟨x, rfl, hx, hlo, hhi, hbounds⟩ := inBounds_of_intOperand hname (Except.ok.inj hok)
    refine ⟨?_, x, rfl, hx, hlo, hhi, hbounds, hbounds.admits⟩
    rw [← IntType.ofDesc?_eq_long, ht, Option.some.injEq]
    exact IntType.operand_wide_iff
  · intro p hp
    rw [operand_real hp, Except.ok.injEq]
    exact ⟨realOperand_eq_ok_iff hname,
      fun x hx => ⟨hx.inBounds_iff, fun r hr => Smt.admits_real_iff x hr⟩⟩

/-- A real that is given as its own least value.  No double is equal to three tenths. -/
def threeTenths : Trace.Arg := ⟨"D", "x", "0.3", "0.3", "", ""⟩

/-- The input for it; the double is a little less than three tenths. -/
def threeTenthsInput : RealVar :=
  ⟨"x", ⟨0x3FD3333333333333⟩, ⟨0x3FD3333333333333⟩, .largest false⟩

/-- The input lies within its bounds, and the script that declares it excludes it. -/
theorem threeTenths_not_admitted :
    ((⟨[], [], []⟩ : Host).operand threeTenths {}).1 = .ok (.ok (.fp64 (.var threeTenthsInput))) ∧
      threeTenthsInput.InBounds ∧
      ¬ Smt.Admits (.real threeTenthsInput) (5404319552844595 * 2 ^ (-54 : Int)) := by
  have hx : Describes .double threeTenths threeTenthsInput :=
    ⟨rfl, by decide, by decide, rfl⟩
  have hview : threeTenthsInput.concrete.view = .finite false 5404319552844595 (-54) := by decide
  have hvalue := Double.value?_of_view hview
  have hliteral : threeTenthsInput.concrete.literal = 3 / 10 := by
    rw [Double.literal_of_view hview, written, if_neg (by decide),
      show shortest 5404319552844595 (-54) = ⟨3, -1⟩ by decide]
    norm_num [Double.signed, Decimal.value]
  obtain ⟨-, hreal⟩ := operand_within_bounds_iff ⟨[], [], []⟩ threeTenths {}
    (.fp64 (.var threeTenthsInput)) (by decide)
  obtain ⟨haccepted, hinput⟩ := hreal .double rfl
  obtain ⟨hbounds, hadmits⟩ := hinput _ hx
  refine ⟨haccepted.mpr ⟨_, hx, rfl⟩, hbounds.mpr (by decide +kernel), fun h => ?_⟩
  obtain ⟨hlower, -⟩ := (hadmits _ hvalue).mp h
  rcases hlower (by decide) _ hvalue with hlt | ⟨-, hle⟩
  · exact absurd hlt (lt_irrefl _)
  · rw [show threeTenthsInput.min = threeTenthsInput.concrete from rfl, hliteral] at hle
    norm_num [Double.signed] at hle

/-- **A real above its greatest value is accepted.** -/
theorem five_above_one_accepted :
    ∃ x : RealVar, ((⟨[], [], []⟩ : Host).operand ⟨"D", "x", "5", "0", "1", ""⟩ {}).1 =
        .ok (.ok (.fp64 (.var x))) ∧
      x.max.less x.concrete = true ∧ ¬ x.InBounds :=
  ⟨⟨"x", ⟨0x4014000000000000⟩, ⟨0⟩, ⟨0x3FF0000000000000⟩⟩, by decide +kernel, by decide +kernel,
    by decide +kernel⟩

end Host

end Concolic
