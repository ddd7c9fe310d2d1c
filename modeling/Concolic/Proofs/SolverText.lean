import Concolic.Proofs.Outcomes
import Concolic.Proofs.SolverLanguage

/-
# The text of a constraint means the constraint

A constraint between integers is handed to the solver as text.  The solver reads the text and gives
it a value in which integers are unbounded and division is Euclidean.  The constraint itself is
meant with division that cuts toward zero; the translation has to make up for the difference.

The argument has two halves.

* Reading: the text of a term is read back as one S-expression, with the value that the term has
  (`Legible.spells`).  Negative literals, names between bars and the copies of operands inside a
  quotient need no case of their own: each is a word or a list of parts that are spelled.
* Arithmetic: the term of an expression has the exact value of the expression, at every node
  (`statable_ofIntExpr`).  The only nodes with an argument are the quotient and the remainder.

Together they say that the text is true in a model exactly if the constraint holds there
(`read_ofConstraint`).
-/
namespace Concolic

namespace Smt

/-! ## 1. Terms that can be read -/

/-- A name for a variable: a simple symbol that has no other meaning. -/
def IsVariable (s : String) : Prop :=
  isSimpleSymbol s.toList = true ∧ s ∉ reservedWords ∧ s ∉ theoryFunctions

instance (s : String) : Decidable (IsVariable s) := inferInstanceAs (Decidable (_ ∧ _))

/-- The term is made of numerals, variables and functions of the theory. -/
def Term.Legible : Term → Prop
  | numeral _ => True
  | symbol s => IsVariable s
  | app1 f a => f ∈ theoryFunctions ∧ a.Legible
  | app2 f a b => f ∈ theoryFunctions ∧ a.Legible ∧ b.Legible
  | ite c a b => c.Legible ∧ a.Legible ∧ b.Legible
  | fraction _ => False
  | text _ => False

/-- The value of a term. -/
def Term.value (m : Model) : Term → Option Val
  | numeral n => some (.int n)
  | symbol s => some (.int (m.value s))
  | app1 f a => do m.apply f [← a.value m]
  | app2 f a b => do m.apply f [← a.value m, ← b.value m]
  | ite c a b => do m.apply "ite" [← c.value m, ← a.value m, ← b.value m]
  | fraction _ => none
  | text _ => none

/-! ## 2. Words read back -/

theorem toDigits_head_ne_zero {n : Nat} (h : 0 < n) : (Nat.toDigits 10 n).head? ≠ some '0' := by
  induction n using Nat.strongRecOn with
  | ind n ih =>
    rw [Nat.toDigits_eq_if (by decide)]
    split
    case isTrue hlt =>
      have hdigit : ∀ n < 10, 0 < n → n.digitChar ≠ '0' := by decide
      simpa using hdigit n hlt h
    case isFalse hge =>
      have hsome := ih (n / 10) (by omega) (by omega)
      rw [List.head?_append_of_ne_nil _ Nat.toDigits_ne_nil]
      exact hsome

/-- **A number is read back from its digits.** -/
theorem numeral_toDigits (n : Nat) : numeral? (Nat.toDigits 10 n) = some (.numeral n) := by
  rcases Nat.eq_zero_or_pos n with rfl | hpos
  · decide
  · have hhead := toDigits_head_ne_zero hpos
    have hvalue := Nat.ofDigitChars_toDigits (b := 10) (n := n) (by decide) (by decide)
    unfold numeral?
    split
    case h_1 heq => simp [heq] at hhead
    case h_2 heq => simp [heq] at hhead
    case h_3 => rw [hvalue]

theorem spells_numeral (n : Nat) : Spells (Nat.repr n).toList (.atom (.numeral n)) := by
  rw [Nat.toList_repr]
  have hdigits : ∀ c ∈ Nat.toDigits 10 n, c.isDigit = true :=
    fun c hc => Nat.isDigit_of_mem_toDigits (by decide) (by decide) hc
  refine spells_atom (lexes_word Nat.toDigits_ne_nil (fun c hc => ?_) ?_)
  · simp [isWordChar, Char.isAlphanum, hdigits c hc]
  · rw [word?, if_pos (List.all_eq_true.mpr hdigits), numeral_toDigits]

theorem isSimpleSymbol_parts {cs : List Char} (h : isSimpleSymbol cs = true) :
    cs ≠ [] ∧ cs.all Char.isDigit = false ∧ ∀ c ∈ cs, isWordChar c = true := by
  cases cs with
  | nil => simp [isSimpleSymbol] at h
  | cons c cs =>
    simp only [isSimpleSymbol, Bool.and_eq_true, Bool.not_eq_true'] at h
    refine ⟨by simp, by simp [h.1], List.all_eq_true.mp h.2⟩

/-- A simple symbol that is not reserved is read as itself. -/
theorem spells_simple {s : String} (h : isSimpleSymbol s.toList = true)
    (hr : s ∉ reservedWords) : Spells s.toList (.symbol s) := by
  obtain ⟨hne, hdigits, hchars⟩ := isSimpleSymbol_parts h
  refine spells_atom (lexes_word hne hchars ?_)
  simp [word?, hdigits, h, hr]

/-- A variable is read as itself, with bars and without. -/
theorem spells_symbolText {s : String} (h : IsVariable s) :
    Spells (symbolText s).toList (.symbol s) := by
  obtain ⟨hsimple, hreserved, -⟩ := h
  unfold symbolText
  split
  case isTrue => exact spells_simple hsimple hreserved
  case isFalse =>
    have hchars := (isSimpleSymbol_parts hsimple).2.2
    have hplain : ∀ c ∈ s.toList, c ≠ '|' ∧ c ≠ '\\' := by
      intro c hc
      constructor
      all_goals
        rintro rfl
        exact absurd (hchars _ hc) (by decide)
    have hmap : s.toList.map (fun c => if c = '|' then '_' else c) = s.toList := by
      conv => rhs; rw [← List.map_id s.toList]
      exact List.map_congr_left fun c hc => if_neg (hplain c hc).1
    have hspells := spells_atom (lexes_bars hplain)
    rw [String.ofList_toList] at hspells
    simpa [hmap, Sexp.symbol] using hspells

theorem spells_function {f : String} (hf : f ∈ theoryFunctions) : Spells f.toList (.symbol f) := by
  have hall : ∀ f ∈ theoryFunctions,
      isSimpleSymbol f.toList = true ∧ f ∉ reservedWords := by decide
  exact spells_simple (hall f hf).1 (hall f hf).2

/-! ## 3. Terms read back -/

theorem value_symbol {m : Model} {s : String} (h : IsVariable s) :
    (Sexp.symbol s).value m = some (.int (m.value s)) := by
  simp [Sexp.symbol, Sexp.value, h.2.2]

/-- **The text of a term is one S-expression, and its value is that of the term.** -/
theorem Term.Legible.spells {t : Term} (h : t.Legible) :
    ∃ x, Spells t.render.toList x ∧ ∀ m, x.value m = t.value m := by
  induction t with
  | numeral n => exact ⟨_, spells_numeral n, fun m => by simp [Sexp.value, Term.value]⟩
  | symbol s => exact ⟨_, spells_symbolText h, fun m => value_symbol h⟩
  | app1 f a iha =>
    obtain ⟨hf, ha⟩ := h
    obtain ⟨x, hx, hvx⟩ := iha ha
    have hlist := spells_list (spells_function hf) [(a.render.toList, x)] (by simpa using hx)
    refine ⟨_, by simpa [render, blanked] using hlist, fun m => ?_⟩
    simp [Sexp.symbol, Sexp.value, values, Term.value, Option.bind_assoc, hvx]
  | app2 f a b iha ihb =>
    obtain ⟨hf, ha, hb⟩ := h
    obtain ⟨x, hx, hvx⟩ := iha ha
    obtain ⟨y, hy, hvy⟩ := ihb hb
    have hlist := spells_list (spells_function hf)
      [(a.render.toList, x), (b.render.toList, y)] (by simpa using ⟨hx, hy⟩)
    refine ⟨_, by simpa [render, blanked] using hlist, fun m => ?_⟩
    simp [Sexp.symbol, Sexp.value, values, Term.value, Option.bind_assoc, hvx, hvy]
  | ite c a b ihc iha ihb =>
    obtain ⟨hc, ha, hb⟩ := h
    obtain ⟨z, hz, hvz⟩ := ihc hc
    obtain ⟨x, hx, hvx⟩ := iha ha
    obtain ⟨y, hy, hvy⟩ := ihb hb
    have hlist := spells_list (spells_function (f := "ite") (by decide))
      [(c.render.toList, z), (a.render.toList, x), (b.render.toList, y)]
      (by simpa using ⟨hz, hx, hy⟩)
    refine ⟨_, by simpa [render, blanked] using hlist, fun m => ?_⟩
    simp [Sexp.symbol, Sexp.value, values, Term.value, Option.bind_assoc, hvx, hvy, hvz]
  | fraction => exact h.elim
  | text => exact h.elim

end Smt

/-! ## 4. Exact values -/

/-- What an operator makes of two integers.  The quotient is cut toward zero, the remainder has the
sign of the dividend, and there is neither by zero. -/
def Operator.exact : Operator → Int → Int → Option Int
  | add, a, b => some (a + b)
  | sub, a, b => some (a - b)
  | mul, a, b => some (a * b)
  | div, a, b => if b = 0 then none else some (a.tdiv b)
  | rem, a, b => if b = 0 then none else some (a.tmod b)
  | _, _, _ => none

namespace IntExpr

/-- The exact value of an expression, where the inputs have the values `σ`; there is none if a
divisor is zero. -/
def exact (σ : String → Int) : IntExpr → Option Int
  | const v => some v.toInt
  | var x => some (σ x.name)
  | binary l op r _ => do op.exact (← l.exact σ) (← r.exact σ)
  | unary op x _ => do if op = .neg then return -(← x.exact σ) else none
  | compare l r _ => do return ((← l.exact σ) - (← r.exact σ)).sign
  | compareReal .. => none
  | ofReal .. => none

/-- The expression is made of constants, variables, arithmetic on integers and their comparison. -/
def Statable : IntExpr → Prop
  | const _ => True
  | var x => Smt.IsVariable x.name
  | binary l op r _ => op.isArithmetic = true ∧ l.Statable ∧ r.Statable
  | unary op x _ => op = .neg ∧ x.Statable
  | compare l r _ => l.Statable ∧ r.Statable
  | compareReal .. => False
  | ofReal .. => False

end IntExpr

/-! ## 5. The values of terms -/

namespace Smt

namespace Term

variable {m : Model} {s t : Term} {a b : Int}

theorem legible_ofInt (v : Int) : (ofInt v).Legible := by
  unfold ofInt
  split
  · exact ⟨by decide, trivial⟩
  · trivial

theorem value_negated (hs : s.value m = some (.int a)) : s.negated.value m = some (.int (-a)) := by
  simp [negated, value, Model.apply, hs]

/-- **A literal has its value, also below zero.** -/
theorem value_ofInt (m : Model) (v : Int) : (ofInt v).value m = some (.int v) := by
  unfold ofInt
  split
  case isTrue hneg =>
    have habs : -(v.natAbs : Int) = v := by omega
    rw [value_negated (a := v.natAbs) rfl, habs]
  case isFalse hpos =>
    have habs : (v.natAbs : Int) = v := by omega
    rw [value, habs]

/-- **The quotient of Euclidean division on the absolute value of the dividend is the one cut toward
zero,** whatever the sign of the divisor. -/
theorem tdiv_eq_ite (a b : Int) : a.tdiv b = if 0 ≤ a then a / b else -(-a / b) := by
  split
  case isTrue hpos => exact Int.tdiv_eq_ediv_of_nonneg hpos
  case isFalse hneg =>
    have hpos : 0 ≤ -a := by omega
    rw [← Int.tdiv_eq_ediv_of_nonneg hpos, Int.neg_tdiv, Int.neg_neg]

theorem value_quotient (hs : s.value m = some (.int a)) (ht : t.value m = some (.int b))
    (hb : b ≠ 0) : (quotient s t).value m = some (.int (a.tdiv b)) := by
  rw [tdiv_eq_ite]
  by_cases hpos : 0 ≤ a
  · simp [quotient, negated, value, Model.apply, hs, ht, hb, hpos]
  · simp [quotient, negated, value, Model.apply, hs, ht, hb, hpos]

theorem value_remainder (hs : s.value m = some (.int a)) (ht : t.value m = some (.int b))
    (hb : b ≠ 0) : (remainder s t).value m = some (.int (a.tmod b)) := by
  have hquotient := value_quotient hs ht hb
  rw [Int.tmod_def]
  simp [remainder, value, Model.apply, hs, ht, hquotient]

theorem value_threeWay (hs : s.value m = some (.int a)) (ht : t.value m = some (.int b)) :
    (threeWay s t).value m = some (.int (a - b).sign) := by
  have hsign : (a - b).sign = if a < b then -1 else if b < a then 1 else 0 := by
    rcases Int.lt_trichotomy a b with hlt | rfl | hgt
    · rw [if_pos hlt, Int.sign_eq_neg_one_of_neg (by omega)]
    · simp
    · rw [if_neg (by omega), if_pos hgt, Int.sign_eq_one_of_pos (by omega)]
  simp [threeWay, negated, value, Model.apply, hs, ht, hsign]

theorem legible_quotient (hs : s.Legible) (ht : t.Legible) : (quotient s t).Legible := by
  have hge : ">=" ∈ theoryFunctions := by decide
  have hdiv : "div" ∈ theoryFunctions := by decide
  have hneg : "-" ∈ theoryFunctions := by decide
  exact ⟨⟨hge, hs, trivial⟩, ⟨hdiv, hs, ht⟩, hneg, hdiv, ⟨hneg, hs⟩, ht⟩

theorem legible_threeWay (hs : s.Legible) (ht : t.Legible) : (threeWay s t).Legible := by
  have hlt : "<" ∈ theoryFunctions := by decide
  have hgt : ">" ∈ theoryFunctions := by decide
  have hneg : "-" ∈ theoryFunctions := by decide
  exact ⟨⟨hlt, hs, ht⟩, ⟨hneg, trivial⟩, ⟨hgt, hs, ht⟩, trivial, trivial⟩

/-- **The term of an operation has the value of the operation.** -/
theorem ofIntBinary_spec {op : Operator} (hop : op.isArithmetic = true) (hs : s.Legible)
    (ht : t.Legible) :
    ∃ u, ofIntBinary op s t = some u ∧ u.Legible ∧
      ∀ m a b c, s.value m = some (.int a) → t.value m = some (.int b) →
        op.exact a b = some c → u.value m = some (.int c) := by
  cases op with
  | add =>
    refine ⟨_, rfl, ⟨by decide, hs, ht⟩, fun m a b c ha hb hc => ?_⟩
    cases hc
    simp [value, Model.apply, ha, hb]
  | sub =>
    refine ⟨_, rfl, ⟨by decide, hs, ht⟩, fun m a b c ha hb hc => ?_⟩
    cases hc
    simp [value, Model.apply, ha, hb]
  | mul =>
    refine ⟨_, rfl, ⟨by decide, hs, ht⟩, fun m a b c ha hb hc => ?_⟩
    cases hc
    simp [value, Model.apply, ha, hb]
  | div =>
    refine ⟨_, rfl, legible_quotient hs ht, fun m a b c ha hb hc => ?_⟩
    obtain ⟨hne, rfl⟩ : b ≠ 0 ∧ a.tdiv b = c := by simpa [Operator.exact] using hc
    exact value_quotient ha hb hne
  | rem =>
    refine ⟨_, rfl, ⟨by decide, hs, by decide, ht, legible_quotient hs ht⟩,
      fun m a b c ha hb hc => ?_⟩
    obtain ⟨hne, rfl⟩ : b ≠ 0 ∧ a.tmod b = c := by simpa [Operator.exact] using hc
    exact value_remainder ha hb hne
  | _ => cases hop

/-- **The term of a relation is true exactly if the relation holds.** -/
theorem relation_spec (ρ : Relation) (hs : s.Legible) (ht : t.Legible) :
    (relation ρ s t).Legible ∧
      ∀ m a b, s.value m = some (.int a) → t.value m = some (.int b) →
        ∃ truth, (relation ρ s t).value m = some (.bool truth) ∧
          (truth = true ↔ ρ.Relates a b) := by
  cases ρ with
  | ne =>
    refine ⟨⟨by decide, by decide, hs, ht⟩, fun m a b ha hb => ⟨!decide (a = b), ?_, ?_⟩⟩
    · simp [relation, value, Model.apply, ha, hb]
    · simp [Relation.Relates]
  | eq | lt | le | gt | ge =>
    refine ⟨⟨by decide, hs, ht⟩, fun m a b ha hb => ?_⟩
    simp [relation, value, Model.apply, ha, hb, Relation.Relates]

end Term

/-! ## 6. Constraints -/

/-- **Every statable expression has a term, and the term has the exact value of the expression.** -/
theorem statable_ofIntExpr {e : IntExpr} (he : e.Statable) :
    ∃ t, Term.ofIntExpr e = .ok t ∧ t.Legible ∧
      ∀ m a, e.exact m.value = some a → t.value m = some (.int a) := by
  induction e with
  | const v =>
    refine ⟨_, rfl, Term.legible_ofInt _, fun m a ha => ?_⟩
    cases ha
    exact Term.value_ofInt m _
  | var x =>
    refine ⟨_, rfl, he, fun m a ha => ?_⟩
    cases ha
    rfl
  | binary l op r c ihl ihr =>
    obtain ⟨hop, hl, hr⟩ := he
    obtain ⟨s, hs, hslegible, hsvalue⟩ := ihl hl
    obtain ⟨t, ht, htlegible, htvalue⟩ := ihr hr
    obtain ⟨u, hu, hulegible, huvalue⟩ := Term.ofIntBinary_spec hop hslegible htlegible
    refine ⟨u, ?_, hulegible, fun m v hv => ?_⟩
    · simp [Term.ofIntExpr, hs, ht, hu, supported, bind, Except.bind]
    · obtain ⟨a, ha, b, hb, hv⟩ : ∃ a, l.exact m.value = some a ∧ ∃ b, r.exact m.value = some b ∧
          op.exact a b = some v := by
        simpa [IntExpr.exact, Option.bind_eq_some_iff] using hv
      exact huvalue m a b v (hsvalue m a ha) (htvalue m b hb) hv
  | unary op x c ih =>
    obtain ⟨rfl, hx⟩ := he
    obtain ⟨t, ht, hlegible, hvalue⟩ := ih hx
    refine ⟨t.negated, ?_, ⟨by decide, hlegible⟩, fun m v hv => ?_⟩
    · simp [Term.ofIntExpr, ht, Except.map]
    · obtain ⟨a, ha, rfl⟩ : ∃ a, x.exact m.value = some a ∧ -a = v := by
        simpa [IntExpr.exact, Option.bind_eq_some_iff] using hv
      exact Term.value_negated (hvalue m a ha)
  | compare l r c ihl ihr =>
    obtain ⟨hl, hr⟩ := he
    obtain ⟨s, hs, hslegible, hsvalue⟩ := ihl hl
    obtain ⟨t, ht, htlegible, htvalue⟩ := ihr hr
    refine ⟨Term.threeWay s t, ?_, Term.legible_threeWay hslegible htlegible, fun m v hv => ?_⟩
    · simp [Term.ofIntExpr, hs, ht, bind, Except.bind, pure, Except.pure]
    · obtain ⟨a, ha, b, hb, rfl⟩ : ∃ a, l.exact m.value = some a ∧
          ∃ b, r.exact m.value = some b ∧ (a - b).sign = v := by
        simpa [IntExpr.exact, Option.bind_eq_some_iff] using hv
      exact Term.value_threeWay (hsvalue m a ha) (htvalue m b hb)
  | compareReal => exact he.elim
  | ofReal => exact he.elim

/-- **The text of a constraint means the constraint.**  A relation between statable expressions has
a text, the text is one term, and in every model in which no divisor is zero the term is true
exactly if the relation holds between the exact values. -/
theorem read_ofConstraint {l r : IntExpr} (hl : l.Statable) (hr : r.Statable) (ρ : Relation) :
    ∃ t x, Term.ofConstraint (.int l (.rel ρ) r) = .ok t ∧ read t.render = some x ∧
      ∀ m a b, l.exact m.value = some a → r.exact m.value = some b →
        ∃ truth, x.value m = some (.bool truth) ∧ (truth = true ↔ ρ.Relates a b) := by
  obtain ⟨s, hs, hslegible, hsvalue⟩ := statable_ofIntExpr hl
  obtain ⟨t, ht, htlegible, htvalue⟩ := statable_ofIntExpr hr
  obtain ⟨hlegible, hvalue⟩ := Term.relation_spec ρ hslegible htlegible
  obtain ⟨x, hspells, hx⟩ := hlegible.spells
  refine ⟨Term.relation ρ s t, x, ?_, read_of_spells hspells, fun m a b ha hb => ?_⟩
  · simp [Term.ofConstraint, Term.compareNumbers, hs, ht, bind, Except.bind]
  · rw [hx]
    exact hvalue m a b (hsvalue m a ha) (htvalue m b hb)

/-- The remainder by -2 of an input whose name is not a simple one for the printer. -/
def remainderOfInput : IntExpr :=
  .binary (.var ⟨"low-bit", -7, -128, 127⟩) .rem (.const (-2)) (-1)

/-- The remainder of a negative input is negative, and the solver agrees. -/
theorem remainderOfInput_read :
    ∃ t x, Term.ofConstraint (.int remainderOfInput (.rel .lt) (.const 0)) = .ok t ∧
      read t.render = some x ∧ x.value ⟨fun _ => -7, fun _ => 0⟩ = some (.bool true) := by
  have hstatable : remainderOfInput.Statable :=
    ⟨by decide, (by decide : IsVariable "low-bit"), trivial⟩
  obtain ⟨t, x, ht, hx, hvalue⟩ := read_ofConstraint hstatable (r := .const 0) trivial .lt
  obtain ⟨truth, hvalue, htruth⟩ := hvalue ⟨fun _ => -7, fun _ => 0⟩ (-1) 0 (by decide) rfl
  refine ⟨t, x, ht, hx, ?_⟩
  rw [hvalue, htruth.mpr (by decide)]

example :
    (Term.ofConstraint (.int remainderOfInput (.rel .lt) (.const 0))).map Term.render =
      .ok ("(< (- |low-bit| (* (- 2) (ite (>= |low-bit| 0) (div |low-bit| (- 2)) " ++
        "(- (div (- |low-bit|) (- 2)))))) 0)") := by
  decide

end Smt

end Concolic
