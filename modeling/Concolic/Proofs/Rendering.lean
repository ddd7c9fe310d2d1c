import Concolic.Proofs.Nodes
import Concolic.Proofs.PathLog
import Concolic.Proofs.Thresholds

/-
# Constraints that read the same

A path condition holds a supporting constraint back only once, and it tells constraints apart by
their texts.  A text shows the names of the inputs and neither their values nor their bounds, so
constraints that are alike but for these read the same.  Do others?

The names of inputs, the numbers, the operators and the relations are all written as plain words.
As long as no name has a space or a parenthesis in it, a text can be cut into these words in one
way only: each word ends where the next space or closing parenthesis is, and what follows an opening
parenthesis tells the kind of the node and how many parts there are.  So integer constraints that
read the same are alike (`Constraint.render_eq_iff`), with one exception: two inputs are written by
their names alone, whatever their kind, and a real constraint `x < y` reads like the integer
constraint `x < y`.
-/
namespace Concolic

/-! ## 1. Words -/

namespace Text

/-- Whether a word ends before the character. -/
def isBreak (c : Char) : Bool := c = ' ' || c = '(' || c = ')'

/-- No space and no parenthesis. -/
def Unbroken (w : List Char) : Prop := ∀ c ∈ w, isBreak c = false

instance (w : List Char) : Decidable (Unbroken w) :=
  List.decidableBAll (fun c => isBreak c = false) w

/-- What may follow a word: nothing, a space or a closing parenthesis. -/
def Ends (s : List Char) : Prop := ∀ c ∈ s.head?, c = ' ' ∨ c = ')'

theorem ends_nil : Ends [] := by
  simp [Ends]

theorem ends_space (s : List Char) : Ends (' ' :: s) := by
  simp [Ends]

theorem ends_close (s : List Char) : Ends (')' :: s) := by
  simp [Ends]

theorem Unbroken.append {v w : List Char} (hv : Unbroken v) (hw : Unbroken w) :
    Unbroken (v ++ w) := by
  intro c hc
  rcases List.mem_append.mp hc with h | h
  · exact hv c h
  · exact hw c h

theorem not_ends_of_unbroken {c : Char} {w s : List Char} (hw : Unbroken (c :: w)) :
    ¬ Ends (c :: s) := by
  intro hs
  have hc := hw c List.mem_cons_self
  rcases hs c rfl with rfl | rfl <;> cases hc

/-- **A word can be cut off in one way only.** -/
theorem Unbroken.append_inj {v w s t : List Char} (hv : Unbroken v) (hw : Unbroken w) (hs : Ends s)
    (ht : Ends t) (h : v ++ s = w ++ t) : v = w ∧ s = t := by
  induction v generalizing w with
  | nil =>
    cases w with
    | nil => exact ⟨rfl, h⟩
    | cons c w =>
      rw [List.nil_append] at h
      subst h
      exact absurd hs (not_ends_of_unbroken hw)
  | cons c v ih =>
    cases w with
    | nil =>
      rw [List.nil_append] at h
      subst h
      exact absurd ht (not_ends_of_unbroken hv)
    | cons c' w =>
      obtain ⟨rfl, htail⟩ := List.cons.inj h
      obtain ⟨rfl, hst⟩ := ih (fun c hc => hv c (List.mem_cons_of_mem _ hc))
        (fun c hc => hw c (List.mem_cons_of_mem _ hc)) htail
      exact ⟨rfl, hst⟩

end Text

open Text

namespace Numeral

theorem isDigit_of_mem_repr {n : Nat} {c : Char} (h : c ∈ (Nat.repr n).toList) :
    c.isDigit = true := by
  rw [Nat.toList_repr] at h
  exact Nat.isDigit_of_mem_toDigits (by decide) (by decide) h

theorem unbroken_repr (n : Nat) : Unbroken (Nat.repr n).toList := by
  intro c hc
  have hdigit := isDigit_of_mem_repr hc
  rw [isBreak, Bool.or_eq_false_iff, Bool.or_eq_false_iff]
  refine ⟨⟨?_, ?_⟩, ?_⟩
  all_goals
    refine decide_eq_false ?_
    rintro rfl
    revert hdigit
    decide

theorem repr_inj {m n : Nat} (h : Nat.repr m = Nat.repr n) : m = n := by
  have hdigits : Nat.toDigits 10 m = Nat.toDigits 10 n := by
    rw [← Nat.toList_repr, ← Nat.toList_repr, h]
  have hvalue := congrArg (Nat.ofDigitChars 10 · 0) hdigits
  rwa [Nat.ofDigitChars_toDigits (by decide) (by decide),
    Nat.ofDigitChars_toDigits (by decide) (by decide)] at hvalue

theorem toList_decimal (n : Int) :
    (decimal n).toList = (if n < 0 then ['-'] else []) ++ (Nat.repr n.natAbs).toList := by
  unfold decimal
  split <;> simp

theorem unbroken_decimal (n : Int) : Unbroken (decimal n).toList := by
  rw [toList_decimal]
  refine Unbroken.append ?_ (unbroken_repr _)
  split
  · decide
  · exact fun _ h => absurd h List.not_mem_nil

/-- A number without a sign does not begin with one. -/
theorem cons_minus_ne_repr {cs : List Char} (n : Nat) : '-' :: cs ≠ (Nat.repr n).toList := by
  intro h
  have hdigit : ('-').isDigit = true := isDigit_of_mem_repr (h ▸ List.mem_cons_self)
  revert hdigit
  decide

theorem decimal_inj {m n : Int} (h : decimal m = decimal n) : m = n := by
  have htext := congrArg String.toList h
  rw [toList_decimal, toList_decimal] at htext
  by_cases hm : m < 0 <;> by_cases hn : n < 0 <;>
    simp only [hm, hn, if_true, if_false, List.cons_append, List.nil_append] at htext
  · have habs := repr_inj (String.toList_inj.mp (List.cons.inj htext).2)
    omega
  · exact absurd htext (cons_minus_ne_repr _)
  · exact absurd htext.symm (cons_minus_ne_repr _)
  · have habs := repr_inj (String.toList_inj.mp htext)
    omega

end Numeral

theorem wordText_inj {v w : Int64} (h : wordText v = wordText w) : v = w :=
  Int64.toInt_inj.mp (Numeral.decimal_inj h)

/-- A name that can be told from what stands around it. -/
def IsName (s : String) : Prop := s ≠ "" ∧ Unbroken s.toList

/-! ## 2. What follows an opening parenthesis -/

namespace Operator

/-- The operators that have a name of their own. -/
def known : List Operator :=
  [add, sub, mul, div, rem, and, or, xor, shl, shr, ushr, neg, narrow]

theorem toList_name_other (n : Int) :
    (other n).name.toList = 'O' :: ("perator<".toList ++ (Numeral.decimal n).toList ++ ['>']) := by
  simp [name]

theorem unbroken_name (op : Operator) : Unbroken op.name.toList := by
  cases op with
  | other n =>
    rw [toList_name_other]
    have hfront : Unbroken "Operator<".toList := by decide
    have hback : Unbroken ['>'] := by decide
    exact (hfront.append (Numeral.unbroken_decimal n)).append hback
  | _ => decide

/-- The names of known operators are all different, and no other operator has one of them. -/
theorem eq_of_name_known {op op' : Operator} (h : op ∈ known) (hname : op.name = op'.name) :
    op = op' := by
  have hknown : ∀ a ∈ known, ∀ b ∈ known, a.name = b.name → a = b := by decide
  cases op' with
  | other n =>
    have hfirst : ∀ a ∈ known, a.name.toList.head? ≠ some 'O' := by decide
    refine absurd ?_ (hfirst op h)
    rw [hname, toList_name_other]
    rfl
  | _ => exact hknown op h _ (by decide) hname

/-- The words that stand for kinds of nodes and not for operators. -/
def reserved : List String := ["int", "cmp", "fcmp", "r2i", "real", "i2r", "str"]

theorem name_not_reserved (op : Operator) : op.name ∉ reserved := by
  cases op with
  | other n =>
    intro h
    have hfirst : ∀ s ∈ reserved, s.toList.head? ≠ some 'O' := by decide
    exact hfirst _ h (by rw [toList_name_other]; rfl)
  | _ => decide

end Operator

namespace Expr

/-- The word after the parenthesis that opens the text of an expression.  Inputs have none. -/
def head? : Expr → Option String
  | int (.const _) => some "int"
  | int (.var _) => none
  | int (.binary _ op _ _) => some op.name
  | int (.unary op _ _) => some op.name
  | int (.compare ..) => some "cmp"
  | int (.compareReal ..) => some "fcmp"
  | int (.ofReal ..) => some "r2i"
  | real (.const _) => some "real"
  | real (.var _) => none
  | real (.binary _ op _ _) => some ("f" ++ op.name)
  | real (.unary op _ _) => some ("f" ++ op.name)
  | real (.ofInt ..) => some "i2r"
  | str (.const _) => some "str"
  | str (.var _) => none
  | ref .null => none
  | ref (.object _) => some "ref"

theorem unbroken_head {e : Expr} {w : String} (h : e.head? = some w) : Unbroken w.toList := by
  have hf : Unbroken "f".toList := by decide
  cases e with
  | int e =>
    cases e with
    | var x => cases h
    | binary l op r c | unary op x c =>
      cases h
      exact op.unbroken_name
    | _ =>
      cases h
      decide
  | real e =>
    cases e with
    | var x => cases h
    | binary l op r c | unary op x c =>
      cases h
      rw [String.toList_append]
      exact hf.append op.unbroken_name
    | _ =>
      cases h
      decide
  | str e =>
    cases e with
    | var x => cases h
    | const v =>
      cases h
      decide
  | ref e =>
    cases e with
    | null => cases h
    | object r =>
      cases h
      decide

/-- The text of an expression that is no input. -/
theorem toList_render_of_head {e : Expr} {w : String} (h : e.head? = some w) :
    ∃ rest, e.render.toList = '(' :: (w.toList ++ ' ' :: rest) := by
  cases e with
  | int e =>
    cases e with
    | var x => cases h
    | _ =>
      cases h
      simp [render, IntExpr.render]
  | real e =>
    cases e with
    | var x => cases h
    | _ =>
      cases h
      simp [render, RealExpr.render]
  | str e =>
    cases e with
    | var x => cases h
    | const v =>
      cases h
      simp [render, StrExpr.render]
  | ref e =>
    cases e with
    | null => cases h
    | object r =>
      cases h
      simp [render, RefExpr.render, Ref.render]

/-- Every input has a name that can be told from what stands around it. -/
def Named (e : Expr) : Prop := ∀ s ∈ e.nodes, ∀ x ∈ s.asVariable?, IsName x.name

@[simp] theorem named_toExpr (x : Variable) : x.toExpr.Named ↔ IsName x.name := by
  cases x <;> simp [Named, Variable.toExpr, asVariable?]

@[simp] theorem named_intBinary (l : IntExpr) (op : Operator) (r : IntExpr) (c : Int64) :
    Named (.int (.binary l op r c)) ↔ Named (.int l) ∧ Named (.int r) := by
  simp only [Named, nodes_intBinary, List.forall_mem_cons, List.forall_mem_append]
  simp [asVariable?]

@[simp] theorem named_intUnary (op : Operator) (x : IntExpr) (c : Int64) :
    Named (.int (.unary op x c)) ↔ Named (.int x) := by
  simp only [Named, nodes_intUnary, List.forall_mem_cons]
  simp [asVariable?]

@[simp] theorem named_compare (l r : IntExpr) (c : Int64) :
    Named (.int (.compare l r c)) ↔ Named (.int l) ∧ Named (.int r) := by
  simp only [Named, nodes_compare, List.forall_mem_cons, List.forall_mem_append]
  simp [asVariable?]

theorem eq_toExpr_of_head {e : Expr} (h : e.head? = none) (hnull : e ≠ .ref .null) :
    ∃ x : Variable, e = x.toExpr := by
  cases e with
  | int e =>
    cases e with
    | var x => exact ⟨.int x, rfl⟩
    | _ => cases h
  | real e =>
    cases e with
    | var x => exact ⟨.real x, rfl⟩
    | _ => cases h
  | str e =>
    cases e with
    | var x => exact ⟨.str x, rfl⟩
    | const v => cases h
  | ref e =>
    cases e with
    | null => exact absurd rfl hnull
    | object r => cases h

theorem render_toExpr (x : Variable) : x.toExpr.render = x.name := by
  cases x <;> rfl

/-- The text of an input does not begin with a parenthesis. -/
theorem not_open_of_named {x : Variable} (h : IsName x.name) (s t : List Char) :
    x.toExpr.render.toList ++ s ≠ '(' :: t := by
  intro htext
  rw [render_toExpr] at htext
  cases hname : x.name.toList with
  | nil => exact h.1 (String.toList_inj.mp hname)
  | cons c cs =>
    rw [hname] at htext
    have hc := h.2 c (hname ▸ List.mem_cons_self)
    rw [(List.cons.inj htext).1] at hc
    cases hc

/-- **The kind of a node is read off its first word.** -/
theorem head?_eq_of_text {e d : Expr} (he : e.Named) (hd : d.Named) (henull : e ≠ .ref .null)
    (hdnull : d ≠ .ref .null) {s t : List Char}
    (h : e.render.toList ++ s = d.render.toList ++ t) : e.head? = d.head? := by
  cases hhead : e.head? with
  | none =>
    obtain ⟨x, rfl⟩ := eq_toExpr_of_head hhead henull
    cases hhead' : d.head? with
    | none => rfl
    | some w =>
      obtain ⟨rest, hrest⟩ := toList_render_of_head hhead'
      rw [hrest] at h
      exact absurd h (not_open_of_named ((named_toExpr x).mp he) _ _)
  | some v =>
    obtain ⟨rest, hrest⟩ := toList_render_of_head hhead
    cases hhead' : d.head? with
    | none =>
      obtain ⟨x, rfl⟩ := eq_toExpr_of_head hhead' hdnull
      rw [hrest] at h
      exact absurd h.symm (not_open_of_named ((named_toExpr x).mp hd) _ _)
    | some w =>
      obtain ⟨rest', hrest'⟩ := toList_render_of_head hhead'
      simp only [hrest, hrest', List.cons_append, List.append_assoc] at h
      obtain ⟨hword, -⟩ := (unbroken_head hhead).append_inj (unbroken_head hhead')
        (ends_space _) (ends_space _) (List.cons.inj h).2
      rw [String.toList_inj.mp hword]

end Expr

/-! ## 3. Integer expressions -/

namespace IntExpr

/-- Built of constants, inputs, operations and comparisons of integers, with known operators and
names that can be told from what stands around them. -/
def Plain : IntExpr → Prop
  | const _ => True
  | var x => IsName x.name
  | binary l op r _ => op ∈ Operator.known ∧ l.Plain ∧ r.Plain
  | unary op x _ => op ∈ Operator.known ∧ x.Plain
  | compare l r _ => l.Plain ∧ r.Plain
  | compareReal .. => False
  | ofReal .. => False

/-- The same tree, up to concrete values and the bounds of inputs. -/
inductive Alike : IntExpr → IntExpr → Prop
  | const (v : Int64) : Alike (.const v) (.const v)
  | var {x y : IntVar} (hname : x.name = y.name) : Alike (.var x) (.var y)
  | binary {l r l' r' : IntExpr} (op : Operator) {c c' : Int64} (hl : Alike l l')
      (hr : Alike r r') : Alike (.binary l op r c) (.binary l' op r' c')
  | unary {x y : IntExpr} (op : Operator) {c c' : Int64} (hx : Alike x y) :
      Alike (.unary op x c) (.unary op y c')
  | compare {l r l' r' : IntExpr} {c c' : Int64} (hl : Alike l l') (hr : Alike r r') :
      Alike (.compare l r c) (.compare l' r' c')

theorem Alike.render_eq {e d : IntExpr} (h : Alike e d) : e.render = d.render := by
  induction h with
  | const v => rfl
  | var hname => exact hname
  | binary op hl hr ihl ihr => simp only [render, ihl, ihr]
  | unary op hx ih => simp only [render, ih]
  | compare hl hr ihl ihr => simp only [render, ihl, ihr]

theorem Plain.named {e : IntExpr} (h : e.Plain) : (Expr.int e).Named := by
  induction e with
  | const v => simp [Expr.Named, Expr.asVariable?]
  | var x => exact (Expr.named_toExpr (.int x)).mpr h
  | binary l op r c ihl ihr => exact (Expr.named_intBinary ..).mpr ⟨ihl h.2.1, ihr h.2.2⟩
  | unary op x c ih => exact (Expr.named_intUnary ..).mpr (ih h.2)
  | compare l r c ihl ihr => exact (Expr.named_compare ..).mpr ⟨ihl h.1, ihr h.2⟩
  | compareReal l r c => exact h.elim
  | ofReal x c => exact h.elim

/-! The texts of nodes before what follows them. -/

theorem toList_render_const (v : Int64) (s : List Char) :
    (const v).render.toList ++ s =
      '(' :: ("int".toList ++ ' ' :: ((wordText v).toList ++ ')' :: s)) := by
  simp [render]

theorem toList_render_binary (l : IntExpr) (op : Operator) (r : IntExpr) (c : Int64)
    (s : List Char) :
    (binary l op r c).render.toList ++ s =
      '(' :: (op.name.toList ++ ' ' :: (l.render.toList ++ ' ' :: (r.render.toList ++ ')' :: s))) :=
    by
  simp [render]

theorem toList_render_unary (op : Operator) (x : IntExpr) (c : Int64) (s : List Char) :
    (unary op x c).render.toList ++ s =
      '(' :: (op.name.toList ++ ' ' :: (x.render.toList ++ ')' :: s)) := by
  simp [render]

theorem toList_render_compare (l r : IntExpr) (c : Int64) (s : List Char) :
    (compare l r c).render.toList ++ s =
      '(' :: ("cmp".toList ++
        ' ' :: (l.render.toList ++ ' ' :: (r.render.toList ++ ')' :: s))) := by
  simp [render]

/-- What follows the first word of two texts that begin alike. -/
theorem eq_of_open_eq {w : String} {s t : List Char}
    (h : '(' :: (w.toList ++ ' ' :: s) = '(' :: (w.toList ++ ' ' :: t)) : s = t :=
  (List.cons.inj (List.append_cancel_left (List.cons.inj h).2)).2

theorem eq_const_of_head {d : IntExpr} (h : (Expr.int d).head? = some "int") :
    ∃ v, d = const v := by
  cases d with
  | const v => exact ⟨v, rfl⟩
  | binary l op r c | unary op x c =>
    refine absurd ?_ op.name_not_reserved
    rw [Option.some.inj h]
    decide
  | var x => cases h
  | compare l r c | compareReal l r c | ofReal x c => exact absurd h (by simp [Expr.head?])

theorem eq_compare_of_head {d : IntExpr} (h : (Expr.int d).head? = some "cmp") :
    ∃ l r c, d = compare l r c := by
  cases d with
  | compare l r c => exact ⟨l, r, c, rfl⟩
  | binary l op r c | unary op x c =>
    refine absurd ?_ op.name_not_reserved
    rw [Option.some.inj h]
    decide
  | var x => cases h
  | const v | compareReal l r c | ofReal x c => exact absurd h (by simp [Expr.head?])

theorem eq_operation_of_head {d : IntExpr} {op : Operator} (hop : op ∈ Operator.known)
    (h : (Expr.int d).head? = some op.name) :
    (∃ l r c, d = binary l op r c) ∨ ∃ x c, d = unary op x c := by
  cases d with
  | binary l op' r c =>
    obtain rfl := Operator.eq_of_name_known hop (Option.some.inj h).symm
    exact Or.inl ⟨l, r, c, rfl⟩
  | unary op' x c =>
    obtain rfl := Operator.eq_of_name_known hop (Option.some.inj h).symm
    exact Or.inr ⟨x, c, rfl⟩
  | var x => cases h
  | const v | compare l r c | compareReal l r c | ofReal x c =>
    refine absurd ?_ op.name_not_reserved
    rw [← Option.some.inj h]
    decide

theorem eq_var_of_head {d : IntExpr} (h : (Expr.int d).head? = none) : ∃ x, d = var x := by
  cases d with
  | var x => exact ⟨x, rfl⟩
  | _ => cases h

theorem Plain.head?_eq_of_text {e d : IntExpr} (he : e.Plain) (hd : (Expr.int d).Named)
    {s t : List Char} (h : e.render.toList ++ s = d.render.toList ++ t) :
    (Expr.int d).head? = (Expr.int e).head? :=
  Expr.head?_eq_of_text hd he.named Expr.noConfusion Expr.noConfusion h.symm

/-- Whatever reads like `e`, with anything behind it, is like `e` and has the same behind it. -/
def Legible (e : IntExpr) : Prop :=
  ∀ ⦃d : IntExpr⦄ ⦃s t : List Char⦄, (Expr.int d).Named → Ends s → Ends t →
    e.render.toList ++ s = d.render.toList ++ t → e.Alike d ∧ s = t

/-- Two parts in a row and the parenthesis that closes them. -/
theorem Legible.pair {l r l' r' : IntExpr} {s t : List Char} (hl : l.Legible) (hr : r.Legible)
    (hl' : (Expr.int l').Named) (hr' : (Expr.int r').Named)
    (h : l.render.toList ++ ' ' :: (r.render.toList ++ ')' :: s) =
      l'.render.toList ++ ' ' :: (r'.render.toList ++ ')' :: t)) :
    l.Alike l' ∧ r.Alike r' ∧ s = t := by
  obtain ⟨hleft, hrest⟩ := hl hl' (ends_space _) (ends_space _) h
  obtain ⟨hright, hrest⟩ := hr hr' (ends_close _) (ends_close _) (List.cons.inj hrest).2
  exact ⟨hleft, hright, (List.cons.inj hrest).2⟩

/-- **Integer expressions that read the same are alike.**  The induction is on one of them; the
other has the same first word, and the parts of both end at the same places. -/
theorem Plain.legible {e : IntExpr} (he : e.Plain) : e.Legible := by
  induction e with
  | const v =>
    intro d s t hd hs ht h
    obtain ⟨v', rfl⟩ := eq_const_of_head (he.head?_eq_of_text hd h)
    rw [toList_render_const, toList_render_const] at h
    obtain ⟨hword, hrest⟩ := (Numeral.unbroken_decimal _).append_inj (Numeral.unbroken_decimal _)
      (ends_close s) (ends_close t) (eq_of_open_eq h)
    obtain rfl := wordText_inj (String.toList_inj.mp hword)
    exact ⟨.const v, (List.cons.inj hrest).2⟩
  | var x =>
    intro d s t hd hs ht h
    obtain ⟨y, rfl⟩ := eq_var_of_head (he.head?_eq_of_text hd h)
    have hy : IsName y.name := (Expr.named_toExpr (.int y)).mp hd
    obtain ⟨hname, hrest⟩ := he.2.append_inj hy.2 hs ht h
    exact ⟨.var (String.toList_inj.mp hname), hrest⟩
  | binary l op r c ihl ihr =>
    intro d s t hd hs ht h
    rcases eq_operation_of_head he.1 (he.head?_eq_of_text hd h) with
      ⟨l', r', c', rfl⟩ | ⟨x, c', rfl⟩
    · obtain ⟨hl', hr'⟩ := (Expr.named_intBinary ..).mp hd
      rw [toList_render_binary, toList_render_binary] at h
      obtain ⟨hl, hr, hrest⟩ := (ihl he.2.1).pair (ihr he.2.2) hl' hr' (eq_of_open_eq h)
      exact ⟨.binary op hl hr, hrest⟩
    · -- a part that is followed by another one does not end like a last part
      rw [toList_render_binary, toList_render_unary] at h
      obtain ⟨-, hrest⟩ := ihl he.2.1 ((Expr.named_intUnary ..).mp hd) (ends_space _) (ends_close _)
        (eq_of_open_eq h)
      exact absurd (List.cons.inj hrest).1 (by decide)
  | unary op x c ih =>
    intro d s t hd hs ht h
    rcases eq_operation_of_head he.1 (he.head?_eq_of_text hd h) with
      ⟨l', r', c', rfl⟩ | ⟨y, c', rfl⟩
    · obtain ⟨hl', -⟩ := (Expr.named_intBinary ..).mp hd
      rw [toList_render_unary, toList_render_binary] at h
      obtain ⟨-, hrest⟩ := ih he.2 hl' (ends_close _) (ends_space _) (eq_of_open_eq h)
      exact absurd (List.cons.inj hrest).1 (by decide)
    · rw [toList_render_unary, toList_render_unary] at h
      obtain ⟨hx, hrest⟩ := ih he.2 ((Expr.named_intUnary ..).mp hd) (ends_close _) (ends_close _)
        (eq_of_open_eq h)
      exact ⟨.unary op hx, (List.cons.inj hrest).2⟩
  | compare l r c ihl ihr =>
    intro d s t hd hs ht h
    obtain ⟨l', r', c', rfl⟩ := eq_compare_of_head (he.head?_eq_of_text hd h)
    obtain ⟨hl', hr'⟩ := (Expr.named_compare ..).mp hd
    rw [toList_render_compare, toList_render_compare] at h
    obtain ⟨hl, hr, hrest⟩ := (ihl he.1).pair (ihr he.2) hl' hr' (eq_of_open_eq h)
    exact ⟨.compare hl hr, hrest⟩
  | compareReal l r c => exact he.elim
  | ofReal x c => exact he.elim

/-- The first words of plain expressions. -/
def firstWords : List String := "int" :: "cmp" :: Operator.known.map Operator.name

theorem Plain.head_mem {e : IntExpr} (he : e.Plain) {w : String}
    (h : (Expr.int e).head? = some w) : w ∈ firstWords := by
  have hname : ∀ {op : Operator}, op ∈ Operator.known → op.name ∈ firstWords := by
    intro op hop
    exact List.mem_cons_of_mem _ (List.mem_cons_of_mem _ (List.mem_map_of_mem hop))
  cases e with
  | const v | compare l r c =>
    cases h
    decide
  | var x => cases h
  | binary l op r c | unary op x c =>
    cases h
    exact hname he.1
  | compareReal l r c | ofReal x c => exact he.elim

end IntExpr

/-! ## 4. Inputs of other kinds -/

namespace Expr

/-- A real or a string. -/
def Foreign : Expr → Prop
  | real _ | str _ => True
  | int _ | ref _ => False

theorem Foreign.head_not_mem {d : Expr} (hd : d.Foreign) {w : String} (h : d.head? = some w) :
    w ∉ IntExpr.firstWords := by
  have hf : ∀ v ∈ IntExpr.firstWords, v.toList.head? ≠ some 'f' := by decide
  cases d with
  | int d | ref d => exact hd.elim
  | real d =>
    cases d with
    | var x => cases h
    | binary l op r c | unary op x c =>
      cases h
      intro hmem
      exact hf _ hmem (by rw [String.toList_append]; rfl)
    | const v | ofInt x c =>
      cases h
      decide
  | str d =>
    cases d with
    | var x => cases h
    | const v =>
      cases h
      decide

/-- **A real or a string reads like an integer only if both are inputs,** which have the same name
then. -/
theorem Foreign.eq_of_text {d : Expr} (hforeign : d.Foreign) (hd : d.Named) {e : IntExpr}
    (he : e.Plain) {s t : List Char} (hs : Ends s) (ht : Ends t)
    (h : e.render.toList ++ s = d.render.toList ++ t) :
    ∃ (x : IntVar) (y : Variable), e = .var x ∧ d = y.toExpr ∧ x.name = y.name ∧ s = t := by
  have hnull : d ≠ .ref .null := by
    rintro rfl
    exact hforeign
  have hhead : (Expr.int e).head? = d.head? :=
    head?_eq_of_text he.named hd Expr.noConfusion hnull h
  cases hnone : d.head? with
  | some w =>
    rw [hnone] at hhead
    exact absurd (he.head_mem hhead) (hforeign.head_not_mem hnone)
  | none =>
    rw [hnone] at hhead
    obtain ⟨x, rfl⟩ := IntExpr.eq_var_of_head hhead
    obtain ⟨y, rfl⟩ := eq_toExpr_of_head hnone hnull
    rw [render_toExpr] at h
    obtain ⟨hname, hrest⟩ := he.2.append_inj ((named_toExpr y).mp hd).2 hs ht h
    exact ⟨x, y, rfl, rfl, String.toList_inj.mp hname, hrest⟩

end Expr

/-! ## 5. Constraints -/

theorem Comparator.unbroken_symbol (cmp : Comparator) : Unbroken cmp.symbol.toList := by
  cases cmp with
  | rel ρ => cases ρ <;> decide
  | other n =>
    have hfront : Unbroken "Comparator<".toList := by decide
    have hback : Unbroken ">".toList := by decide
    simp only [symbol, String.toList_append]
    exact (hfront.append (Numeral.unbroken_decimal n)).append hback

theorem Relation.eq_of_symbol {ρ : Relation} {cmp : Comparator} (h : ρ.symbol = cmp.symbol) :
    cmp = .rel ρ := by
  cases cmp with
  | rel σ =>
    revert h
    cases ρ <;> cases σ <;> decide
  | other n =>
    have hfirst : ρ.symbol.toList.head? ≠ some 'C' := by cases ρ <;> decide
    refine absurd ?_ hfirst
    rw [h]
    simp [Comparator.symbol]

namespace Constraint

/-- A relation of plain integer expressions. -/
def Plain : Constraint → Prop
  | int l (.rel _) r => l.Plain ∧ r.Plain
  | _ => False

/-- Every input has a name that can be told from what stands around it. -/
def Named (c : Constraint) : Prop := c.left.Named ∧ c.right.Named

/-- The same comparator between the same trees, up to concrete values and the bounds of inputs. -/
inductive Alike : Constraint → Constraint → Prop
  | int {l r l' r' : IntExpr} (cmp : Comparator) (hl : l.Alike l') (hr : r.Alike r') :
      Alike (.int l cmp r) (.int l' cmp r')

/-- The same comparator between inputs of the same names, which are integers on one side and not on
the other. -/
inductive Namesake : Constraint → Constraint → Prop
  | real {x y : IntVar} {x' y' : RealVar} (cmp : Comparator) (hx : x.name = x'.name)
      (hy : y.name = y'.name) :
      Namesake (.int (.var x) cmp (.var y)) (.real (.var x') cmp (.var y'))
  | str {x y : IntVar} {x' y' : StrVar} (cmp : Comparator) (hx : x.name = x'.name)
      (hy : y.name = y'.name) :
      Namesake (.int (.var x) cmp (.var y)) (.str (.var x') cmp (.var y'))

theorem toList_render (c : Constraint) :
    c.render.toList = c.left.render.toList ++
      ' ' :: (c.comparator.symbol.toList ++ ' ' :: (c.right.render.toList ++ [])) := by
  simp [render]

/-- What is left of two texts after their left sides: the comparators are the same, and the right
sides read the same. -/
theorem split_of_text {ρ : Relation} {cmp : Comparator} {s t : List Char}
    (h : ' ' :: (ρ.symbol.toList ++ ' ' :: s) = ' ' :: (cmp.symbol.toList ++ ' ' :: t)) :
    cmp = .rel ρ ∧ s = t := by
  obtain ⟨hsymbol, hrest⟩ := (Comparator.unbroken_symbol (.rel ρ)).append_inj cmp.unbroken_symbol
    (ends_space s) (ends_space t) (List.cons.inj h).2
  exact ⟨Relation.eq_of_symbol (String.toList_inj.mp hsymbol), (List.cons.inj hrest).2⟩

theorem Plain.exists_sides {c : Constraint} (h : c.Plain) :
    ∃ l ρ r, c = .int l (.rel ρ) r ∧ l.Plain ∧ r.Plain := by
  cases c with
  | int l cmp r =>
    cases cmp with
    | rel ρ => exact ⟨l, ρ, r, rfl, h.1, h.2⟩
    | other n => exact h.elim
  | real l cmp r | str l cmp r => exact h.elim

theorem Plain.named {c : Constraint} (h : c.Plain) : c.Named := by
  obtain ⟨l, ρ, r, rfl, hl, hr⟩ := h.exists_sides
  exact ⟨hl.named, hr.named⟩

theorem Alike.render_eq {c d : Constraint} (h : c.Alike d) : c.render = d.render := by
  cases h with
  | int cmp hl hr =>
    simp only [render, left, right, comparator, Expr.render, hl.render_eq, hr.render_eq]

theorem Namesake.render_eq {c d : Constraint} (h : c.Namesake d) : c.render = d.render := by
  cases h with
  | real cmp hx hy | str cmp hx hy =>
    simp only [render, left, right, comparator, Expr.render, IntExpr.render, RealExpr.render,
      StrExpr.render, hx, hy]

/-- A real or string constraint that reads like a relation of integers is the same relation between
inputs, and so is the relation of integers. -/
theorem vars_of_foreign {l r : IntExpr} {ρ : Relation} {d : Constraint} (hl : l.Plain)
    (hr : r.Plain) (hd : d.Named) (hleft : d.left.Foreign) (hright : d.right.Foreign)
    (h : (int l (.rel ρ) r).render = d.render) :
    ∃ (x y : IntVar) (x' y' : Variable), l = .var x ∧ r = .var y ∧ d.comparator = .rel ρ ∧
      (d.left = x'.toExpr ∧ x.name = x'.name) ∧ d.right = y'.toExpr ∧ y.name = y'.name := by
  have htext := congrArg String.toList h
  rw [toList_render, toList_render] at htext
  obtain ⟨x, x', rfl, hx', hx, hrest⟩ :=
    hleft.eq_of_text hd.1 hl (ends_space _) (ends_space _) htext
  obtain ⟨hcmp, hrest⟩ := split_of_text hrest
  obtain ⟨y, y', rfl, hy', hy, -⟩ := hright.eq_of_text hd.2 hr ends_nil ends_nil hrest
  exact ⟨x, y, x', y', rfl, rfl, hcmp, ⟨hx', hx⟩, hy', hy⟩

theorem Plain.alike_or_namesake {c d : Constraint} (hc : c.Plain) (hd : d.Named)
    (h : c.render = d.render) : c.Alike d ∨ c.Namesake d := by
  obtain ⟨l, ρ, r, rfl, hl, hr⟩ := hc.exists_sides
  cases d with
  | int l' cmp r' =>
    have htext := congrArg String.toList h
    rw [toList_render, toList_render] at htext
    obtain ⟨hleft, hrest⟩ := hl.legible hd.1 (ends_space _) (ends_space _) htext
    obtain ⟨rfl, hrest⟩ := split_of_text hrest
    obtain ⟨hright, -⟩ := hr.legible hd.2 ends_nil ends_nil hrest
    exact Or.inl (.int _ hleft hright)
  | real l' cmp r' =>
    obtain ⟨x, y, x', y', rfl, rfl, rfl, ⟨hx', hx⟩, hy', hy⟩ :=
      vars_of_foreign hl hr hd trivial trivial h
    cases x' <;> cases hx'
    cases y' <;> cases hy'
    exact Or.inr (.real _ hx hy)
  | str l' cmp r' =>
    obtain ⟨x, y, x', y', rfl, rfl, rfl, ⟨hx', hx⟩, hy', hy⟩ :=
      vars_of_foreign hl hr hd trivial trivial h
    cases x' <;> cases hx'
    cases y' <;> cases hy'
    exact Or.inr (.str _ hx hy)

/-- **What reads like a plain constraint:** what is alike, and a real or string constraint between
inputs of the same names. -/
theorem render_eq_iff {c d : Constraint} (hc : c.Plain) (hd : d.Named) :
    c.render = d.render ↔ c.Alike d ∨ c.Namesake d := by
  constructor
  · exact hc.alike_or_namesake hd
  · rintro (h | h)
    · exact h.render_eq
    · exact h.render_eq

/-- No plain constraint is a namesake of another. -/
theorem Plain.not_namesake {c d : Constraint} (hd : d.Plain) : ¬ c.Namesake d := by
  intro h
  cases h <;> exact hd

/-- The normal form of a plain constraint is plain. -/
theorem Plain.exists_normalize {c : Constraint} (hc : c.Plain) :
    ∃ n, c.normalize = .ok n ∧ n.Plain := by
  obtain ⟨l, ρ, r, hsides, -, -⟩ := hc.exists_sides
  by_cases hshape : ∃ (t : Thresholded) (cmp : Comparator), c = t.constraint.withComparator cmp
  · obtain ⟨t, cmp, ht⟩ := hshape
    obtain ⟨t, rfl⟩ := Thresholded.eq_constraint_of_valid ⟨ρ, by rw [hsides]; rfl⟩ ht
    refine ⟨_, t.normalize_constraint, ?_⟩
    cases t with
    | onLeft x v σ k =>
      cases x with
      | ints l r => exact hc.1
      | reals l r => exact hc.1.elim
    | onRight k σ x v =>
      cases x with
      | ints l r => exact hc.2
      | reals l r => exact hc.2.elim
  · exact ⟨c, Thresholded.normalize_of_other fun t cmp h => hshape ⟨t, cmp, h⟩, hc⟩

end Constraint

namespace PathCondition

theorem report_supporting {c n : Constraint} (hn : c.normalize = .ok n) (pc : PathCondition) :
    pc.report (.supporting c) = .ok (pc.support n, none) := by
  rw [report, hn]
  rfl

/-- A supporting constraint with a plain normal form is left out exactly if a constraint that reads
the same is pending. -/
theorem Coherent.report_plain {c n : Constraint} (hn : c.normalize = .ok n) (hplain : n.Plain)
    {pc : PathCondition} (hcoherent : pc.Coherent) (hpc : ∀ d ∈ pc.pending, d.Named)
    (hno : Constraint.NoCollision pc.hash pc.pending n) :
    (∃ d ∈ pc.pending, n.Alike d ∨ n.Namesake d) ∧ pc.report (.supporting c) = .ok (pc, none) ∨
    (∀ d ∈ pc.pending, ¬ n.Alike d ∧ ¬ n.Namesake d) ∧
      pc.report (.supporting c) = .ok ({ pc with
        pending := pc.pending ++ [n]
        seen := pc.seen ++ [pc.hash n.render] }, none) := by
  have hread : Constraint.readIn pc.pending n = true ↔
      ∃ d ∈ pc.pending, n.Alike d ∨ n.Namesake d := by
    rw [Constraint.readIn, List.any_eq_true]
    refine exists_congr fun d => and_congr_right fun hd => ?_
    rw [decide_eq_true_iff, eq_comm, Constraint.render_eq_iff hplain (hpc d hd)]
  rw [report_supporting hn, support_eq hcoherent hno]
  by_cases hseen : Constraint.readIn pc.pending n = true
  · rw [if_pos hseen]
    exact Or.inl ⟨hread.mp hseen, rfl⟩
  · rw [if_neg hseen]
    refine Or.inr ⟨fun d hd => ?_, rfl⟩
    exact not_or.mp fun h => hseen (hread.mpr ⟨d, hd, h⟩)

/-- **Constraints are told apart by their texts.**  A plain constraint reads like another one
exactly if the two are alike: they have the same comparator and the same trees, up to concrete
values and the bounds of inputs.

So a path condition, after any reports, leaves a supporting constraint out only if its normal form
is alike to a pending one, or is a relation of two inputs and a real or string constraint between
inputs of the same names is pending.  Otherwise it is held back behind the pending ones.  This is so
for every hash that does not take the text of the normal form for that of a pending constraint. -/
theorem dropped_iff_pending {c : Constraint} (hc : c.Plain) :
    (∀ d : Constraint, d.Plain → (c.render = d.render ↔ c.Alike d)) ∧
    ∃ n, c.normalize = .ok n ∧ n.Plain ∧
      ∀ (hash : String → UInt64) (reps : List Report) (pc : PathCondition),
        ofReports hash reps = .ok pc → (∀ d ∈ pc.pending, d.Named) →
        Constraint.NoCollision hash pc.pending n →
        (∃ d ∈ pc.pending, n.Alike d ∨ n.Namesake d) ∧ pc.report (.supporting c) = .ok (pc, none) ∨
        (∀ d ∈ pc.pending, ¬ n.Alike d ∧ ¬ n.Namesake d) ∧
          pc.report (.supporting c) = .ok ({ pc with
            pending := pc.pending ++ [n]
            seen := pc.seen ++ [hash n.render] }, none) := by
  constructor
  · intro d hd
    rw [Constraint.render_eq_iff hc hd.named, or_iff_left hd.not_namesake]
  · obtain ⟨n, hn, hplain⟩ := hc.exists_normalize
    refine ⟨n, hn, hplain, ?_⟩
    intro hash reps pc hreps hnamed hno
    obtain ⟨hcoherent, rfl⟩ := coherent_ofReports hreps
    exact hcoherent.report_plain hn hplain hnamed hno

/-- An input by its name, which may have any value up to `max`. -/
def named (name : String) (max : Int64) : IntExpr := .var ⟨name, 1, 0, max⟩

/-- `cmp (add 1 x) y <= 0`. -/
def sumCompared (max : Int64) : Constraint :=
  .relate (.compare (.binary (.const 1) .add (named "x" max) 2) (named "y" max) 1) .le (.const 0)

/-- `add 1 x <= y`. -/
def sumRelated (max : Int64) : Constraint :=
  .relate (.binary (.const 1) .add (named "x" max) 2) .le (named "y" max)

/-- The path condition after one supporting constraint that is in normal form. -/
def holding (c : Constraint) : PathCondition := { pending := [c], seen := [Text.xxhash64 c.render] }

theorem ofReports_holding {c : Constraint} (h : c.normalize = .ok c) :
    ofReports Text.xxhash64 [.supporting c] = .ok (holding c) := by
  rw [ofReports, List.foldlM_cons, report_supporting h]
  rfl

/-- A comparison is left out if what it says of other bounds is pending. -/
theorem sumCompared_dropped :
    (sumCompared 7).Plain ∧
    ofReports Text.xxhash64 [.supporting (sumRelated 9)] = .ok (holding (sumRelated 9)) ∧
    (∀ d ∈ [sumRelated 9], d.Named) ∧
    Constraint.NoCollision Text.xxhash64 [sumRelated 9] (sumRelated 7) ∧
    (holding (sumRelated 9)).report (.supporting (sumCompared 7)) =
      .ok (holding (sumRelated 9), none) := by
  have hx : IsName "x" := ⟨by decide, by decide⟩
  have hy : IsName "y" := ⟨by decide, by decide⟩
  have hplain : (sumCompared 7).Plain := ⟨⟨⟨by decide, trivial, hx⟩, hy⟩, trivial⟩
  have hrelated : (sumRelated 9).Plain := ⟨⟨by decide, trivial, hx⟩, hy⟩
  have hnamed : ∀ d ∈ [sumRelated 9], d.Named := List.forall_mem_singleton.mpr hrelated.named
  have halike : (sumRelated 7).Alike (sumRelated 9) :=
    .int _ (.binary .add (.const 1) (.var rfl)) (.var rfl)
  have hreps := ofReports_holding (c := sumRelated 9) rfl
  have hno : Constraint.NoCollision Text.xxhash64 [sumRelated 9] (sumRelated 7) := by decide +kernel
  obtain ⟨-, n, hn, -, hreport⟩ := dropped_iff_pending hplain
  obtain rfl : sumRelated 7 = n := Except.ok.inj (Eq.trans rfl hn)
  refine ⟨hplain, hreps, hnamed, hno, ?_⟩
  rcases hreport _ _ _ hreps hnamed hno with ⟨-, hleft⟩ | ⟨hnone, -⟩
  · exact hleft
  · exact absurd halike (hnone _ List.mem_cons_self).1

/-- `x < y` between reals. -/
def lessReal : Constraint :=
  .real (.var ⟨"x", .one, .zero false, .two⟩) (.rel .lt) (.var ⟨"y", .two, .zero false, .two⟩)

/-- `x < y` between integers. -/
def lessInt : Constraint := .relate (named "x" 9) .lt (named "y" 9)

/-- An input with the name `(add x y)`. -/
def oddName : Constraint := .relate (named "(add x y)" 9) .eq (named "z" 9)

/-- `(add x y) == z` for inputs `x` and `y`. -/
def addedEqual : Constraint :=
  .relate (.binary (named "x" 9) .add (named "y" 9) 2) .eq (named "z" 9)

/-- What reads like the constraint that is held is left out. -/
theorem holding_report {c d : Constraint} (hc : c.normalize = .ok c) (h : c.render = d.render) :
    (holding d).report (.supporting c) = .ok (holding d, none) := by
  have hseen : (holding d).seen.contains ((holding d).hash c.render) = true := by
    rw [h]
    exact List.contains_iff_mem.mpr (List.mem_singleton.mpr rfl)
  rw [report_supporting hc, support, if_pos hseen]

/-- **Not every constraint that is left out is pending.**  A relation of integers is lost behind
one of reals with the same names, and a sum behind an input that has its text for a name. -/
theorem lessInt_lost :
    lessInt.Plain ∧
    ofReports Text.xxhash64 [.supporting lessReal] = .ok (holding lessReal) ∧
    (holding lessReal).report (.supporting lessInt) = .ok (holding lessReal, none) ∧
    (∀ d ∈ (holding lessReal).pending, ¬ lessInt.Alike d) ∧
    addedEqual.Plain ∧
    ofReports Text.xxhash64 [.supporting oddName] = .ok (holding oddName) ∧
    (holding oddName).report (.supporting addedEqual) = .ok (holding oddName, none) ∧
    (∀ d ∈ (holding oddName).pending, ¬ addedEqual.Alike d) := by
  have hx : IsName "x" := ⟨by decide, by decide⟩
  have hy : IsName "y" := ⟨by decide, by decide⟩
  have hz : IsName "z" := ⟨by decide, by decide⟩
  refine ⟨⟨hx, hy⟩, ofReports_holding rfl, holding_report rfl (by decide +kernel), ?_,
    ⟨⟨by decide, hx, hy⟩, hz⟩, ofReports_holding rfl, holding_report rfl (by decide +kernel), ?_⟩
  · refine List.forall_mem_singleton.mpr fun h => ?_
    cases h
  · refine List.forall_mem_singleton.mpr fun h => ?_
    cases h with
    | int _ hl _ => cases hl

end PathCondition

end Concolic
