import Concolic.Proofs.Nodes
import Concolic.Smt.Script
import Mathlib.Data.List.Nodup

/-
# The symbols of a script

A script declares the inputs of its constraints and asserts ranges and constraints about them.  If
inputs with one name are one input, every input is declared once (`mem_variables_iff`,
`nodup_variables`), and a term names exactly the inputs of the expression it states
(`names_of_states`).

What the solver makes of it depends on how names are written.  A name that is no simple symbol is
put between bars, and there is no way to write a bar inside: it becomes an underscore.  A reader for
whom `|s|` and `s` are the same symbol therefore reads every name with underscores for its bars
(`symbolOf_symbolText`).  So the declared symbols are distinct exactly if the names are distinct
after this replacement (`declared_symbols_nodup_iff`), and the inputs `a|b` and `a_b` become one
symbol that is declared twice (`barAndUnderscore_merged`).
-/
namespace Concolic

/-! ## 1. The inputs of constraints -/

namespace Sorting

variable {α : Type} (le : α → α → Bool)

theorem insertBy_perm (x : α) (xs : List α) : (insertBy le x xs).Perm (x :: xs) := by
  induction xs with
  | nil => exact .refl _
  | cons y ys ih =>
    unfold insertBy
    split
    · exact .refl _
    · exact (ih.cons y).trans (.swap x y ys)

theorem sortBy_perm (xs : List α) : (sortBy le xs).Perm xs := by
  induction xs with
  | nil => exact .refl _
  | cons x xs ih => exact (insertBy_perm le x _).trans (ih.cons x)

end Sorting

namespace Variable

theorem lastOfName_sublist (xs : List Variable) : (lastOfName xs).Sublist xs := by
  induction xs with
  | nil => exact .refl _
  | cons x xs ih =>
    unfold lastOfName
    split
    · exact ih.cons x
    · exact ih.cons_cons x

/-- Every name keeps an input. -/
theorem exists_mem_lastOfName {x : Variable} {xs : List Variable} (h : x ∈ xs) :
    ∃ y ∈ lastOfName xs, y.name = x.name := by
  induction xs generalizing x with
  | nil => cases h
  | cons z zs ih =>
    unfold lastOfName
    split
    next hany =>
      rcases List.mem_cons.1 h with rfl | h
      · obtain ⟨y, hy, hname⟩ := List.any_eq_true.1 hany
        obtain ⟨w, hw, hwy⟩ := ih hy
        exact ⟨w, hw, hwy.trans (by simpa using hname)⟩
      · exact ih h
    next hany =>
      rcases List.mem_cons.1 h with rfl | h
      · exact ⟨x, List.mem_cons_self, rfl⟩
      · obtain ⟨y, hy, hname⟩ := ih h
        exact ⟨y, List.mem_cons_of_mem _ hy, hname⟩

theorem nodup_lastOfName (xs : List Variable) : (lastOfName xs).Nodup := by
  induction xs with
  | nil => exact List.nodup_nil
  | cons x xs ih =>
    unfold lastOfName
    split
    · exact ih
    next hany =>
      refine List.nodup_cons.2 ⟨fun hx => hany ?_, ih⟩
      exact List.any_eq_true.2 ⟨x, (lastOfName_sublist xs).subset hx, by simp⟩

end Variable

namespace Constraint

/-- The input occurs on a side of the constraint. -/
def Mentions (c : Constraint) (x : Variable) : Prop :=
  x.toExpr ∈ c.left.nodes ∨ x.toExpr ∈ c.right.nodes

/-- The input occurs in one of the constraints. -/
def Mentioned (cs : List Constraint) (x : Variable) : Prop := ∃ c ∈ cs, c.Mentions x

theorem mem_occurrences {cs : List Constraint} {x : Variable} :
    x ∈ (cs.flatMap fun c => c.left.variables ++ c.right.variables) ↔ Mentioned cs x := by
  simp only [List.mem_flatMap, List.mem_append, Expr.mem_variables]
  rfl

/-- **Every input is declared.**  Only the last occurrence of a name is kept, but if no two inputs
share a name all occurrences of it are the same. -/
theorem mem_variables_iff {cs : List Constraint}
    (hnames : ∀ x y, Mentioned cs x → Mentioned cs y → x.name = y.name → x = y) {x : Variable} :
    x ∈ Constraint.variables cs ↔ Mentioned cs x := by
  rw [Constraint.variables, (Sorting.sortBy_perm _ _).mem_iff]
  constructor
  · intro h
    exact mem_occurrences.1 ((Variable.lastOfName_sublist _).subset h)
  · intro h
    obtain ⟨y, hy, hname⟩ := Variable.exists_mem_lastOfName (mem_occurrences.2 h)
    have hmem := mem_occurrences.1 ((Variable.lastOfName_sublist _).subset hy)
    rwa [hnames x y h hmem hname.symm]

theorem nodup_variables (cs : List Constraint) : (Constraint.variables cs).Nodup := by
  rw [Constraint.variables, (Sorting.sortBy_perm _ _).nodup_iff]
  exact Variable.nodup_lastOfName _

end Constraint

/-! ## 2. The names in expressions and terms -/

namespace Expr

/-- An input of this name is a node of the expression. -/
def Uses (e : Expr) (n : String) : Prop := ∃ x : Variable, x.toExpr ∈ e.nodes ∧ x.name = n

theorem uses_inner {e : Expr} {rest : List Expr} (h : e.nodes = e :: rest)
    (hv : e.asVariable? = none) (n : String) :
    e.Uses n ↔ ∃ x : Variable, x.toExpr ∈ rest ∧ x.name = n := by
  have hne : ∀ x : Variable, x.toExpr ≠ e := by
    rintro x rfl
    rw [asVariable?_eq_some.2 rfl] at hv
    cases hv
  simp only [Uses, h, List.mem_cons, hne, false_or]

theorem uses_pair {e l r : Expr} (h : e.nodes = e :: (l.nodes ++ r.nodes))
    (hv : e.asVariable? = none) (n : String) : e.Uses n ↔ l.Uses n ∨ r.Uses n := by
  rw [uses_inner h hv]
  simp only [Uses, List.mem_append, or_and_right, exists_or]

theorem uses_single {e x : Expr} (h : e.nodes = e :: x.nodes) (hv : e.asVariable? = none)
    (n : String) : e.Uses n ↔ x.Uses n :=
  uses_inner h hv n

theorem not_uses_leaf {e : Expr} (h : e.nodes = [e]) (hv : e.asVariable? = none) (n : String) :
    ¬ e.Uses n := by
  rw [uses_inner h hv]
  simp

theorem uses_toExpr (x : Variable) (n : String) : x.toExpr.Uses n ↔ n = x.name := by
  have hnodes : x.toExpr.nodes = [x.toExpr] := by cases x <;> rfl
  constructor
  · rintro ⟨y, hy, rfl⟩
    rw [hnodes, List.mem_singleton] at hy
    have hyx := asVariable?_eq_some.2 hy
    rw [asVariable?_eq_some.2 rfl] at hyx
    cases hyx
    rfl
  · rintro rfl
    exact ⟨x, mem_nodes_self _, rfl⟩

end Expr

namespace Smt

/-- The names that a term speaks of, from left to right. -/
def Term.names : Term → List String
  | numeral _ => []
  | fraction _ => []
  | text _ => []
  | symbol n => [n]
  | app1 _ a => a.names
  | app2 _ a b => a.names ++ b.names
  | ite c a b => c.names ++ a.names ++ b.names

namespace Term

@[simp] theorem names_negated (a : Term) : a.negated.names = a.names := rfl

@[simp] theorem names_ofInt (v : Int) : (ofInt v).names = [] := by
  unfold ofInt
  split <;> rfl

theorem names_ofDouble {v : Double} {t : Term} (h : ofDouble v = some t) : t.names = [] := by
  unfold ofDouble at h
  split at h
  · cases h
    split <;> rfl
  · cases h

theorem mem_names_ofIntBinary {op : Operator} {a b t : Term} (h : ofIntBinary op a b = some t)
    (n : String) : n ∈ t.names ↔ n ∈ a.names ∨ n ∈ b.names := by
  unfold ofIntBinary at h
  split at h <;> cases h <;> simp [names, quotient, remainder] <;> tauto

theorem mem_names_ofRealBinary {op : Operator} {a b t : Term} (h : ofRealBinary op a b = some t)
    (n : String) : n ∈ t.names ↔ n ∈ a.names ∨ n ∈ b.names := by
  unfold ofRealBinary at h
  split at h <;> cases h <;> simp [names]

theorem mem_names_threeWay (a b : Term) (n : String) :
    n ∈ (threeWay a b).names ↔ n ∈ a.names ∨ n ∈ b.names := by
  simp [threeWay, names]
  tauto

theorem mem_names_wholePart (a : Term) (n : String) : n ∈ (wholePart a).names ↔ n ∈ a.names := by
  simp [wholePart, names]

theorem mem_names_relation (ρ : Relation) (a b : Term) (n : String) :
    n ∈ (relation ρ a b).names ↔ n ∈ a.names ∨ n ∈ b.names := by
  cases ρ <;> simp [relation, names]

theorem mem_names_textRelation (ρ : Relation) (a b : Term) (n : String) :
    n ∈ (textRelation ρ a b).names ↔ n ∈ a.names ∨ n ∈ b.names := by
  cases ρ <;> simp [textRelation, names, or_comm]

end Term

/-- The term states the expression. -/
def States : Expr → Term → Prop
  | .int e, t => Term.ofIntExpr e = .ok t
  | .real e, t => Term.ofRealExpr e = .ok t
  | .str e, t => Term.ofStrExpr e = t
  | .ref _, _ => False

theorem ok_of_supported {place : Place} {e : Expr} {o : Option Term} {t : Term}
    (h : supported place e o = .ok t) : o = some t := by
  cases o with
  | none => cases h
  | some t' =>
    cases h
    rfl

theorem ok_of_bind {ε α β : Type} {x : Except ε α} {f : α → Except ε β} {b : β}
    (h : x >>= f = .ok b) : ∃ a, x = .ok a ∧ f a = .ok b := by
  cases x with
  | error err => cases h
  | ok a => exact ⟨a, rfl, h⟩

theorem ok_of_map {ε α β : Type} {x : Except ε α} {f : α → β} {b : β}
    (h : x.map f = .ok b) : ∃ a, x = .ok a ∧ f a = b := by
  cases x with
  | error err => cases h
  | ok a => exact ⟨a, rfl, Except.ok.inj h⟩

/-- **A term names the inputs of the expression it states**, and nothing else. -/
theorem names_of_states {e : Expr} {t : Term} (h : States e t) (n : String) :
    n ∈ t.names ↔ e.Uses n := by
  induction e generalizing t with
  | intConst v =>
    cases h
    simpa using Expr.not_uses_leaf rfl rfl n
  | intVar x =>
    cases h
    rw [show Expr.int (.var x) = (Variable.int x).toExpr from rfl, Expr.uses_toExpr]
    exact List.mem_singleton
  | intBinary l op r c ihl ihr =>
    rw [Expr.uses_pair (l := .int l) (r := .int r) rfl rfl]
    obtain ⟨a, ha, h⟩ := ok_of_bind h
    obtain ⟨b, hb, h⟩ := ok_of_bind h
    rw [Term.mem_names_ofIntBinary (ok_of_supported h), ihl ha, ihr hb]
  | intUnary op x c ih =>
    rw [Expr.uses_single (x := .int x) rfl rfl]
    change (if op = .neg then _ else _) = _ at h
    split at h
    · obtain ⟨a, ha, rfl⟩ := ok_of_map h
      rw [Term.names_negated, ih ha]
    · cases h
  | compare l r c ihl ihr =>
    rw [Expr.uses_pair (l := .int l) (r := .int r) rfl rfl]
    obtain ⟨a, ha, h⟩ := ok_of_bind h
    obtain ⟨b, hb, h⟩ := ok_of_bind h
    cases h
    rw [Term.mem_names_threeWay, ihl ha, ihr hb]
  | compareReal l r c ihl ihr =>
    rw [Expr.uses_pair (l := .real l) (r := .real r) rfl rfl]
    obtain ⟨a, ha, h⟩ := ok_of_bind h
    obtain ⟨b, hb, h⟩ := ok_of_bind h
    cases h
    rw [Term.mem_names_threeWay, ihl ha, ihr hb]
  | ofReal x c ih =>
    rw [Expr.uses_single (x := .real x) rfl rfl]
    obtain ⟨a, ha, rfl⟩ := ok_of_map h
    rw [Term.mem_names_wholePart, ih ha]
  | realConst v =>
    have ht := Term.names_ofDouble (ok_of_supported h)
    simpa [ht] using Expr.not_uses_leaf rfl rfl n
  | realVar x =>
    cases h
    rw [show Expr.real (.var x) = (Variable.real x).toExpr from rfl, Expr.uses_toExpr]
    exact List.mem_singleton
  | realBinary l op r c ihl ihr =>
    rw [Expr.uses_pair (l := .real l) (r := .real r) rfl rfl]
    obtain ⟨a, ha, h⟩ := ok_of_bind h
    obtain ⟨b, hb, h⟩ := ok_of_bind h
    rw [Term.mem_names_ofRealBinary (ok_of_supported h), ihl ha, ihr hb]
  | realUnary op x c ih =>
    rw [Expr.uses_single (x := .real x) rfl rfl]
    change (if op = .neg then _ else _) = _ at h
    split at h
    · obtain ⟨a, ha, rfl⟩ := ok_of_map h
      rw [Term.names_negated, ih ha]
    · cases h
  | ofInt x c ih =>
    rw [Expr.uses_single (x := .int x) rfl rfl]
    obtain ⟨a, ha, rfl⟩ := ok_of_map h
    change n ∈ a.names ↔ _
    exact ih ha
  | str e =>
    cases h
    cases e with
    | const v => simpa [Term.ofStrExpr, Term.names] using Expr.not_uses_leaf rfl rfl n
    | var x =>
      rw [show Expr.str (.var x) = (Variable.str x).toExpr from rfl, Expr.uses_toExpr]
      exact List.mem_singleton
  | ref e => cases h

/-- The names in the term of a constraint are those of the inputs of its sides. -/
theorem names_ofConstraint {c : Constraint} {t : Term} (h : Term.ofConstraint c = .ok t)
    (n : String) : n ∈ t.names ↔ ∃ x, c.Mentions x ∧ x.name = n := by
  have hsides : (∃ x, c.Mentions x ∧ x.name = n) ↔ c.left.Uses n ∨ c.right.Uses n := by
    simp only [Constraint.Mentions, Expr.Uses, or_and_right, exists_or]
  rw [hsides]
  cases c with
  | int l cmp r =>
    obtain ⟨a, ha, h⟩ := ok_of_bind h
    obtain ⟨b, hb, h⟩ := ok_of_bind h
    cases cmp with
    | other k => cases h
    | rel ρ =>
      cases h
      rw [Term.mem_names_relation, names_of_states (e := .int l) ha,
        names_of_states (e := .int r) hb]
      rfl
  | real l cmp r =>
    obtain ⟨a, ha, h⟩ := ok_of_bind h
    obtain ⟨b, hb, h⟩ := ok_of_bind h
    cases cmp with
    | other k => cases h
    | rel ρ =>
      cases h
      rw [Term.mem_names_relation, names_of_states (e := .real l) ha,
        names_of_states (e := .real r) hb]
      rfl
  | str l cmp r =>
    cases cmp with
    | other k => cases h
    | rel ρ =>
      cases h
      rw [Term.mem_names_textRelation, names_of_states (e := .str l) rfl,
        names_of_states (e := .str r) rfl]
      rfl

/-! ## 3. The commands of a script -/

/-- The input that a command declares. -/
def Command.declared? : Command → Option Variable
  | declare x => some x
  | _ => none

/-- The inputs that commands declare, in their order. -/
def declared (cmds : List Command) : List Variable := cmds.filterMap Command.declared?

theorem declared_append (as bs : List Command) :
    declared (as ++ bs) = declared as ++ declared bs :=
  List.filterMap_append

theorem declared_realBound (f name : String) (bound extreme : Double) :
    declared (realBound f name bound extreme) = [] := by
  unfold realBound
  split
  · rfl
  · split <;> rfl

theorem declared_declaration (x : Variable) : declared (declaration x) = [x] := by
  cases x with
  | int v => rfl
  | str v => rfl
  | real v =>
    change Variable.real v :: declared (realBound _ _ _ _ ++ realBound _ _ _ _) = _
    rw [declared_append, declared_realBound, declared_realBound]
    rfl

theorem declared_asserts (ts : List Term) : declared (ts.map .assert) = [] := by
  induction ts with
  | nil => rfl
  | cons t ts ih => exact ih

theorem declared_flatMap_declaration (xs : List Variable) :
    declared (xs.flatMap declaration) = xs := by
  induction xs with
  | nil => rfl
  | cons x xs ih =>
    rw [List.flatMap_cons, declared_append, declared_declaration, ih]
    rfl

theorem declared_commands (cs : List Constraint) (ts : List Term) :
    declared (commands cs ts) = Constraint.variables cs := by
  rw [commands, declared_append, declared_append, declared_asserts, List.append_nil]
  change declared ((Constraint.variables cs).flatMap declaration) ++ [] = _
  rw [declared_flatMap_declaration, List.append_nil]

theorem names_of_mem_realBound {f name : String} {bound extreme : Double} {t : Term}
    (h : .assert t ∈ realBound f name bound extreme) {n : String} (hn : n ∈ t.names) :
    n = name := by
  unfold realBound at h
  split at h
  · cases h
  split at h
  next u hu =>
    obtain rfl : t = _ := by simpa using h
    simpa [Term.names, Term.names_ofDouble hu] using hn
  · cases h

/-- The range of an input speaks of that input only. -/
theorem names_of_mem_declaration {x : Variable} {t : Term} (h : .assert t ∈ declaration x)
    {n : String} (hn : n ∈ t.names) : n = x.name := by
  cases x with
  | int v =>
    obtain rfl : t = _ := by simpa [declaration] using h
    simpa [Term.names, Variable.name] using hn
  | str v => simp [declaration] at h
  | real v =>
    have hbounds := (List.mem_cons.1 h).resolve_left Command.noConfusion
    rcases List.mem_append.1 hbounds with h | h
    · exact names_of_mem_realBound h hn
    · exact names_of_mem_realBound h hn

theorem assert_mem_commands {cs : List Constraint} {ts : List Term} {t : Term}
    (h : .assert t ∈ commands cs ts) :
    (∃ x ∈ Constraint.variables cs, .assert t ∈ declaration x) ∨ t ∈ ts := by
  simp only [commands, List.cons_append, List.mem_cons, List.mem_append, List.mem_flatMap,
    List.mem_map, Command.assert.injEq, List.not_mem_nil] at h
  simpa using h

theorem forall₂_terms {cs : List Constraint} {ts : List Term} (h : terms cs = (ts, none)) :
    List.Forall₂ (fun c t => Term.ofConstraint c = .ok t) cs ts := by
  induction cs generalizing ts with
  | nil =>
    cases h
    exact .nil
  | cons c cs ih =>
    unfold terms at h
    split at h
    · cases h
    next t ht =>
      cases hrest : terms cs with
      | mk us e =>
        rw [hrest] at h
        cases h
        exact .cons ht (ih hrest)

theorem exists_of_mem_right {α β : Type} {R : α → β → Prop} {as : List α} {bs : List β}
    (h : List.Forall₂ R as bs) {b : β} (hb : b ∈ bs) : ∃ a ∈ as, R a b := by
  induction h with
  | nil => cases hb
  | cons hab _ ih =>
    rcases List.mem_cons.1 hb with rfl | hb
    · exact ⟨_, List.mem_cons_self, hab⟩
    · obtain ⟨a, ha, hr⟩ := ih hb
      exact ⟨a, List.mem_cons_of_mem _ ha, hr⟩

theorem script_ok {cs : List Constraint} {out : String} (h : script cs = .ok out) :
    ∃ ts, terms cs = (ts, none) ∧ out = renderCommands (commands cs ts) := by
  unfold script at h
  split at h
  · cases h
  next ts hts => exact ⟨ts, hts, (Except.ok.inj h).symm⟩

/-! ## 4. Symbols -/

/-- The name with an underscore for every bar. -/
def barless (name : String) : String :=
  String.ofList (name.toList.map fun c => if c = '|' then '_' else c)

/-- The symbol that a text stands for.  Bars around it do not belong to it. -/
def symbolOf (text : String) : String :=
  match text.toList with
  | '|' :: cs => if cs.getLast? = some '|' then String.ofList cs.dropLast else text
  | _ => text

theorem ne_bar_of_isSymbolChar {first : Bool} {c : Char} (h : isSymbolChar first c = true) :
    c ≠ '|' := by
  rintro rfl
  revert h
  cases first <;> decide

theorem ne_bar_of_isSimple {cs : List Char} (h : isSimple cs = true) : ∀ c ∈ cs, c ≠ '|' := by
  cases cs with
  | nil => simp
  | cons c cs =>
    obtain ⟨hc, hcs⟩ : isSymbolChar true c = true ∧ cs.all (isSymbolChar false) = true := by
      simpa [isSimple] using h
    intro d hd
    rcases List.mem_cons.1 hd with rfl | hd
    · exact ne_bar_of_isSymbolChar hc
    · exact ne_bar_of_isSymbolChar (List.all_eq_true.1 hcs d hd)

theorem barless_of_no_bar {name : String} (h : ∀ c ∈ name.toList, c ≠ '|') :
    barless name = name := by
  have hmap : (name.toList.map fun c => if c = '|' then '_' else c) = name.toList := by
    refine (List.map_congr_left fun c hc => ?_).trans (List.map_id _)
    exact if_neg (h c hc)
  rw [barless, hmap, String.ofList_toList]

/-- **What is read for a name.** -/
theorem symbolOf_symbolText (name : String) : symbolOf (symbolText name) = barless name := by
  unfold symbolText
  split
  next hs =>
    have hbar := ne_bar_of_isSimple hs
    rw [barless_of_no_bar hbar, symbolOf]
    split
    next cs hcs => exact absurd rfl (hbar '|' (by simp [hcs]))
    · rfl
  next hs =>
    rw [symbolOf]
    simp [barless]

/-- **The declarations of a script.**  If inputs with one name are one input, the script for
accepted constraints declares each of their inputs once, every name in an assertion is that of a
declared input, and the assertions about constraints are the terms of these, each of which names the
inputs of its constraint.  The declared symbols are distinct exactly if no two inputs have names
that differ in bars and underscores only. -/
theorem declared_symbols_nodup_iff {cs : List Constraint} {out : String}
    (h : script cs = .ok out)
    (hnames : ∀ x y, Constraint.Mentioned cs x → Constraint.Mentioned cs y →
      x.name = y.name → x = y) :
    ∃ ts, out = renderCommands (commands cs ts) ∧
      (declared (commands cs ts)).Nodup ∧
      (∀ x, x ∈ declared (commands cs ts) ↔ Constraint.Mentioned cs x) ∧
      (∀ t, .assert t ∈ commands cs ts → ∀ n ∈ t.names,
        ∃ x ∈ declared (commands cs ts), x.name = n) ∧
      List.Forall₂ (fun c t => Term.ofConstraint c = .ok t ∧
        ∀ n, n ∈ t.names ↔ ∃ x, c.Mentions x ∧ x.name = n) cs ts ∧
      (((declared (commands cs ts)).map fun x => symbolOf (symbolText x.name)).Nodup ↔
        ∀ x y, Constraint.Mentioned cs x → Constraint.Mentioned cs y →
          barless x.name = barless y.name → x = y) := by
  obtain ⟨ts, hts, rfl⟩ := script_ok h
  have hmem : ∀ x, x ∈ Constraint.variables cs ↔ Constraint.Mentioned cs x :=
    fun x => Constraint.mem_variables_iff hnames
  have hterms : List.Forall₂ (fun c t => Term.ofConstraint c = .ok t ∧
      ∀ n, n ∈ t.names ↔ ∃ x, c.Mentions x ∧ x.name = n) cs ts :=
    (forall₂_terms hts).imp fun c t hct => ⟨hct, names_ofConstraint hct⟩
  refine ⟨ts, rfl, ?_⟩
  rw [declared_commands]
  refine ⟨Constraint.nodup_variables cs, hmem, fun t ht n hn => ?_, hterms, ?_⟩
  · rcases assert_mem_commands ht with ⟨x, hx, hdecl⟩ | ht
    · exact ⟨x, hx, (names_of_mem_declaration hdecl hn).symm⟩
    · obtain ⟨c, hc, -, hct⟩ := exists_of_mem_right hterms ht
      obtain ⟨x, hx, hname⟩ := (hct n).1 hn
      exact ⟨x, (hmem x).2 ⟨c, hc, hx⟩, hname⟩
  · simp only [symbolOf_symbolText]
    rw [List.nodup_map_iff_inj_on (Constraint.nodup_variables cs)]
    simp only [hmem]
    exact ⟨fun hinj x y hx hy => hinj x hx y hy, fun hinj x hx y hy => hinj x y hx hy⟩

/-- The equation of two inputs whose names differ in a bar and an underscore. -/
def barAndUnderscore : List Constraint :=
  [.int (.var ⟨"a|b", 1, 0, 9⟩) (.rel .eq) (.var ⟨"a_b", 2, 0, 9⟩)]

theorem mentioned_barAndUnderscore {x : Variable}
    (h : Constraint.Mentioned barAndUnderscore x) :
    x = .int ⟨"a|b", 1, 0, 9⟩ ∨ x = .int ⟨"a_b", 2, 0, 9⟩ := by
  obtain ⟨c, hc, hx⟩ := h
  obtain rfl := List.mem_singleton.1 hc
  rcases hx with hx | hx
  · exact Or.inl (Option.some.inj (Expr.asVariable?_eq_some.2 (List.mem_singleton.1 hx).symm)).symm
  · exact Or.inr (Option.some.inj (Expr.asVariable?_eq_some.2 (List.mem_singleton.1 hx).symm)).symm

/-- **Two inputs, one symbol.**  The names are different and the constraint is accepted, but the
symbols declared for them are not. -/
theorem barAndUnderscore_merged :
    (∀ x y, Constraint.Mentioned barAndUnderscore x → Constraint.Mentioned barAndUnderscore y →
      x.name = y.name → x = y) ∧
    ∃ ts, script barAndUnderscore = .ok (renderCommands (commands barAndUnderscore ts)) ∧
      ¬ ((declared (commands barAndUnderscore ts)).map
        fun x => symbolOf (symbolText x.name)).Nodup := by
  have hnames : ∀ x y, Constraint.Mentioned barAndUnderscore x →
      Constraint.Mentioned barAndUnderscore y → x.name = y.name → x = y := by
    intro x y hx hy hname
    rcases mentioned_barAndUnderscore hx with rfl | rfl
    · rcases mentioned_barAndUnderscore hy with rfl | rfl
      · rfl
      · simp [Variable.name] at hname
    · rcases mentioned_barAndUnderscore hy with rfl | rfl
      · simp [Variable.name] at hname
      · rfl
  refine ⟨hnames, ?_⟩
  obtain ⟨ts, hts, -, -, -, -, hiff⟩ := declared_symbols_nodup_iff
    (show script barAndUnderscore = .ok (renderCommands (commands barAndUnderscore
      [.app2 "=" (.symbol "a|b") (.symbol "a_b")])) from rfl) hnames
  refine ⟨ts, hts ▸ rfl, fun hnodup => ?_⟩
  have hmerged := hiff.1 hnodup (.int ⟨"a|b", 1, 0, 9⟩) (.int ⟨"a_b", 2, 0, 9⟩)
    ⟨_, List.mem_singleton.2 rfl, Or.inl (Expr.mem_nodes_self _)⟩
    ⟨_, List.mem_singleton.2 rfl, Or.inr (Expr.mem_nodes_self _)⟩ (by decide)
  exact absurd hmerged (by decide)

end Smt

end Concolic
