import Concolic.Proofs.Declarations

/-
# What cannot be stated to a solver

A node of an expression is `Unstatable` if the solver's language has no counterpart for it: an
operator is missing there, or a number has no literal.  This is said of the node alone.

The terms are built from the leaves up, and every place that builds one can refuse.  A place that
forgot to pass on the refusal of a part, or refused something of its own, would be seen here: an
expression has a term exactly if no node of it is unstatable, and the error that is given instead
names such a node (`Attempt`, `ofExpr_attempt`).  Parts without inputs count as well, since they are
stated like all others.

So a list of constraints is refused exactly if a constraint has a comparator that is no relation or
an unstatable node (`encode_error_iff`).  Then nothing is written, wherever that constraint stands
in the list.
-/
namespace Concolic

/-! ## 1. Nodes without a counterpart -/

/-- The node cannot be stated, whatever is below it.  Bitwise operators, narrowing and the real
remainder have no counterpart, and infinities and not-a-number no literal.  Nor can a reference be
stated, but no constraint has one. -/
def Expr.Unstatable : Expr → Prop
  | .int (.binary _ op _ _) => op ∉ [.add, .sub, .mul, .div, .rem]
  | .int (.unary op _ _) => op ≠ .neg
  | .real (.const v) => v.view = .nan ∨ ∃ neg, v.view = .infinite neg
  | .real (.binary _ op _ _) => op ∉ [.add, .sub, .mul, .div]
  | .real (.unary op _ _) => op ≠ .neg
  | .ref _ => True
  | _ => False

/-- The expression is a node of one of the sides. -/
def Constraint.HasNode (c : Constraint) (s : Expr) : Prop := s ∈ c.left.nodes ∨ s ∈ c.right.nodes

/-- The comparator is no relation, or a node cannot be stated. -/
def Constraint.Refused (c : Constraint) : Prop :=
  (∃ n, c.comparator = .other n) ∨ ∃ s, c.HasNode s ∧ s.Unstatable

namespace Smt

theorem Term.ofIntBinary_eq_none {op : Operator} {a b : Term} :
    ofIntBinary op a b = none ↔ op ∉ [Operator.add, .sub, .mul, .div, .rem] := by
  cases op <;> simp [ofIntBinary]

theorem Term.ofRealBinary_eq_none {op : Operator} {a b : Term} :
    ofRealBinary op a b = none ↔ op ∉ [Operator.add, .sub, .mul, .div] := by
  cases op <;> simp [ofRealBinary]

theorem Term.ofDouble_eq_none {v : Double} :
    ofDouble v = none ↔ v.view = .nan ∨ ∃ neg, v.view = .infinite neg := by
  rw [ofDouble]
  cases v.view <;> simp

/-! ## 2. Expressions -/

/-- The term for an expression. -/
def Term.ofExpr : Expr → Except Error Term
  | .int e => ofIntExpr e
  | .real e => ofRealExpr e
  | .str e => .ok (ofStrExpr e)
  | .ref e => .error (.unsupported .leaf (.ref e))

/-- What comes of stating an expression: a term if all its nodes can be stated, and else an error
that names one which cannot. -/
def Attempt (e : Expr) (r : Except Error Term) : Prop :=
  ((∃ t, r = .ok t) ∧ ∀ s ∈ e.nodes, ¬ s.Unstatable) ∨
    ∃ place s, r = .error (.unsupported place s) ∧ s ∈ e.nodes ∧ s.Unstatable

/-- What comes of stating a node when its parts are stated. -/
def OwnAttempt (e : Expr) (r : Except Error Term) : Prop :=
  ((∃ t, r = .ok t) ∧ ¬ e.Unstatable) ∨
    ∃ place, r = .error (.unsupported place e) ∧ e.Unstatable

theorem OwnAttempt.ok {e : Expr} (h : ¬ e.Unstatable) (t : Term) : OwnAttempt e (.ok t) :=
  Or.inl ⟨⟨t, rfl⟩, h⟩

theorem ownAttempt_supported {e : Expr} {o : Option Term} (h : o = none ↔ e.Unstatable)
    (place : Place) : OwnAttempt e (supported place e o) := by
  cases o with
  | none => exact Or.inr ⟨place, rfl, h.1 rfl⟩
  | some t =>
    refine OwnAttempt.ok ?_ t
    intro hno
    cases h.2 hno

theorem attempt_leaf {e : Expr} {r : Except Error Term} (hnodes : e.nodes = [e])
    (h : OwnAttempt e r) : Attempt e r := by
  rcases h with ⟨hok, hcan⟩ | ⟨place, herror, hcannot⟩
  · refine Or.inl ⟨hok, ?_⟩
    simpa [hnodes] using hcan
  · exact Or.inr ⟨place, e, herror, e.mem_nodes_self, hcannot⟩

theorem attempt_pair {e l r : Expr} {x y : Except Error Term} {f : Term → Term → Except Error Term}
    (hnodes : e.nodes = e :: (l.nodes ++ r.nodes)) (hx : Attempt l x) (hy : Attempt r y)
    (hf : ∀ a b, OwnAttempt e (f a b)) :
    Attempt e (do let a ← x; let b ← y; f a b) := by
  rcases hx with ⟨⟨a, rfl⟩, hl⟩ | ⟨place, s, rfl, hs, hcannot⟩
  · rcases hy with ⟨⟨b, rfl⟩, hr⟩ | ⟨place, s, rfl, hs, hcannot⟩
    · rcases hf a b with ⟨hok, hcan⟩ | ⟨place, herror, hcannot⟩
      · refine Or.inl ⟨hok, ?_⟩
        rw [hnodes, List.forall_mem_cons, List.forall_mem_append]
        exact ⟨hcan, hl, hr⟩
      · exact Or.inr ⟨place, e, herror, e.mem_nodes_self, hcannot⟩
    · exact Or.inr ⟨place, s, rfl, by simp [hnodes, hs], hcannot⟩
  · exact Or.inr ⟨place, s, rfl, by simp [hnodes, hs], hcannot⟩

theorem attempt_single {e x : Expr} {r : Except Error Term} {f : Term → Term}
    (hnodes : e.nodes = e :: x.nodes) (hr : Attempt x r) (he : ¬ e.Unstatable) :
    Attempt e (r.map f) := by
  rcases hr with ⟨⟨a, rfl⟩, hx⟩ | ⟨place, s, rfl, hs, hcannot⟩
  · refine Or.inl ⟨⟨f a, rfl⟩, ?_⟩
    rw [hnodes, List.forall_mem_cons]
    exact ⟨he, hx⟩
  · exact Or.inr ⟨place, s, rfl, by simp [hnodes, hs], hcannot⟩

/-- A unary node refuses before its part is looked at. -/
theorem attempt_unary {e x : Expr} {op : Operator} {r : Except Error Term}
    (hnodes : e.nodes = e :: x.nodes) (hr : Attempt x r) (he : e.Unstatable ↔ op ≠ .neg) :
    Attempt e (if op = .neg then r.map Term.negated else .error (.unsupported .unary e)) := by
  split
  next hop => exact attempt_single hnodes hr fun hcannot => he.1 hcannot hop
  next hop => exact Or.inr ⟨.unary, e, rfl, e.mem_nodes_self, he.2 hop⟩

/-- **An expression has a term exactly if all its nodes can be stated.** -/
theorem ofExpr_attempt (e : Expr) : Attempt e (Term.ofExpr e) := by
  induction e with
  | intConst v => exact attempt_leaf rfl (.ok id _)
  | intVar x => exact attempt_leaf rfl (.ok id _)
  | intBinary l op r c ihl ihr =>
    exact attempt_pair rfl ihl ihr fun a b => ownAttempt_supported Term.ofIntBinary_eq_none _
  | intUnary op x c ih => exact attempt_unary rfl ih Iff.rfl
  | compare l r c ihl ihr => exact attempt_pair rfl ihl ihr fun a b => .ok id _
  | compareReal l r c ihl ihr => exact attempt_pair rfl ihl ihr fun a b => .ok id _
  | ofReal x c ih => exact attempt_single rfl ih id
  | realConst v => exact attempt_leaf rfl (ownAttempt_supported Term.ofDouble_eq_none _)
  | realVar x => exact attempt_leaf rfl (.ok id _)
  | realBinary l op r c ihl ihr =>
    exact attempt_pair rfl ihl ihr fun a b => ownAttempt_supported Term.ofRealBinary_eq_none _
  | realUnary op x c ih => exact attempt_unary rfl ih Iff.rfl
  | ofInt x c ih => exact attempt_single rfl ih id
  | str e => exact attempt_leaf rfl (.ok id _)
  | ref e => exact attempt_leaf rfl (Or.inr ⟨.leaf, rfl, trivial⟩)

/-! ## 3. Constraints -/

/-- The term for a constraint whose sides have the terms `a` and `b`. -/
def Term.compareSides (c : Constraint) (a b : Term) : Except Error Term :=
  match c, c.comparator with
  | .str .., .rel ρ => .ok (textRelation ρ a b)
  | .str .., .other n => .error (.textComparator (.other n))
  | _, cmp => compareNumbers cmp a b

theorem ofConstraint_eq (c : Constraint) :
    Term.ofConstraint c =
      (do let a ← Term.ofExpr c.left; let b ← Term.ofExpr c.right; Term.compareSides c a b) := by
  cases c with
  | int l cmp r => rfl
  | real l cmp r => rfl
  | str l cmp r => cases cmp <;> rfl

theorem compareSides_cases (c : Constraint) (a b : Term) :
    ((∃ t, Term.compareSides c a b = .ok t) ∧ ∃ ρ, c.comparator = .rel ρ) ∨
      ((∃ e, Term.compareSides c a b = .error e) ∧ ∃ n, c.comparator = .other n) := by
  rcases c with ⟨l, ρ | n, r⟩ | ⟨l, ρ | n, r⟩ | ⟨l, ρ | n, r⟩
  all_goals first
    | exact Or.inl ⟨⟨_, rfl⟩, ρ, rfl⟩
    | exact Or.inr ⟨⟨_, rfl⟩, n, rfl⟩

/-- A constraint that is not refused has a term.  One that is has an error, which names an
unstatable node of it if the comparator is a relation. -/
theorem ofConstraint_cases (c : Constraint) :
    ((∃ t, Term.ofConstraint c = .ok t) ∧ ¬ c.Refused) ∨
      ∃ e, Term.ofConstraint c = .error e ∧ c.Refused ∧
        ∀ ρ, c.comparator = .rel ρ → ∃ place s, e = .unsupported place s ∧ c.HasNode s ∧
          s.Unstatable := by
  rw [ofConstraint_eq]
  rcases ofExpr_attempt c.left with ⟨⟨a, ha⟩, hleft⟩ | ⟨place, s, herror, hs, hcannot⟩
  · rcases ofExpr_attempt c.right with ⟨⟨b, hb⟩, hright⟩ | ⟨place, s, herror, hs, hcannot⟩
    · rw [ha, hb]
      rcases compareSides_cases c a b with ⟨hok, ρ, hρ⟩ | ⟨⟨e, herror⟩, n, hn⟩
      · refine Or.inl ⟨hok, ?_⟩
        rintro (⟨n, hn⟩ | ⟨s, hs | hs, hcannot⟩)
        · cases hρ.symm.trans hn
        · exact hleft s hs hcannot
        · exact hright s hs hcannot
      · refine Or.inr ⟨e, herror, Or.inl ⟨n, hn⟩, ?_⟩
        intro ρ hρ
        cases hρ.symm.trans hn
    · rw [ha, herror]
      exact Or.inr ⟨_, rfl, Or.inr ⟨s, Or.inr hs, hcannot⟩,
        fun _ _ => ⟨place, s, rfl, Or.inr hs, hcannot⟩⟩
  · rw [herror]
    exact Or.inr ⟨_, rfl, Or.inr ⟨s, Or.inl hs, hcannot⟩,
      fun _ _ => ⟨place, s, rfl, Or.inl hs, hcannot⟩⟩

/-! ## 4. Scripts -/

/-- The error of a list is that of one of its constraints. -/
theorem terms_cases (cs : List Constraint) :
    ((terms cs).2 = none ∧ ∀ c ∈ cs, ¬ c.Refused) ∨
      ∃ c ∈ cs, c.Refused ∧ ∃ e, Term.ofConstraint c = .error e ∧ (terms cs).2 = some e := by
  induction cs with
  | nil => exact Or.inl ⟨rfl, fun c hc => absurd hc List.not_mem_nil⟩
  | cons c cs ih =>
    rcases ofConstraint_cases c with ⟨⟨t, ht⟩, hc⟩ | ⟨e, he, hc, -⟩
    · have hterms : (terms (c :: cs)).2 = (terms cs).2 := by simp [terms, ht]
      rw [hterms, List.forall_mem_cons]
      rcases ih with ⟨hnone, hcs⟩ | ⟨d, hd, hrest⟩
      · exact Or.inl ⟨hnone, hc, hcs⟩
      · exact Or.inr ⟨d, List.mem_cons_of_mem c hd, hrest⟩
    · exact Or.inr ⟨c, List.mem_cons_self, hc, e, he, by simp [terms, he]⟩

theorem script_cases (cs : List Constraint) :
    ((∃ out, script cs = .ok out) ∧ ∀ c ∈ cs, ¬ c.Refused) ∨
      ∃ c ∈ cs, c.Refused ∧ ∃ e, Term.ofConstraint c = .error e ∧ script cs = .error e := by
  rcases hterms : terms cs with ⟨ts, err⟩
  have hcases := terms_cases cs
  rw [hterms] at hcases
  rcases hcases with ⟨rfl, hcs⟩ | ⟨c, hc, hrefused, e, he, rfl⟩
  · exact Or.inl ⟨⟨_, by rw [script, hterms]⟩, hcs⟩
  · exact Or.inr ⟨c, hc, hrefused, e, he, by rw [script, hterms]⟩

/-- **Exactly the unsupported constraints are refused, and then nothing is written.**  Writing the
script for a list of constraints fails exactly if one of them has a comparator that is no relation
or a node that cannot be stated, at any depth.  If it fails, nothing is added to what was written
before; and if all comparators are relations, the error is that an expression is not supported, and
names a node of the constraints that cannot be stated.  If it does not fail, the whole script is
added. -/
theorem encode_error_iff (enc : Encoder) (cs : List Constraint) :
    ((∃ e, (enc.encode cs).1 = .error e) ↔ ∃ c ∈ cs, c.Refused) ∧
    (∀ e, (enc.encode cs).1 = .error e →
      (enc.encode cs).2.written = enc.written ∧
      ((∀ c ∈ cs, ∃ ρ, c.comparator = .rel ρ) →
        ∃ place s, e = .unsupported place s ∧ s.Unstatable ∧ ∃ c ∈ cs, c.HasNode s)) ∧
    ((enc.encode cs).1 = .ok () →
      ∃ ts, List.Forall₂ (fun c t => Term.ofConstraint c = .ok t) cs ts ∧
        (enc.encode cs).2.written = enc.written ++ renderCommands (commands cs ts)) := by
  rcases script_cases cs with ⟨⟨out, hout⟩, hcs⟩ | ⟨c, hc, hrefused, e, he, hscript⟩
  · have hresult : (enc.encode cs).1 = .ok () := by simp [Encoder.encode, hout]
    have hwritten : (enc.encode cs).2.written = enc.written ++ out := by
      simp [Encoder.encode, hout]
    rw [hresult, hwritten]
    refine ⟨?_, ?_, ?_⟩
    · constructor
      · rintro ⟨e, he⟩
        cases he
      · rintro ⟨c, hc, hrefused⟩
        exact absurd hrefused (hcs c hc)
    · intro e he
      cases he
    · intro _
      obtain ⟨ts, hterms, rfl⟩ := script_ok hout
      exact ⟨ts, forall₂_terms hterms, rfl⟩
  · have hresult : (enc.encode cs).1 = .error e := by simp [Encoder.encode, hscript]
    have hwritten : (enc.encode cs).2.written = enc.written := by simp [Encoder.encode, hscript]
    rw [hresult, hwritten]
    refine ⟨?_, ?_, ?_⟩
    · exact ⟨fun _ => ⟨c, hc, hrefused⟩, fun _ => ⟨e, rfl⟩⟩
    · intro e' he'
      cases he'
      refine ⟨rfl, ?_⟩
      intro hrelations
      obtain ⟨ρ, hρ⟩ := hrelations c hc
      rcases ofConstraint_cases c with ⟨⟨t, ht⟩, -⟩ | ⟨e', he', -, hnamed⟩
      · cases he.symm.trans ht
      · cases he.symm.trans he'
        obtain ⟨place, s, hs, hnode, hcannot⟩ := hnamed ρ hρ
        exact ⟨place, s, hs, hcannot, c, hc, hnode⟩
    · intro hok
      cases hok

end Smt

end Concolic
