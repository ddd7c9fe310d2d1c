import Concolic.Proofs.Endless

/-
# Rejected lines

A line can be wrong in itself: its instruction is unknown, it has too few or too many arguments, or
an argument is not of the kind that is wanted, such as a number that cannot be read or a name that
the host does not know.  What kinds of arguments an instruction takes is its signature, and with the
signatures and the names of the host it can be told of a line whether it is rejected and why
(`rejection?`), without a look at the machine.

The readers do as the signatures say (`signatures_describe`), although each of them reads its
arguments and looks at the stack in its own way.  A rejected line changes nothing; any other line
can fail only on what the machine finds.  Names do not change on a run, so the rejected lines of a
run can be left out of it beforehand (`after_filter`).

A line that is not rejected need not be answered at all: if the classes of the trace go round in a
cycle, an instruction that walks up from one of them never ends.
-/
namespace Concolic.Replay

/-! ## 1. Signatures -/

/-- What an argument must be. -/
inductive ArgKind
  | text
  | index
  | word
  | long
  | real (p : Numeral.Precision)
  | object
  | array
  | dispatch
  /-- A value of the type that another argument names. -/
  | valueOf (i : Nat)
  /-- A value of the result type of the method whose descriptor is another argument. -/
  | resultOf (i : Nat)
deriving DecidableEq, Repr

def errorOf : Except ε α → Option ε
  | .ok _ => none
  | .error e => some e

/-- Why the text `s` is not of the kind; `args` are all arguments of the line. -/
def ArgKind.rejection? (h : Host) (args : List String) (s : String) : ArgKind → Option Cause
  | text => none
  | index => errorOf (readIndex s)
  | word => errorOf (readWord s)
  | long => errorOf (ofNumeral (Numeral.parseInteger 64 s))
  | real p => errorOf (ofNumeral (Numeral.parseReal p s))
  | object => errorOf (ofValue (h.lookup s))
  | array => errorOf (ofValue (h.array s))
  | dispatch => errorOf (readDispatch s)
  | valueOf i => errorOf (ofValue (h.read (args.getD i "") s))
  | resultOf i => errorOf (ofValue (h.read (resultType (args.getD i "")) s))

/-- Why the first text is rejected that is not of its kind. -/
def firstRejection (h : Host) (args : List String) : List ArgKind → List String → Option Cause
  | k :: ks, s :: ss => (k.rejection? h args s).or (firstRejection h args ks ss)
  | _, _ => none

/-- What arguments an instruction takes. -/
inductive Signature
  | fixed (kinds : List ArgKind)
  /-- The number of a branch and any number of keys. -/
  | keys
  /-- A method descriptor, a kind of dispatch and the result, which may be left out. -/
  | call
deriving DecidableEq, Repr

/-- Why the instruction with the name does not take the arguments. -/
def Signature.rejection? (name : String) (h : Host) (args : List String) :
    Signature → Option Error
  | fixed kinds =>
    if args.length = kinds.length then (firstRejection h args kinds args).map (.inside name)
    else some (.arity name kinds.length args.length)
  | keys =>
    if args = [] then some (.inside name .noBranch)
    else (firstRejection h args (args.map fun _ => .word) args).map (.inside name)
  | call =>
    if args.length = 2 ∨ args.length = 3 then
      (firstRejection h args [.text, .dispatch, .resultOf 0] args).map (.inside name)
    else some (.inside name (.callArity args.length))

/-- The signatures by the names of the instructions. -/
def signatures : Mnemonic.Names Signature :=
  Mnemonic.plain.map (fun (n, _) => (n, Signature.fixed [])) ++
  Mnemonic.onLocal.map (fun (n, _) => (n, Signature.fixed [.index])) ++
  Mnemonic.branch.map (fun (n, _) => (n, Signature.fixed [.index])) ++
  Mnemonic.intDivision.map (fun (n, _) => (n, Signature.fixed [])) ++
  Mnemonic.longDivision.map (fun (n, _) => (n, Signature.fixed [])) ++
  Mnemonic.arrayLoad.map (fun (n, _) => (n, Signature.fixed [.array])) ++
  Mnemonic.arrayStore.map (fun (n, w) =>
    (n, Signature.fixed (if w = .ref then [.array, .object] else [.array]))) ++
  ([("ICONST", .fixed [.index]), ("BIPUSH", .fixed [.index]), ("SIPUSH", .fixed [.index]),
    ("LCONST", .fixed [.long]), ("FCONST", .fixed [.real .single]),
    ("DCONST", .fixed [.real .double]), ("LDC", .fixed [.text, .valueOf 0]),
    ("IINC", .fixed [.index, .word]), ("TABLESWITCH", .fixed [.word, .word, .word]),
    ("LOOKUPSWITCH", .keys), ("NEW", .fixed [.text]), ("NEWARRAY", .fixed [.text]),
    ("ANEWARRAY", .fixed [.text]), ("MULTIANEWARRAY", .fixed [.text, .index]),
    ("ARRAYLENGTH", .fixed [.array]),
    ("GETFIELD", .fixed [.object, .text, .text, .text, .valueOf 3]),
    ("PUTFIELD", .fixed [.object, .text, .text, .text]),
    ("GETSTATIC", .fixed [.text, .text, .text, .valueOf 2]),
    ("PUTSTATIC", .fixed [.text, .text, .text]), ("CHECKCAST", .fixed [.text]),
    ("INSTANCEOF", .fixed [.object, .text]), ("MONITORENTER", .fixed [.object]),
    ("MONITOREXIT", .fixed [.object]),
    ("INVOKE", .fixed [.text, .text, .text, .dispatch, .index]), ("CALL", .call),
    ("EXCEPTION", .fixed [.index, .object])] : Mnemonic.Names Signature)

/-- Why a line is rejected, whatever the state of the machine. -/
def rejection? (h : Host) (line : String) : Option Error :=
  match Text.fields line with
  | [] => none
  | word :: args =>
    match signatures.lookup (Text.upper word) with
    | none => some (.unknown (Text.upper word))
    | some sig => sig.rejection? (Text.upper word) h args

/-! ## 2. Readers -/

/-- What the machine finds: a failure, or that the stack does not hold so many dimensions. -/
def Cause.Found : Cause → Prop
  | failure _ => True
  | dimensionCount _ => True
  | _ => False

/-- The computation is rejected for the reason that is given; without one, it can only fail on what
the machine finds. -/
def Rejects (o : Option Cause) (x : Except Cause α) : Prop :=
  match o with
  | some c => x = .error c
  | none => ∀ c, x = .error c → c.Found

namespace Rejects

variable {o : Option Cause} {x : Except Cause α} {g : α → Except Cause β}

theorem ok (a : α) : Rejects none (.ok a : Except Cause α) := fun c h => by cases h

theorem error (c : Cause) : Rejects (some c) (.error c : Except Cause α) := rfl

theorem found {c : Cause} (hc : c.Found) : Rejects none (.error c : Except Cause α) := by
  intro c' h
  cases h
  exact hc

/-- The next argument. -/
theorem bind (h : ∀ a, Rejects o (g a)) : Rejects ((errorOf x).or o) (x >>= g) := by
  cases x with
  | error c => exact error c
  | ok a => exact h a

/-- What follows the last argument. -/
theorem andThen (hx : Rejects o x) (h : ∀ a, x = .ok a → Rejects none (g a)) :
    Rejects o (x >>= g) := by
  cases x with
  | error c =>
    cases o with
    | some c' =>
      cases (show Except.error c = Except.error c' from hx)
      exact error c
    | none =>
      intro c' hc'
      cases hc'
      exact hx c rfl
  | ok a =>
    cases o with
    | some c => cases (show Except.ok a = Except.error c from hx)
    | none => exact h a rfl

end Rejects

theorem peek_rejects (r : Replay) (i : Nat) : Rejects none (r.peek i) := by
  unfold peek
  split
  · exact Rejects.ok _
  · exact Rejects.found trivial

theorem peekInt_rejects (r : Replay) (i : Nat) : Rejects none (r.peekInt i) := by
  refine (r.peek_rejects i).andThen fun o _ => ?_
  split
  · exact Rejects.ok _
  · exact Rejects.found trivial

theorem peekReal_rejects (r : Replay) (i : Nat) : Rejects none (r.peekReal i) := by
  refine (r.peek_rejects i).andThen fun o _ => ?_
  split
  · exact Rejects.ok _
  · exact Rejects.found trivial

theorem stackSize_rejects (r : Replay) : Rejects none r.stackSize := by
  unfold stackSize
  split
  · exact Rejects.found trivial
  · exact Rejects.ok _

theorem peekDims_rejects (r : Replay) (n : Nat) : Rejects none (peekDims r n) := by
  induction n with
  | zero => exact Rejects.ok _
  | succ n ih =>
    exact (r.peekInt_rejects n).andThen fun v _ => ih.andThen fun dims _ => Rejects.ok _

/-- The answer is the rejection that is given; without one, an error is what the machine finds. -/
def Answers (name : String) (o : Option Error) (y : Except Error α) : Prop :=
  match o with
  | some e => y = .error e
  | none => ∀ e, y = .error e → ∃ c : Cause, e = .inside name c ∧ c.Found

theorem Rejects.answers {o : Option Cause} {x : Except Cause Step} (h : Rejects o x)
    (name : String) : Answers name (o.map (.inside name)) (x.mapError (.inside name)) := by
  cases o with
  | some c =>
    rw [show x = .error c from h]
    rfl
  | none =>
    cases x with
    | ok s => exact fun e he => by cases he
    | error c =>
      intro e he
      cases he
      exact ⟨c, rfl, h c rfl⟩

/-- The reader rejects what the signature says. -/
def Signature.Describes (sig : Signature) (l : LineReader) : Prop :=
  ∀ name r args, Answers name (sig.rejection? name r.host args) (l.read name r args)

/-- The reader rejects the first argument that is not of its kind. -/
def LineReader.Obeys (kinds : List ArgKind) : LineReader → Prop
  | args0 f => ∀ r, Rejects (firstRejection r.host [] kinds []) (f r)
  | args1 f => ∀ r a, Rejects (firstRejection r.host [a] kinds [a]) (f r a)
  | args2 f => ∀ r a b, Rejects (firstRejection r.host [a, b] kinds [a, b]) (f r a b)
  | args3 f => ∀ r a b c, Rejects (firstRejection r.host [a, b, c] kinds [a, b, c]) (f r a b c)
  | args4 f => ∀ r a b c d,
    Rejects (firstRejection r.host [a, b, c, d] kinds [a, b, c, d]) (f r a b c d)
  | args5 f => ∀ r a b c d e,
    Rejects (firstRejection r.host [a, b, c, d, e] kinds [a, b, c, d, e]) (f r a b c d e)
  | many _ => False

/-- A reader that obeys the kinds of its arguments also counts them. -/
theorem LineReader.Obeys.describes {kinds : List ArgKind} {l : LineReader} (h : l.Obeys kinds)
    (hlength : kinds.length = l.arity) : (Signature.fixed kinds).Describes l := by
  intro name r args
  have hfits {x : Except Cause Step} (hargs : args.length = l.arity)
      (hx : Rejects (firstRejection r.host args kinds args) x) :
      Answers name ((Signature.fixed kinds).rejection? name r.host args)
        (x.mapError (.inside name)) := by
    rw [Signature.rejection?, if_pos (hargs.trans hlength.symm)]
    exact hx.answers name
  have hmiss (hargs : args.length ≠ l.arity) :
      Answers name ((Signature.fixed kinds).rejection? name r.host args)
        (.error (.arity name l.arity args.length) : Except Error Step) := by
    rw [Signature.rejection?, if_neg (hlength ▸ hargs), hlength]
    rfl
  cases l with
  | args0 f =>
    rcases args with _ | ⟨a, rest⟩
    case nil => exact hfits rfl (h r)
    all_goals exact hmiss (by simp [arity])
  | args1 f =>
    rcases args with _ | ⟨a, _ | ⟨b, rest⟩⟩
    case cons.nil => exact hfits rfl (h r a)
    all_goals exact hmiss (by simp [arity])
  | args2 f =>
    rcases args with _ | ⟨a, _ | ⟨b, _ | ⟨c, rest⟩⟩⟩
    case cons.cons.nil => exact hfits rfl (h r a b)
    all_goals exact hmiss (by simp [arity])
  | args3 f =>
    rcases args with _ | ⟨a, _ | ⟨b, _ | ⟨c, _ | ⟨d, rest⟩⟩⟩⟩
    case cons.cons.cons.nil => exact hfits rfl (h r a b c)
    all_goals exact hmiss (by simp [arity])
  | args4 f =>
    rcases args with _ | ⟨a, _ | ⟨b, _ | ⟨c, _ | ⟨d, _ | ⟨e, rest⟩⟩⟩⟩⟩
    case cons.cons.cons.cons.nil => exact hfits rfl (h r a b c d)
    all_goals exact hmiss (by simp [arity])
  | args5 f =>
    rcases args with _ | ⟨a, _ | ⟨b, _ | ⟨c, _ | ⟨d, _ | ⟨e, _ | ⟨g, rest⟩⟩⟩⟩⟩⟩
    case cons.cons.cons.cons.cons.nil => exact hfits rfl (h r a b c d e)
    all_goals exact hmiss (by simp [arity])
  | many f => exact h.elim

theorem readArrayStore_obeys (w : Width) :
    (readArrayStore w).Obeys (if w = .ref then [.array, .object] else [.array]) := by
  have hstep (r : Replay) (a : Option HostArray) (v : StackValue) :
      Rejects none (storeStep w r a v) :=
    (r.peekInt_rejects 1).andThen fun _ _ => Rejects.ok _
  cases w with
  | ref => exact fun r _ _ => Rejects.bind fun a => Rejects.bind fun v => hstep r a _
  | fp32 | fp64 =>
    exact fun r _ => Rejects.bind fun a =>
      (r.peekReal_rejects 0).andThen fun v _ => hstep r a _
  | bv32 | bv64 =>
    exact fun r _ => Rejects.bind fun a =>
      (r.peekInt_rejects 0).andThen fun v _ => hstep r a _

theorem readNewMultiArray_obeys : readNewMultiArray.Obeys [.text, .index] := by
  refine fun r type count => Rejects.bind fun n => ?_
  split
  · exact Rejects.found trivial
  refine r.stackSize_rejects.andThen fun size _ => ?_
  split
  · exact Rejects.found trivial
  · exact (r.peekDims_rejects _).andThen fun _ _ => Rejects.ok _

theorem readWords_rejects (h : Host) (args ss : List String) :
    Rejects (firstRejection h args (ss.map fun _ => .word) ss) (readWords ss) := by
  induction ss with
  | nil => exact Rejects.ok _
  | cons s ss ih => exact Rejects.bind fun v => ih.andThen fun vs _ => Rejects.ok _

theorem readWords_cons {s : String} {ss : List String} {ws : List Int32}
    (h : readWords (s :: ss) = .ok ws) : ws ≠ [] := by
  rintro rfl
  rw [readWords] at h
  cases hs : readWord s with
  | error c =>
    rw [hs] at h
    cases h
  | ok v =>
    cases hss : readWords ss with
    | error c =>
      rw [hs, hss] at h
      cases h
    | ok vs =>
      rw [hs, hss] at h
      cases h

theorem readLookupSwitch_described : Signature.keys.Describes readLookupSwitch := by
  intro name r args
  cases args with
  | nil => rfl
  | cons s ss =>
    refine Rejects.answers (Rejects.andThen (readWords_rejects _ _ _) fun ws hws => ?_) name
    cases ws with
    | nil => exact absurd rfl (readWords_cons hws)
    | cons branch keys => exact Rejects.ok _

theorem readCall_described : Signature.call.Describes readCall := by
  intro name r args
  rcases args with _ | ⟨a, _ | ⟨b, _ | ⟨c, _ | ⟨d, rest⟩⟩⟩⟩
  case cons.cons.nil => exact Rejects.answers (Rejects.bind fun static => Rejects.ok _) name
  case cons.cons.cons.nil =>
    exact Rejects.answers (Rejects.bind fun static => Rejects.bind fun v => Rejects.ok _) name
  all_goals rfl

/-- The entries have the same names, and the signatures describe the readers. -/
def Matching : Mnemonic.Names Signature → Mnemonic.Names LineReader → Prop :=
  List.Forall₂ fun p q => p.1 = q.1 ∧ p.2.Describes q.2

theorem Matching.append {ss ss' : Mnemonic.Names Signature} {ls ls' : Mnemonic.Names LineReader}
    (h : Matching ss ls) (h' : Matching ss' ls') : Matching (ss ++ ss') (ls ++ ls') :=
  List.rel_append h h'

/-- Entries that come from one table. -/
theorem Matching.map {t : List β} {f : β → String × Signature} {g : β → String × LineReader}
    (h : ∀ p ∈ t, (f p).1 = (g p).1 ∧ (f p).2.Describes (g p).2) :
    Matching (t.map f) (t.map g) := by
  rw [Matching, List.forall₂_map_left_iff, List.forall₂_map_right_iff, List.forall₂_same]
  exact h

theorem indexed_described (f : Int → Instruction) :
    (Signature.fixed [.index]).Describes (indexed f) :=
  LineReader.Obeys.describes (fun _ _ => Rejects.bind fun _ => Rejects.ok _) rfl

/-- **The readers do as the signatures say.** -/
theorem signatures_describe : Matching signatures readers := by
  unfold signatures readers
  refine ((((((Matching.append (.map ?plain) (.map ?onLocal)).append (.map ?branch)).append
    (.map ?intDivision)).append (.map ?longDivision)).append (.map ?load)).append
    (.map ?store)).append ?other
  case plain => exact fun p _ => ⟨rfl, LineReader.Obeys.describes (fun _ => Rejects.ok _) rfl⟩
  case onLocal => exact fun p _ => ⟨rfl, indexed_described p.2⟩
  case branch => exact fun p _ => ⟨rfl, indexed_described p.2⟩
  case intDivision =>
    exact fun p _ => ⟨rfl, LineReader.Obeys.describes
      (fun r => (r.peekInt_rejects 0).andThen fun _ _ => Rejects.ok _) rfl⟩
  case longDivision =>
    exact fun p _ => ⟨rfl, LineReader.Obeys.describes
      (fun r => (r.peekInt_rejects 0).andThen fun _ _ => Rejects.ok _) rfl⟩
  case load =>
    exact fun p _ => ⟨rfl, LineReader.Obeys.describes (fun r _ => Rejects.bind fun a =>
      (r.peekInt_rejects 0).andThen fun _ _ => Rejects.ok _) rfl⟩
  case store =>
    rintro ⟨name, w⟩ -
    refine ⟨rfl, (readArrayStore_obeys w).describes ?_⟩
    cases w <;> rfl
  case other =>
    have hobeys {name : String} {kinds : List ArgKind} {l : LineReader} (h : l.Obeys kinds)
        (hlength : kinds.length = l.arity) :
        (name, Signature.fixed kinds).1 = (name, l).1 ∧
          (name, Signature.fixed kinds).2.Describes (name, l).2 :=
      ⟨rfl, h.describes hlength⟩
    exact .cons ⟨rfl, indexed_described _⟩ <| .cons ⟨rfl, indexed_described _⟩ <|
      .cons ⟨rfl, indexed_described _⟩ <|
      -- constants and increments
      .cons (hobeys (fun _ _ => Rejects.bind fun _ => Rejects.ok _) rfl) <|
      .cons (hobeys (fun _ _ => Rejects.bind fun _ => Rejects.ok _) rfl) <|
      .cons (hobeys (fun _ _ => Rejects.bind fun _ => Rejects.ok _) rfl) <|
      .cons (hobeys (fun _ _ _ => Rejects.bind fun _ => Rejects.ok _) rfl) <|
      .cons (hobeys (fun _ _ _ => Rejects.bind fun _ => Rejects.bind fun _ => Rejects.ok _) rfl) <|
      -- switches
      .cons (hobeys (fun _ _ _ _ => Rejects.bind fun _ => Rejects.bind fun _ =>
        Rejects.bind fun _ => Rejects.ok _) rfl) <|
      .cons ⟨rfl, readLookupSwitch_described⟩ <|
      -- objects, arrays and fields
      .cons (hobeys (fun _ _ => Rejects.ok _) rfl) <|
      .cons (hobeys (fun r _ => (r.peekInt_rejects 0).andThen fun _ _ => Rejects.ok _) rfl) <|
      .cons (hobeys (fun r _ => (r.peekInt_rejects 0).andThen fun _ _ => Rejects.ok _) rfl) <|
      .cons (hobeys readNewMultiArray_obeys rfl) <|
      .cons (hobeys (fun _ _ => Rejects.bind fun _ => Rejects.ok _) rfl) <|
      .cons (hobeys (fun _ _ _ _ _ _ => Rejects.bind fun _ => Rejects.bind fun _ =>
        Rejects.ok _) rfl) <|
      .cons (hobeys (fun _ _ _ _ _ => Rejects.bind fun _ => Rejects.ok _) rfl) <|
      .cons (hobeys (fun _ _ _ _ _ => Rejects.bind fun _ => Rejects.ok _) rfl) <|
      .cons (hobeys (fun _ _ _ _ => Rejects.ok _) rfl) <|
      .cons (hobeys (fun _ _ => Rejects.ok _) rfl) <|
      .cons (hobeys (fun _ _ _ => Rejects.bind fun _ => Rejects.ok _) rfl) <|
      .cons (hobeys (fun _ _ => Rejects.bind fun _ => Rejects.ok _) rfl) <|
      .cons (hobeys (fun _ _ => Rejects.bind fun _ => Rejects.ok _) rfl) <|
      -- calls
      .cons (hobeys (fun _ _ _ _ _ _ => Rejects.bind fun _ => Rejects.bind fun _ =>
        Rejects.ok _) rfl) <|
      .cons ⟨rfl, readCall_described⟩ <|
      .cons (hobeys (fun _ _ _ => Rejects.bind fun _ => Rejects.bind fun _ => Rejects.ok _) rfl)
        .nil

theorem Matching.lookup {ss : Mnemonic.Names Signature} {ls : Mnemonic.Names LineReader}
    (h : Matching ss ls) (name : String) :
    ss.lookup name = none ∧ ls.lookup name = none ∨
      ∃ sig l, ss.lookup name = some sig ∧ ls.lookup name = some l ∧ sig.Describes l := by
  induction h with
  | nil => exact Or.inl ⟨rfl, rfl⟩
  | @cons p q ss ls hpq _ ih =>
    obtain ⟨n, sig⟩ := p
    obtain ⟨n', l⟩ := q
    obtain ⟨rfl, hdescribes⟩ : n = n' ∧ sig.Describes l := hpq
    by_cases hname : name = n
    · subst hname
      refine Or.inr ⟨sig, l, ?_, ?_, hdescribes⟩
      · exact List.lookup_cons_self
      · exact List.lookup_cons_self
    · have hne : (name == n) = false := beq_false_of_ne hname
      rw [List.lookup_cons, List.lookup_cons, hne]
      exact ih

theorem Answers.map {name : String} {o : Option Error} {y : Except Error α} (h : Answers name o y)
    (f : α → β) : Answers name o (y.map f) := by
  cases o with
  | some e =>
    rw [show y = .error e from h]
    rfl
  | none =>
    cases y with
    | ok a => exact fun e he => by cases he
    | error e => exact fun e' he' => h e' (by cases he'; rfl)

/-- An error is the rejection, or it is what the machine finds. -/
theorem Answers.of_error {name : String} {o : Option Error} {y : Except Error α} {e : Error}
    (h : Answers name o y) (hy : y = .error e) :
    o = some e ∨ ∃ c : Cause, e = .inside name c ∧ c.Found := by
  cases o with
  | some e' => exact Or.inl (congrArg some (Except.error.inj (Eq.trans (Eq.symm h) hy)))
  | none => exact Or.inr (h e hy)

/-! ## 3. Lines -/

variable {r : Replay} {line : String}

/-- **Reading rejects what is to be rejected,** and fails else only on what the machine finds. -/
theorem read_answers {word : String} {args : List String} (r : Replay)
    (hfields : Text.fields line = word :: args) :
    Answers (Text.upper word) (rejection? r.host line) (r.read line) := by
  rw [rejection?, read, hfields]
  dsimp only
  rcases signatures_describe.lookup (Text.upper word) with ⟨hsig, hl⟩ | ⟨sig, l, hsig, hl, h⟩
  · rw [hsig, hl]
    rfl
  · rw [hsig, hl]
    exact (h (Text.upper word) r args).map _

theorem read_of_rejection {e : Error} (h : rejection? r.host line = some e) :
    r.read line = .error e := by
  cases hfields : Text.fields line with
  | nil =>
    rw [rejection?, hfields] at h
    cases h
  | cons word args =>
    have hanswers := read_answers r hfields
    rwa [h] at hanswers

/-- **A rejected line changes nothing.** -/
theorem exec_of_rejection {e : Error} (h : rejection? r.host line = some e) :
    r.exec line = (.error e, r) := by
  rw [exec, read_of_rejection h]

theorem perform_error {name : String} {s : Step} {e : Error}
    (h : (r.perform name line s).1 = .error e) : ∃ f, e = .inside name (.failure f) := by
  have hp := r.performs name line s
  generalize r.perform name line s = p at hp h
  cases hp with
  | endless | faulted | done | stored => cases h
  | failed | misfit =>
    cases h
    exact ⟨_, rfl⟩

theorem read_name {word name : String} {args : List String} {s : Step}
    (hfields : Text.fields line = word :: args) (h : r.read line = .ok (some (name, s))) :
    name = Text.upper word := by
  unfold read at h
  rw [hfields] at h
  dsimp only at h
  split at h
  · cases h
  next l _ =>
    cases hread : l.read (Text.upper word) r args with
    | error e =>
      rw [hread] at h
      cases h
    | ok s' =>
      rw [hread] at h
      cases h
      rfl

/-- Every error of a line that is not rejected names its instruction: the instruction failed, or it
was told a number of dimensions that the stack does not hold, which changes nothing. -/
theorem exec_error {e : Error} (h : (r.exec line).1 = .error e) :
    rejection? r.host line = some e ∨ ∃ word args c, Text.fields line = word :: args ∧
      e = .inside (Text.upper word) c ∧
      ((∃ f, c = .failure f) ∨ (∃ n, c = .dimensionCount n) ∧ (r.exec line).2 = r) := by
  cases hfields : Text.fields line with
  | nil =>
    rw [exec, read, hfields] at h
    cases h
  | cons word args =>
    cases hread : r.read line with
    | error e' =>
      have hexec : r.exec line = (.error e', r) := by rw [exec, hread]
      obtain rfl : e' = e := by
        rw [hexec] at h
        exact Reply.error.inj h
      rcases (read_answers r hfields).of_error hread with hreject | ⟨c, rfl, hfound⟩
      · exact Or.inl hreject
      · refine Or.inr ⟨word, args, c, rfl, rfl, ?_⟩
        rw [hexec]
        cases c with
        | failure f => exact Or.inl ⟨f, rfl⟩
        | dimensionCount n => exact Or.inr ⟨⟨n, rfl⟩, rfl⟩
        | _ => exact hfound.elim
    | ok x =>
      cases x with
      | none =>
        rw [exec, hread] at h
        cases h
      | some p =>
        obtain ⟨name, s⟩ := p
        rw [exec, hread] at h
        obtain ⟨f, rfl⟩ := perform_error h
        refine Or.inr ⟨word, args, .failure f, rfl, ?_, Or.inl ⟨f, rfl⟩⟩
        rw [read_name hfields hread]

/-! ## 4. Faults -/

/-- The instruction of the line reports a fault. -/
def Faulty (r : Replay) (line : String) : Prop :=
  ∃ name s, r.read line = .ok (some (name, s)) ∧ (s.instruction.exec r.machine).1 = .ok true

theorem faulty_iff {name : String} {s : Step} (hread : r.read line = .ok (some (name, s))) :
    r.Faulty line ↔ (s.instruction.exec r.machine).1 = .ok true := by
  constructor
  · rintro ⟨name', s', hs', hfault⟩
    rw [hread] at hs'
    cases hs'
    exact hfault
  · exact fun hfault => ⟨name, s, hread, hfault⟩

theorem not_faulty (h : ∀ p, r.read line ≠ .ok (some p)) : ¬ r.Faulty line := by
  rintro ⟨name, s, hread, -⟩
  exact h (name, s) hread

/-- A step counts the fault that its instruction reports, and no other. -/
theorem perform_faults (name line : String) (s : Step) (r : Replay) :
    (s.instruction.exec r.machine).1 = .ok true ∧ (r.perform name line s).1 = .ok true ∧
      (r.perform name line s).2.faults = r.faults + 1 ∨
    (s.instruction.exec r.machine).1 ≠ .ok true ∧ (r.perform name line s).1 ≠ .ok true ∧
      (r.perform name line s).2.faults = r.faults := by
  have h := r.performs name line s
  generalize r.perform name line s = p at h ⊢
  cases h with
  | faulted hrun => exact Or.inl ⟨congrArg Prod.fst hrun, rfl, rfl⟩
  | endless hrun | failed hrun | done hrun | stored hrun | misfit hrun =>
    exact Or.inr ⟨by simp [hrun], by simp, rfl⟩

/-- **A line counts the fault that its instruction reports, and no other.** -/
theorem exec_faults (r : Replay) (line : String) :
    r.Faulty line ∧ (r.exec line).1 = .ok true ∧ (r.exec line).2.faults = r.faults + 1 ∨
    ¬ r.Faulty line ∧ (r.exec line).1 ≠ .ok true ∧ (r.exec line).2.faults = r.faults := by
  cases hread : r.read line with
  | error e =>
    have hfine : ¬ r.Faulty line := not_faulty (by simp [hread])
    rw [exec, hread]
    exact Or.inr ⟨hfine, by simp, rfl⟩
  | ok x =>
    cases x with
    | none =>
      have hfine : ¬ r.Faulty line := not_faulty (by simp [hread])
      rw [exec, hread]
      exact Or.inr ⟨hfine, by simp, rfl⟩
    | some p =>
      obtain ⟨name, s⟩ := p
      rw [faulty_iff hread, exec, hread]
      exact perform_faults name line s r

/-- What the lines of a run answer. -/
def answers (r : Replay) : List String → List (Reply Error Bool)
  | [] => []
  | line :: ls => (r.exec line).1 :: (r.exec line).2.answers ls

/-- **The faults of a run are counted.** -/
theorem after_faults (r : Replay) (ls : List String) :
    (r.after ls).faults = r.faults + (r.answers ls).count (.ok true) := by
  induction ls generalizing r with
  | nil => rfl
  | cons line ls ih =>
    rw [after, ih, answers, List.count_cons]
    rcases r.exec_faults line with ⟨-, hanswer, hfaults⟩ | ⟨-, hanswer, hfaults⟩
    · rw [hfaults, hanswer, beq_self_eq_true, if_pos rfl]
      omega
    · rw [hfaults, beq_false_of_ne hanswer]
      simp

end Concolic.Replay

namespace Concolic.Host

/-! ## 5. Names -/

variable (h : Host) (name : String) (i : Nat) (v : Value)

theorem value?_setElem (name' : String) : (h.setElem name i v).value? name' = h.value? name' := by
  rw [value?, value?, array?_setElem]
  cases h.array? name' with
  | none => rfl
  | some a =>
    dsimp only [Option.map_some]
    split <;> rfl

theorem lookup_setElem (name' : String) : (h.setElem name i v).lookup name' = h.lookup name' := by
  rw [lookup, lookup, value?_setElem]

theorem errorOf_array_setElem (name' : String) :
    Replay.errorOf ((h.setElem name i v).array name') = Replay.errorOf (h.array name') := by
  rw [array, array, value?_setElem, array?_setElem]
  cases h.array? name' with
  | none => rfl
  | some a => split <;> rfl

theorem read_setElem (desc s : String) : (h.setElem name i v).read desc s = h.read desc s := by
  simp only [read, readText, lookup_setElem]

end Concolic.Host

namespace Concolic.Replay

theorem errorOf_ofValue (x : Except Host.ValueError α) :
    errorOf (ofValue x) = (errorOf x).map .value := by
  cases x <;> rfl

/-- What is rejected does not depend on the elements of arrays. -/
theorem rejection?_setElem (h : Host) (name : String) (i : Nat) (v : Value) (line : String) :
    rejection? (h.setElem name i v) line = rejection? h line := by
  have hkind (args : List String) (s : String) (k : ArgKind) :
      k.rejection? (h.setElem name i v) args s = k.rejection? h args s := by
    cases k with
    | array =>
      simp only [ArgKind.rejection?, errorOf_ofValue, Host.errorOf_array_setElem]
    | _ => simp only [ArgKind.rejection?, Host.lookup_setElem, Host.read_setElem]
  have hfirst (args : List String) (ks : List ArgKind) (ss : List String) :
      firstRejection (h.setElem name i v) args ks ss = firstRejection h args ks ss := by
    induction ks generalizing ss with
    | nil => rfl
    | cons k ks ih =>
      cases ss with
      | nil => rfl
      | cons s ss => rw [firstRejection, firstRejection, hkind, ih]
  rw [rejection?, rejection?]
  simp only [Signature.rejection?, hfirst]

theorem rejection?_exec (r : Replay) (line : String) :
    rejection? (r.exec line).2.host = rejection? r.host := by
  unfold exec
  split
  · rfl
  · rfl
  next name s _ =>
    rcases r.perform_host name line s with hsame | ⟨st, v, -, -, hset⟩
    · rw [hsame]
    · rw [hset]
      exact funext (rejection?_setElem _ _ _ _)

/-- **Rejected lines can be left out.** -/
theorem after_filter (r : Replay) (ls : List String) :
    r.after (ls.filter fun line => (rejection? r.host line).isNone) = r.after ls := by
  induction ls generalizing r with
  | nil => rfl
  | cons line ls ih =>
    rw [List.filter_cons]
    cases hreject : rejection? r.host line with
    | some e =>
      rw [after, exec_of_rejection hreject]
      exact ih r
    | none =>
      have hrest := ih (r.exec line).2
      rw [rejection?_exec] at hrest
      exact hrest

/-! ## 6. Every line -/

/-- **Rejected lines change nothing.**  Whether a line is rejected and why is told by the signature
of its instruction and the names of the host.  Such a line is answered with that error and leaves
the replay as it was; on a run it can be left out.  Every other error names the instruction, which
failed on the machine or was told more dimensions than there are operands; the latter changes
nothing either.  Faults are counted for the lines whose instruction reports one, and these are the
lines that answer so.

On a run every line is answered, except for one whose instruction walks up from a class and finds
neither what it looks for nor a class without a superclass; there is no such line if no class is
above itself. -/
theorem rejected_lines_change_nothing (r : Replay) (line : String) :
    (∀ e, rejection? r.host line = some e → r.exec line = (.error e, r)) ∧
    (∀ e, (r.exec line).1 = .error e → rejection? r.host line = some e ∨
      ∃ word args c, Text.fields line = word :: args ∧ e = .inside (Text.upper word) c ∧
        ((∃ f, c = .failure f) ∨ (∃ n, c = .dimensionCount n) ∧ (r.exec line).2 = r)) ∧
    (r.Faulty line ∧ (r.exec line).1 = .ok true ∧ (r.exec line).2.faults = r.faults + 1 ∨
      ¬ r.Faulty line ∧ (r.exec line).1 ≠ .ok true ∧ (r.exec line).2.faults = r.faults) ∧
    (∀ ls, r.after (ls.filter fun line => (rejection? r.host line).isNone) = r.after ls ∧
      (r.after ls).faults = r.faults + (r.answers ls).count (.ok true)) ∧
    (r.Reached →
      ((r.exec line).1 = .endless ↔ ∃ name s, r.read line = .ok (some (name, s)) ∧
        s.instruction.WalksForever r.host r.machine) ∧
      ((∀ c, ¬ Relation.TransGen r.host.Listed c c) → (r.exec line).1 ≠ .endless)) :=
  ⟨fun _ => exec_of_rejection, fun _ => exec_error, r.exec_faults line,
    fun ls => ⟨r.after_filter ls, r.after_faults ls⟩,
    fun hr => ⟨exec_eq_endless_iff hr line, fun hacyclic => exec_ends hr hacyclic line⟩⟩

/-- An array of objects, of which there is one. -/
def objectsTrace : Trace where
  method := ⟨"A", "f", "([Ljava/lang/Object;)V"⟩
  static := true
  maxLocals := 1
  args := [{ type := "[Ljava/lang/Object;", ref := "a" }]
  objects := [("o", "A")]
  arrays := [("a", { type := "[Ljava/lang/Object;", elems := ["o", "null"] })]

/-- A line with an argument too many, a store of an object that is not there, and a division by
zero. -/
def mixedLines : List String := ["POP 1", "AASTORE a ghost", "ICONST 1", "ICONST 0", "IDIV"]

/-- The store is rejected although its operands are on the stack, and only the division counts.  An
object of a class that is not listed can be made. -/
theorem storeOfGhost_rejected :
    ∃ r, Reached r ∧ r.faults = 0 ∧
      r.machine.operands = [.ref .null, .bv32 (.const 0),
        .ref (.object ⟨1, "[Ljava/lang/Object;"⟩)] ∧
      r.exec "AASTORE a ghost" = (.error (.inside "AASTORE" (.value (.unknownObject "ghost"))), r) ∧
      r.after mixedLines = r.after ["ICONST 1", "ICONST 0", "IDIV"] ∧
      (r.after mixedLines).faults = 1 ∧ (∀ c, ¬ Relation.TransGen r.host.Listed c c) ∧
      (r.exec "NEW A").1 ≠ .endless := by
  have hrun : (start objectsTrace).1.toOption.map (fun r₀ =>
      let r := r₀.after ["ALOAD 0", "ICONST 0", "ACONST_NULL"]
      ((r.faults, r.machine.operands), rejection? r.host "AASTORE a ghost",
        mixedLines.filter fun line => (rejection? r.host line).isNone,
        (r.answers mixedLines).count (.ok true), r.host.classes.isEmpty)) =
      some ((0, [.ref .null, .bv32 (.const 0), .ref (.object ⟨1, "[Ljava/lang/Object;"⟩)]),
        some (.inside "AASTORE" (.value (.unknownObject "ghost"))),
        ["ICONST 1", "ICONST 0", "IDIV"], 1, true) := by
    decide +kernel
  obtain ⟨r₀, hr₀, hall⟩ := Option.map_eq_some_iff.mp hrun
  obtain ⟨hstate, hall⟩ := Prod.mk.inj hall
  obtain ⟨hfaults, hoperands⟩ := Prod.mk.inj hstate
  obtain ⟨hreject, hall⟩ := Prod.mk.inj hall
  obtain ⟨hfilter, hall⟩ := Prod.mk.inj hall
  obtain ⟨hcount, hclasses⟩ := Prod.mk.inj hall
  have hreached : Reached (r₀.after ["ALOAD 0", "ICONST 0", "ACONST_NULL"]) :=
    ⟨objectsTrace, r₀, _, _, start_of_toOption hr₀, rfl⟩
  have hacyclic (c : String) : ¬ Relation.TransGen
      (r₀.after ["ALOAD 0", "ICONST 0", "ACONST_NULL"]).host.Listed c c := by
    refine Host.not_transGen_of_not_listed fun s hs => ?_
    have hmem := hs.mem
    rw [List.isEmpty_iff.mp hclasses] at hmem
    cases hmem
  obtain ⟨hexec, -, -, hlines, -⟩ := rejected_lines_change_nothing
    (r₀.after ["ALOAD 0", "ICONST 0", "ACONST_NULL"]) "AASTORE a ghost"
  obtain ⟨-, -, -, -, hends⟩ := rejected_lines_change_nothing
    (r₀.after ["ALOAD 0", "ICONST 0", "ACONST_NULL"]) "NEW A"
  obtain ⟨hafter, hcounted⟩ := hlines mixedLines
  refine ⟨_, hreached, hfaults, hoperands, hexec _ hreject, ?_, ?_, hacyclic,
    (hends hreached).2 hacyclic⟩
  · rw [← hafter, hfilter]
  · rw [hcounted, hfaults, hcount]

/-- Two classes, each listed as the superclass of the other, and an object of one of them. -/
def cyclicTrace : Trace where
  method := ⟨"A", "f", "(LA;)V"⟩
  static := true
  maxLocals := 1
  args := [{ type := "LA;", ref := "o" }]
  classes := [("A", "B"), ("B", "A")]
  objects := [("o", "A")]

/-- The instance test and the new object are not answered, and no number of steps up is enough to
answer them. -/
theorem cyclicClasses_endless :
    ∃ r, Reached r ∧ (r.exec "INSTANCEOF o T").1 = .endless ∧ (r.exec "NEW A").1 = .endless ∧
      (∀ fuel, r.host.extendsWithin "T" fuel "A" = none) ∧
      ∀ fuel, (Machine.prepareWithin fuel "A" r.machine).1 = .error .endless := by
  have hrun : (start cyclicTrace).1.toOption.map (fun r₀ =>
      let r := r₀.after ["ALOAD 0"]
      ((r.exec "INSTANCEOF o T").1, (r.exec "NEW A").1, r.host.classes, r.machine.prepared)) =
      some (.endless, .endless, [("A", "B"), ("B", "A")], []) := by
    decide +kernel
  obtain ⟨r₀, hr₀, hall⟩ := Option.map_eq_some_iff.mp hrun
  obtain ⟨htest, hall⟩ := Prod.mk.inj hall
  obtain ⟨hnew, hall⟩ := Prod.mk.inj hall
  obtain ⟨hclasses, hprepared⟩ := Prod.mk.inj hall
  have hreached : Reached (r₀.after ["ALOAD 0"]) :=
    ⟨cyclicTrace, r₀, _, _, start_of_toOption hr₀, rfl⟩
  generalize r₀.after ["ALOAD 0"] = r at htest hnew hclasses hprepared hreached
  have hA : r.host.superclass "A" = "B" := by
    rw [Host.superclass, hclasses]
    decide
  have hB : r.host.superclass "B" = "A" := by
    rw [Host.superclass, hclasses]
    decide
  -- the walk up is on one of the two classes at every step
  have habove (n : Nat) : r.host.above n "A" = "A" ∨ r.host.above n "A" = "B" := by
    induction n with
    | zero => exact Or.inl rfl
    | succ n ih =>
      rw [← Host.superclass_above]
      rcases ih with h | h
      · rw [h, hA]
        exact Or.inr rfl
      · rw [h, hB]
        exact Or.inl rfl
  refine ⟨r, hreached, htest, hnew, fun fuel => ?_, fun fuel => ?_⟩
  · refine Host.extendsWithin_eq_none_iff.2 fun n _ => ?_
    rcases habove n with h | h
    · rw [h]
      decide
    · rw [h]
      decide
  · refine (Host.prepareWithin_eq_endless_iff hreached.classes).2 fun n _ => ?_
    rw [hprepared]
    refine ⟨List.not_mem_nil, ?_⟩
    rcases habove n with h | h
    · rw [h]
      exact ⟨"B", Host.hasParent_iff.2 ⟨by decide, by decide, hA⟩⟩
    · rw [h]
      exact ⟨"A", Host.hasParent_iff.2 ⟨by decide, by decide, hB⟩⟩

end Concolic.Replay
