import Concolic.Proofs.Folding

/-
# Moves of the machine and of the plain machine

Forgetting expressions turns a frame into a state of the plain machine: every int and every long on
the stack and in the locals is replaced by its concrete value.

Instructions are made of small moves: pops, pushes, shuffles and accesses of locals.  `Follows` says
that a move of the machine is matched by one of the plain machine, failure included, and that it
leaves operands fit for their slots.  This file proves it of every small move; `Follows.bind` puts
moves together.
-/
namespace Concolic

/-! ## 1. The view of a frame -/

/-- The operand without its expression. -/
def Operand.word : Operand → Word
  | bv32 e => .int e.concrete.toInt
  | bv64 e => .long e.concrete.toInt
  | o => .other o

@[simp] theorem Operand.width_word (o : Operand) : o.word.width = o.width := by
  cases o <;> rfl

@[simp] theorem Operand.category_word (o : Operand) : o.word.category = o.category := by
  cases o <;> rfl

/-- The frame without expressions. -/
def Frame.plain (f : Frame) : Plain :=
  ⟨f.stack.map Operand.word, f.locals.slots.map (Option.map Operand.word)⟩

/-- What may stand in the slot of the operand. -/
def Operand.Sound : Operand → Prop
  | bv32 e => e.IntSound
  | bv64 e => e.Tidy
  | _ => True

/-- All operands of the frame are fit for their slots. -/
structure Frame.Sound (f : Frame) : Prop where
  stack : ∀ o ∈ f.stack, o.Sound
  locals : ∀ o, some o ∈ f.locals.slots → o.Sound

/-! ## 2. Matching moves -/

/-- From a frame that satisfies `P`, the action `a` on the machine and the move `p` either both give
nothing, or both answer; then they leave the same state, and the answers and the frame left are
related by `R`.  The frames beneath the top one stay. -/
def Follows (P : Frame → Prop) (a : Act Machine α) (p : Plain.Move β)
    (R : α → β → Frame → Prop) : Prop :=
  ∀ (m : Machine) (f : Frame) (rest : List Frame), m.frames = f :: rest → f.Sound → P f →
    (∃ e m', a m = (.error e, m') ∧ p f.plain = none) ∨
    (∃ x y m' f', a m = (.ok x, m') ∧ p f.plain = some (y, f'.plain) ∧
      m'.frames = f' :: rest ∧ f'.Sound ∧ R x y f')

namespace Follows

variable {P P' : Frame → Prop} {a : Act Machine α} {p : Plain.Move β} {R : α → β → Frame → Prop}

theorem pure {x : α} {y : β} (h : ∀ f, P f → R x y f) :
    Follows P (Pure.pure x) (Pure.pure y) R := by
  intro m f rest hf hs hP
  exact Or.inr ⟨x, y, m, f, rfl, rfl, hf, hs, h f hP⟩

theorem fail (e : Failure) : Follows P (Act.fail e : Act Machine α) (failure : Plain.Move β) R := by
  intro m f rest _ _ _
  exact Or.inl ⟨e, m, rfl, rfl⟩

theorem bind {g : α → Act Machine γ} {q : β → Plain.Move δ} {S : γ → δ → Frame → Prop}
    (ha : Follows P a p R)
    (hg : ∀ x y f, R x y f → Follows (R x y) (g x) (q y) S) : Follows P (a >>= g) (p >>= q) S := by
  intro m f rest hf hs hP
  rcases ha m f rest hf hs hP with ⟨e, m', ham, hp⟩ | ⟨x, y, m', f', ham, hp, hf', hs', hR⟩
  · refine Or.inl ⟨e, m', ?_, ?_⟩
    · rw [Act.bind_apply, ham]
    · change (p f.plain >>= _) = none
      rw [hp]
      rfl
  · have hstep : (a >>= g) m = g x m' := by rw [Act.bind_apply, ham]
    have hplain : (p >>= q) f.plain = q y f'.plain := by
      change (p f.plain >>= _) = _
      rw [hp]
      rfl
    rw [hstep, hplain]
    exact hg x y f' hR m' f' rest hf' hs' hR

theorem weaken (ha : Follows P a p R) (h : ∀ f, P' f → P f) : Follows P' a p R :=
  fun m f rest hf hs hP => ha m f rest hf hs (h f hP)

theorem safely {a : Act Machine Unit} {p : Plain.Move Unit} {R : Unit → Unit → Frame → Prop}
    (ha : Follows P a p R) :
    Follows P (Instruction.safely a) (Plain.safely p) fun b b' _ => b = b' :=
  ha.bind fun _ _ _ _ => Follows.pure fun _ _ => rfl

end Follows

/-! ## 3. The stack -/

section Stack

variable {P : Frame → Prop}

theorem Frame.Sound.pushed {me : MethodRef} {s : Stack} {t : Locals} {fk : Bool} {o : Operand}
    (h : Frame.Sound ⟨me, s, t, fk⟩) (ho : o.Sound) : Frame.Sound ⟨me, o :: s, t, fk⟩ := by
  refine ⟨?_, h.locals⟩
  intro o' ho'
  rcases List.mem_cons.mp ho' with rfl | hmem
  · exact ho
  · exact h.stack o' hmem

theorem Frame.Sound.popped {me : MethodRef} {s : Stack} {t : Locals} {fk : Bool} {o : Operand}
    (h : Frame.Sound ⟨me, o :: s, t, fk⟩) : o.Sound ∧ Frame.Sound ⟨me, s, t, fk⟩ :=
  ⟨h.stack o List.mem_cons_self, fun o' ho' => h.stack o' (List.mem_cons_of_mem o ho'), h.locals⟩

theorem push_follows {o : Operand} {w : Word} (hs : o.Sound) (hw : o.word = w) :
    Follows P (Machine.push o) (Plain.push w) fun _ _ _ => True := by
  rintro ⟨_, prepared, heap, collector, log, classes⟩ ⟨me, s, t, fk⟩ rest rfl hf -
  subst hw
  exact Or.inr ⟨(), (), _, ⟨me, o :: s, t, fk⟩, rfl, rfl, rfl, hf.pushed hs, trivial⟩

theorem pop_follows :
    Follows P (Machine.onStack Stack.pop) Plain.pop fun o w _ => o.Sound ∧ w = o.word := by
  rintro ⟨_, prepared, heap, collector, log, classes⟩ ⟨me, s, t, fk⟩ rest rfl hf -
  cases s with
  | nil => exact Or.inl ⟨_, _, rfl, rfl⟩
  | cons o s =>
    obtain ⟨ho, hs⟩ := hf.popped
    exact Or.inr ⟨o, o.word, _, ⟨me, s, t, fk⟩, rfl, rfl, rfl, hs, ho, rfl⟩

/-- Pops an int.  What is known of the top of the stack is known of the popped expression. -/
theorem popInt_follows (T : IntExpr → Stack → Prop) :
    Follows (fun f => ∀ e s, f.stack = .bv32 e :: s → T e s) (Machine.onStack Stack.popInt)
      Plain.popInt fun e v f => e.IntSound ∧ v = e.concrete.toInt ∧ T e f.stack := by
  rintro ⟨_, prepared, heap, collector, log, classes⟩ ⟨me, s, t, fk⟩ rest rfl hf hT
  rcases s with _ | ⟨o, s⟩
  · exact Or.inl ⟨_, _, rfl, rfl⟩
  cases o with
  | bv32 e =>
    obtain ⟨he, hs⟩ := hf.popped
    exact Or.inr ⟨e, _, _, ⟨me, s, t, fk⟩, rfl, rfl, rfl, hs, he, rfl, hT e s rfl⟩
  | _ => exact Or.inl ⟨_, _, rfl, rfl⟩

/-- Pops a long.  What is known of the top of the stack is known of the popped expression. -/
theorem popLong_follows (T : IntExpr → Stack → Prop) :
    Follows (fun f => ∀ e s, f.stack = .bv64 e :: s → T e s) (Machine.onStack Stack.popLong)
      Plain.popLong fun e v f => e.Tidy ∧ v = e.concrete.toInt ∧ T e f.stack := by
  rintro ⟨_, prepared, heap, collector, log, classes⟩ ⟨me, s, t, fk⟩ rest rfl hf hT
  rcases s with _ | ⟨o, s⟩
  · exact Or.inl ⟨_, _, rfl, rfl⟩
  cases o with
  | bv64 e =>
    obtain ⟨he, hs⟩ := hf.popped
    exact Or.inr ⟨e, _, _, ⟨me, s, t, fk⟩, rfl, rfl, rfl, hs, he, rfl, hT e s rfl⟩
  | _ => exact Or.inl ⟨_, _, rfl, rfl⟩

end Stack

/-! ## 4. Shuffles -/

namespace Plain

theorem block_map (category : β → Nat) (g : α → β) (n : Nat) (s : List α) :
    block category n (s.map g) =
      (block (category ∘ g) n s).map fun (b, t) => (b.map g, t.map g) := by
  induction s generalizing n with
  | nil => cases n <;> rfl
  | cons a s ih =>
    cases n with
    | zero => rfl
    | succ n =>
      simp only [List.map_cons, block, Function.comp_apply]
      split
      · rw [ih, Option.map_map, Option.map_map]
        rfl
      · rfl

theorem blocks_map (category : β → Nat) (g : α → β) (ns : List Nat) (s : List α) :
    blocks category ns (s.map g) =
      (blocks (category ∘ g) ns s).map fun (bs, t) => (bs.map (List.map g), t.map g) := by
  induction ns generalizing s with
  | nil => rfl
  | cons n ns ih =>
    simp only [blocks, block_map]
    rcases block (category ∘ g) n s with _ | ⟨b, t⟩
    · rfl
    · simp only [Option.map_some, Option.bind_eq_bind, Option.bind_some, ih]
      rcases blocks (category ∘ g) ns t with _ | ⟨bs, u⟩ <;> rfl

theorem Form.arrange_map (g : α → β) (f : Form) (bs : List (List α)) :
    f.arrange (bs.map (List.map g)) = (f.arrange bs).map g := by
  unfold Form.arrange
  rw [List.map_flatMap]
  congr 1
  funext i
  rw [List.getD_eq_getElem?_getD, List.getD_eq_getElem?_getD, List.getElem?_map]
  cases bs[i]? <;> rfl

/-- A shuffle looks at nothing but categories. -/
theorem shuffled_map (category : β → Nat) (g : α → β) (sh : Stack.Shuffle) (s : List α) :
    shuffled category sh (s.map g) = (shuffled (category ∘ g) sh s).map (List.map g) := by
  simp only [shuffled, blocks_map]
  rcases blocks (category ∘ g) (form sh).sizes s with _ | ⟨bs, t⟩
  · rfl
  · simp [Form.arrange_map]

theorem append_of_block {category : α → Nat} {n : Nat} {s b t : List α}
    (h : block category n s = some (b, t)) : s = b ++ t := by
  induction s generalizing n b with
  | nil =>
    cases n with
    | zero => cases h; rfl
    | succ n => cases h
  | cons a s ih =>
    cases n with
    | zero => cases h; rfl
    | succ n =>
      simp only [block] at h
      split at h
      · obtain ⟨⟨b', t'⟩, hb, heq⟩ := Option.map_eq_some_iff.mp h
        cases heq
        rw [ih hb]
        rfl
      · cases h

theorem append_of_blocks {category : α → Nat} {ns : List Nat} {s t : List α} {bs : List (List α)}
    (h : blocks category ns s = some (bs, t)) : s = bs.flatten ++ t := by
  induction ns generalizing s bs with
  | nil => cases h; rfl
  | cons n ns ih =>
    simp only [blocks, Option.bind_eq_bind, Option.bind_eq_some_iff] at h
    obtain ⟨⟨b, u⟩, hb, ⟨bs', t'⟩, hbs, heq⟩ := h
    cases heq
    have hu : u = bs'.flatten ++ t' := ih hbs
    rw [append_of_block hb, hu]
    exact (List.append_assoc b bs'.flatten t').symm

/-- A shuffle makes no words. -/
theorem mem_of_shuffled {category : α → Nat} {sh : Stack.Shuffle} {s t : List α}
    (h : shuffled category sh s = some t) : ∀ x ∈ t, x ∈ s := by
  simp only [shuffled, Option.bind_eq_bind, Option.bind_eq_some_iff] at h
  obtain ⟨⟨bs, u⟩, hbs, heq⟩ := h
  cases heq
  rw [append_of_blocks hbs]
  intro x hx
  rcases List.mem_append.mp hx with hx | hx
  · obtain ⟨i, -, hi⟩ := List.mem_flatMap.mp hx
    rw [List.getD_eq_getElem?_getD] at hi
    cases hb : bs[i]? with
    | none => simp [hb] at hi
    | some b =>
      rw [hb] at hi
      exact List.mem_append_left _ (List.mem_flatten_of_mem (List.mem_of_getElem? hb) hi)
  · exact List.mem_append_right _ hx

theorem get_bind_apply (g : Plain → Move α) (p : Plain) : (get >>= g) p = g p p := rfl

theorem rearrange_apply (sh : Stack.Shuffle) (p : Plain) :
    rearrange sh p =
      (shuffled Word.category sh p.stack).map fun s => ((), { p with stack := s }) := by
  rw [rearrange, get_bind_apply]
  cases shuffled Word.category sh p.stack <;> rfl

end Plain

namespace Stack

/-- The action and the partial function agree: where the one answers, so does the other, with the
same answer and the same stack. -/
def Realises (x : Act Stack α) (g : Stack → Option (α × Stack)) : Prop :=
  ∀ s, (∃ a t, x s = (.ok a, t) ∧ g s = some (a, t)) ∨ (∃ e t, x s = (.error e, t) ∧ g s = none)

theorem Realises.bind {x : Act Stack α} {g : Stack → Option (α × Stack)} {k : α → Act Stack β}
    {h : α → Stack → Option (β × Stack)} (hx : Realises x g) (hk : ∀ a, Realises (k a) (h a)) :
    Realises (x >>= k) fun s => g s >>= fun (a, t) => h a t := by
  intro s
  rcases hx s with ⟨a, t, hxs, hgs⟩ | ⟨e, t, hxs, hgs⟩
  · have hrun : (x >>= k) s = k a t := by rw [Act.bind_apply, hxs]
    simp only [hrun, hgs]
    exact hk a t
  · refine Or.inr ⟨e, t, ?_, ?_⟩
    · rw [Act.bind_apply, hxs]
    · simp only [hgs]
      rfl

/-- Takes two words off the stack: one operand of two words or two of one. -/
def takeTwo : Act Stack (List Operand) := do
  if ← topIsDouble then return [← pop2]
  else
    let a ← pop1
    let b ← pop1
    return [a, b]

/-- Takes a block of one or two words off the stack; answers with its operands from the top. -/
def takeBlock : Nat → Act Stack (List Operand)
  | 2 => takeTwo
  | _ => do return [← pop1]

theorem category_cases (o : Operand) : o.category = 1 ∨ o.category = 2 := by
  cases o with
  | bv64 e => exact Or.inr rfl
  | fp64 e => exact Or.inr rfl
  | _ => exact Or.inl rfl

theorem pop1_cons (a : Operand) (s : Stack) :
    pop1 (a :: s) = if a.category = 1 then (.ok a, s)
      else (.error (.violation (.operandCategory 1 a.width)), s) := by
  cases a <;> rfl

theorem pop2_cons (a : Operand) (s : Stack) :
    pop2 (a :: s) = if a.category = 2 then (.ok a, s)
      else (.error (.violation (.operandCategory 2 a.width)), s) := by
  cases a <;> rfl

theorem takeBlock_one : Realises (takeBlock 1) (Plain.block Operand.category 1) := by
  intro s
  rcases s with _ | ⟨a, s⟩
  · exact Or.inr ⟨_, _, rfl, rfl⟩
  have hrun : takeBlock 1 (a :: s) = (pop1 >>= fun a => pure [a]) (a :: s) := rfl
  rw [hrun, Act.bind_apply, pop1_cons]
  rcases category_cases a with ha | ha <;> simp [Plain.block, ha]

theorem takeBlock_two : Realises (takeBlock 2) (Plain.block Operand.category 2) := by
  intro s
  rcases s with _ | ⟨a, s⟩
  · exact Or.inr ⟨_, _, rfl, rfl⟩
  have hrun : takeBlock 2 (a :: s) =
      (if a.category = 2 then pop2 >>= fun a => pure [a]
        else pop1 >>= fun a => pop1 >>= fun b => pure [a, b]) (a :: s) := by
    cases a <;> rfl
  rw [hrun]
  rcases category_cases a with ha | ha
  · rw [if_neg (by omega), Act.bind_apply, pop1_cons, if_pos ha]
    rcases s with _ | ⟨b, s⟩
    · exact Or.inr ⟨_, _, rfl, by simp [Plain.block, ha]⟩
    · simp only [Act.bind_apply, pop1_cons]
      rcases category_cases b with hb | hb <;> simp [Plain.block, ha, hb]
  · rw [if_pos ha, Act.bind_apply, pop2_cons, if_pos ha]
    exact Or.inl ⟨_, _, rfl, by simp [Plain.block, ha]⟩

/-- Takes blocks of one or two words off the stack. -/
def takeBlocks : List Nat → Act Stack (List (List Operand))
  | [] => pure []
  | n :: ns => do
    let b ← takeBlock n
    return b :: (← takeBlocks ns)

theorem takeBlocks_realises {ns : List Nat} (h : ∀ n ∈ ns, n = 1 ∨ n = 2) :
    Realises (takeBlocks ns) (Plain.blocks Operand.category ns) := by
  induction ns with
  | nil => exact fun s => Or.inl ⟨[], s, rfl, rfl⟩
  | cons n ns ih =>
    have hn : Realises (takeBlock n) (Plain.block Operand.category n) := by
      rcases h n List.mem_cons_self with rfl | rfl
      · exact takeBlock_one
      · exact takeBlock_two
    have hns := ih fun k hk => h k (List.mem_cons_of_mem n hk)
    exact hn.bind fun b => hns.bind (k := fun bs => pure (b :: bs))
      (h := fun bs s => some (b :: bs, s)) fun bs s => Or.inl ⟨b :: bs, s, rfl, rfl⟩

theorem pushAll_apply (os : List Operand) (s : Stack) :
    pushAll os s = (.ok (), os.reverse ++ s) := by
  induction os generalizing s with
  | nil => rfl
  | cons o os ih =>
    change pushAll os (o :: s) = _
    rw [ih]
    simp

theorem takeBlocks_cons_bind (n : Nat) (ns : List Nat) (k : List (List Operand) → Act Stack α) :
    (takeBlocks (n :: ns) >>= k) =
      takeBlock n >>= fun b => takeBlocks ns >>= fun bs => k (b :: bs) := by
  simp only [takeBlocks, bind_assoc, pure_bind]

theorem takeBlocks_nil_bind (k : List (List Operand) → Act Stack α) :
    (takeBlocks [] >>= k) = k [] := rfl

theorem takeBlock_one_bind (k : List Operand → Act Stack α) :
    (takeBlock 1 >>= k) = pop1 >>= fun a => k [a] := by
  simp only [takeBlock, bind_assoc, pure_bind]

/-- What follows on two words depends on which they are. -/
theorem takeBlock_two_bind (k : List Operand → Act Stack α) :
    (takeBlock 2 >>= k) = topIsDouble >>= fun d =>
      if d then pop2 >>= fun a => k [a] else pop1 >>= fun a => pop1 >>= fun b => k [a, b] := by
  simp only [takeBlock, takeTwo, bind_assoc]
  congr 1
  funext d
  cases d with
  | false => simp only [Bool.false_eq_true, if_false, bind_assoc, pure_bind]
  | true => simp only [if_true, bind_assoc, pure_bind]

/-- **Every stack instruction takes the blocks of its form and puts them back in its order.** -/
theorem shuffle_eq (sh : Shuffle) :
    shuffle sh = takeBlocks (Plain.form sh).sizes >>= fun bs =>
      pushAll ((Plain.form sh).arrange bs).reverse := by
  cases sh <;> simp only [Plain.form, takeBlocks_cons_bind, takeBlocks_nil_bind,
    takeBlock_one_bind, takeBlock_two_bind]
  case pop2 =>
    simp only [shuffle, discardTwo, Act.discard_bind]
    rfl
  all_goals rfl

/-- **A stack instruction does to the stack what its form says.** -/
theorem shuffle_realises (sh : Shuffle) :
    Realises (shuffle sh) fun s => (Plain.shuffled Operand.category sh s).map fun t => ((), t) := by
  have hsizes : ∀ n ∈ (Plain.form sh).sizes, n = 1 ∨ n = 2 := by
    cases sh <;> decide
  have hback : ∀ bs : List (List Operand),
      Realises (pushAll ((Plain.form sh).arrange bs).reverse) fun s =>
        some ((), (Plain.form sh).arrange bs ++ s) := by
    intro bs s
    refine Or.inl ⟨(), _, ?_, rfl⟩
    rw [pushAll_apply, List.reverse_reverse]
  rw [shuffle_eq]
  have hall := (takeBlocks_realises hsizes).bind hback
  intro s
  have hs := hall s
  simp only [Plain.shuffled]
  rcases hb : Plain.blocks Operand.category (Plain.form sh).sizes s with _ | ⟨bs, t⟩
  · simpa [hb] using hs
  · simpa [hb] using hs

end Stack

theorem shuffle_follows {P : Frame → Prop} (sh : Stack.Shuffle) :
    Follows P (Machine.onStack (Stack.shuffle sh)) (Plain.rearrange sh) fun _ _ _ => True := by
  rintro ⟨_, prepared, heap, collector, log, classes⟩ ⟨me, s, t, fk⟩ rest rfl hf -
  have hplain : Plain.rearrange sh (Frame.plain ⟨me, s, t, fk⟩) =
      (Plain.shuffled Operand.category sh s).map fun s' => ((), Frame.plain ⟨me, s', t, fk⟩) := by
    have hcategory : Word.category ∘ Operand.word = Operand.category :=
      funext Operand.category_word
    rw [Plain.rearrange_apply, Frame.plain, Plain.shuffled_map, hcategory, Option.map_map]
    rfl
  have hrun : Machine.onStack (Stack.shuffle sh)
        ⟨⟨me, s, t, fk⟩ :: rest, prepared, heap, collector, log, classes⟩ =
      ((Stack.shuffle sh s).1, ⟨⟨me, (Stack.shuffle sh s).2, t, fk⟩ :: rest, prepared, heap,
        collector, log, classes⟩) := rfl
  rw [hplain, hrun]
  rcases Stack.shuffle_realises sh s with ⟨⟨⟩, s', hsh, hform⟩ | ⟨e, s', hsh, hform⟩
  · obtain ⟨s'', hs'', heq⟩ := Option.map_eq_some_iff.mp hform
    cases heq
    rw [hsh, hs'']
    refine Or.inr ⟨(), (), _, ⟨me, s', t, fk⟩, rfl, rfl, rfl, ?_, trivial⟩
    exact ⟨fun o ho => hf.stack o (Plain.mem_of_shuffled hs'' o ho), hf.locals⟩
  · rw [hsh, Option.map_eq_none_iff.mp hform]
    exact Or.inl ⟨e, _, rfl, rfl⟩

/-! ## 5. Locals -/

namespace Plain

theorem slot_map (g : α → β) (t : List (Option α)) (i : Int) :
    slot (t.map (Option.map g)) i = (slot t i).map g := by
  unfold slot
  split
  · rfl
  · rw [List.getElem?_map]
    rcases t[i.toNat]? with _ | _ | a <;> rfl

theorem write_map (category : β → Nat) (g : α → β) (t : List (Option α)) (i : Int) (a : α) :
    write category (t.map (Option.map g)) i (g a) =
      (write (category ∘ g) t i a).map (List.map (Option.map g)) := by
  unfold write
  rw [List.length_map]
  change (if 0 ≤ i ∧ i.toNat + (category ∘ g) a ≤ t.length then _ else _) = _
  split
  · simp only [Option.map_some, Option.some.injEq]
    apply List.ext_getElem?
    intro j
    simp only [List.getElem?_mapIdx, List.getElem?_map, Option.map_map]
    rcases t[j]? with _ | x
    · rfl
    · have hwide : isWide category (x.map g) = isWide (category ∘ g) x := by cases x <;> rfl
      simp only [Option.map_some, Function.comp_apply, hwide]
      split
      · rfl
      split
      · rfl
      split <;> rfl
  · rfl

/-- A store adds no value but the stored one. -/
theorem mem_of_write {category : α → Nat} {t u : List (Option α)} {i : Int} {a : α}
    (h : write category t i a = some u) : ∀ x, some x ∈ u → x = a ∨ some x ∈ t := by
  unfold write at h
  split at h
  · cases h
    intro x hx
    obtain ⟨j, hj, hjx⟩ := List.mem_mapIdx.mp hx
    split at hjx
    · cases hjx
      exact Or.inl rfl
    split at hjx
    · cases hjx
    split at hjx
    · cases hjx
    · exact Or.inr (hjx ▸ List.getElem_mem hj)
  · cases h

theorem readLocal_apply (i : Int) (p : Plain) :
    readLocal i p = (slot p.locals i).map fun w => (w, p) := by
  rw [readLocal, get_bind_apply]
  cases slot p.locals i <;> rfl

theorem writeLocal_apply (i : Int) (w : Word) (p : Plain) :
    writeLocal i w p =
      (write Word.category p.locals i w).map fun t => ((), { p with locals := t }) := by
  rw [writeLocal, get_bind_apply]
  cases write Word.category p.locals i w <;> rfl

end Plain

namespace Locals

theorem inRange_iff (t : Locals) (i : Int) :
    t.inRange i = true ↔ 0 ≤ i ∧ i.toNat < t.slots.length := by
  rw [inRange, Bool.and_eq_true, decide_eq_true_iff, decide_eq_true_iff]
  rfl

theorem read_cases (t : Locals) (i : Int) :
    (∃ o, read i t = (.ok o, t) ∧ Plain.slot t.slots i = some o) ∨
    (∃ e, read i t = (.error e, t) ∧ Plain.slot t.slots i = none) := by
  rw [read, Act.get_bind_apply]
  by_cases hi : t.inRange i = true
  · have hi0 : ¬ i < 0 := by
      have := (inRange_iff t i).mp hi
      omega
    rw [hi, Plain.slot, if_neg hi0]
    rcases t.slots[i.toNat]? with _ | _ | o
    · exact Or.inr ⟨_, rfl, rfl⟩
    · exact Or.inr ⟨_, rfl, rfl⟩
    · exact Or.inl ⟨o, rfl, rfl⟩
  · rw [eq_false_of_ne_true hi]
    refine Or.inr ⟨_, rfl, ?_⟩
    unfold Plain.slot
    split
    · rfl
    · have hlen : t.slots.length ≤ i.toNat := by
        rw [inRange_iff] at hi
        omega
      rw [List.getElem?_eq_none hlen]
      rfl

/-- The slots after a store that is not refused. -/
def stored (t : Locals) (i : Nat) (o : Operand) : Locals :=
  if o.category = 2 then (t.place i o).put (i + 1) none else t.place i o

theorem length_place (t : Locals) (i : Nat) (o : Operand) :
    (t.place i o).slots.length = t.slots.length := by
  unfold place put
  split <;> simp

/-- A store is made, or refused after it is made since there is no slot for the upper half, or
refused before. -/
theorem write_cases (t : Locals) (i : Int) (o : Operand) :
    (0 ≤ i ∧ i.toNat + o.category ≤ t.slots.length ∧
      write i o t = (.ok (), t.stored i.toNat o)) ∨
    (0 ≤ i ∧ i.toNat + 1 = t.slots.length ∧ o.category = 2 ∧
      write i o t = (.error (.violation (.localOverflow i t.size)), t.stored i.toNat o)) ∨
    (¬ (0 ≤ i ∧ i.toNat < t.slots.length) ∧
      write i o t = (.error (.violation (.localRange i t.size)), t)) := by
  by_cases hi : t.inRange i = true
  · obtain ⟨h0, hlt⟩ := (inRange_iff t i).mp hi
    have hrun : write i o t = (if o.category = 2 then do
          Act.ensure (i.toNat + 1 < t.size) (.localOverflow i t.size)
          modify fun t => t.put (i.toNat + 1) none
        else pure () : Act Locals Unit) (t.place i.toNat o) := by
      change (Act.ensure (t.inRange i) _ >>= fun _ => _) t = _
      rw [hi]
      rfl
    rw [hrun]
    rcases Stack.category_cases o with hc | hc
    · refine Or.inl ⟨h0, by omega, ?_⟩
      rw [stored, hc]
      rfl
    · by_cases hroom : i.toNat + 1 < t.size
      · refine Or.inl ⟨h0, by rw [size] at hroom; omega, ?_⟩
        rw [stored, hc]
        simp only [hroom, decide_true]
        rfl
      · rw [size] at hroom
        have hlast : (t.place i.toNat o).put (i.toNat + 1) none = t.place i.toNat o := by
          rw [put, List.set_eq_of_length_le (by rw [length_place]; omega)]
        refine Or.inr (Or.inl ⟨h0, by omega, hc, ?_⟩)
        rw [stored, hc, if_pos rfl, if_pos rfl, hlast]
        simp only [size, hroom, decide_false]
        rfl
  · refine Or.inr (Or.inr ⟨by rwa [inRange_iff] at hi, ?_⟩)
    change (Act.ensure (t.inRange i) _ >>= fun _ => _) t = _
    rw [Bool.eq_false_iff.mpr hi]
    rfl

theorem write_apply (t : Locals) (i : Int) (o : Operand) :
    (0 ≤ i ∧ i.toNat + o.category ≤ t.slots.length ∧
      write i o t = (.ok (), t.stored i.toNat o)) ∨
    (¬ (0 ≤ i ∧ i.toNat + o.category ≤ t.slots.length) ∧ ∃ e t', write i o t = (.error e, t')) := by
  rcases write_cases t i o with hmade | ⟨-, hlast, hc, hrun⟩ | ⟨hout, hrun⟩
  · exact Or.inl hmade
  · exact Or.inr ⟨by omega, _, _, hrun⟩
  · have hpos := Stack.category_cases o
    exact Or.inr ⟨by omega, _, _, hrun⟩

theorem getElem?_place (t : Locals) {i : Nat} (hi : i < t.slots.length) (j : Nat) (o : Operand) :
    (t.place i o).slots[j]? =
      if j = i then some (some o)
      else if j + 1 = i ∧ t.isDouble j then some none
      else t.slots[j]? := by
  unfold place put
  by_cases hji : j = i
  · subst hji
    split <;> simp [hi]
  have hij : i ≠ j := fun h => hji h.symm
  by_cases hwide : j + 1 = i ∧ t.isDouble j = true
  · obtain ⟨rfl, hd⟩ := hwide
    have hj : j < t.slots.length := by omega
    simp [hd, hj]
  · rw [if_neg hji, if_neg hwide]
    split
    next h =>
      rw [Bool.and_eq_true, decide_eq_true_iff] at h
      have hne : i - 1 ≠ j := by
        intro heq
        subst heq
        exact hwide ⟨by omega, h.2⟩
      simp [hij, hne]
    · simp [hij]

theorem isDouble_eq {t : Locals} {j : Nat} {x : Option Operand} (h : t.slots[j]? = some x) :
    t.isDouble j = Plain.isWide Operand.category x := by
  unfold isDouble
  rw [h]
  cases x <;> rfl

theorem getElem?_stored (t : Locals) {i : Nat} {o : Operand}
    (h : i + o.category ≤ t.slots.length) (j : Nat) :
    (t.stored i o).slots[j]? =
      if j = i then some (some o)
      else if i < j ∧ j < i + o.category then some none
      else if j + 1 = i ∧ t.isDouble j then some none
      else t.slots[j]? := by
  have hi : i < t.slots.length := by
    rcases Stack.category_cases o with hc | hc <;> omega
  unfold stored
  split
  next hc =>
    rw [put, List.getElem?_set, getElem?_place t hi, length_place]
    by_cases hj : i + 1 = j
    · subst hj
      rw [if_pos rfl, if_pos (by omega), if_neg (by omega), if_pos (by omega)]
    · rw [if_neg hj, if_neg (by omega : ¬ (i < j ∧ j < i + o.category))]
  next hc =>
    have hone : o.category = 1 := (Stack.category_cases o).resolve_right hc
    rw [getElem?_place t hi, if_neg (by omega : ¬ (i < j ∧ j < i + o.category))]

/-- **A store that is not refused writes what the plain machine writes.** -/
theorem write_stored (t : Locals) {i : Int} {o : Operand} (h0 : 0 ≤ i)
    (h : i.toNat + o.category ≤ t.slots.length) :
    Plain.write Operand.category t.slots i o = some (t.stored i.toNat o).slots := by
  have hpos : 0 < o.category := by rcases Stack.category_cases o with hc | hc <;> omega
  unfold Plain.write
  rw [if_pos ⟨h0, h⟩]
  congr 1
  apply List.ext_getElem?
  intro j
  rw [List.getElem?_mapIdx, getElem?_stored t h]
  cases hx : t.slots[j]? with
  | none =>
    have hj : t.slots.length ≤ j := List.getElem?_eq_none_iff.mp hx
    rw [if_neg (by omega), if_neg (by omega), if_neg (by omega)]
    rfl
  | some x =>
    rw [isDouble_eq hx, Option.map_some]
    split
    · rfl
    split
    · rfl
    split <;> rfl

end Locals

theorem readLocal_follows {P : Frame → Prop} (i : Int) :
    Follows P (Machine.onLocals (Locals.read i)) (Plain.readLocal i)
      fun o w _ => o.Sound ∧ w = o.word := by
  rintro ⟨_, prepared, heap, collector, log, classes⟩ ⟨me, s, t, fk⟩ rest rfl hf -
  have hrun : Machine.onLocals (Locals.read i)
        ⟨⟨me, s, t, fk⟩ :: rest, prepared, heap, collector, log, classes⟩ =
      ((Locals.read i t).1, ⟨⟨me, s, (Locals.read i t).2, fk⟩ :: rest, prepared, heap,
        collector, log, classes⟩) := rfl
  have hplain : Plain.readLocal i (Frame.plain ⟨me, s, t, fk⟩) =
      (Plain.slot t.slots i).map fun o => (o.word, Frame.plain ⟨me, s, t, fk⟩) := by
    rw [Plain.readLocal_apply, Frame.plain, Plain.slot_map, Option.map_map]
    rfl
  rw [hrun, hplain]
  rcases Locals.read_cases t i with ⟨o, hread, hslot⟩ | ⟨e, hread, hslot⟩
  · rw [hread, hslot]
    refine Or.inr ⟨o, o.word, _, ⟨me, s, t, fk⟩, rfl, rfl, rfl, hf, hf.locals o ?_, rfl⟩
    unfold Plain.slot at hslot
    split at hslot
    · cases hslot
    · exact List.mem_of_getElem? (Option.join_eq_some_iff.mp hslot)
  · rw [hread, hslot]
    exact Or.inl ⟨e, _, rfl, rfl⟩

theorem writeLocal_follows {P : Frame → Prop} (i : Int) {o : Operand} {w : Word} (ho : o.Sound)
    (hw : o.word = w) :
    Follows P (Machine.onLocals (Locals.write i o)) (Plain.writeLocal i w) fun _ _ _ => True := by
  subst hw
  rintro ⟨_, prepared, heap, collector, log, classes⟩ ⟨me, s, t, fk⟩ rest rfl hf -
  have hrun : Machine.onLocals (Locals.write i o)
        ⟨⟨me, s, t, fk⟩ :: rest, prepared, heap, collector, log, classes⟩ =
      ((Locals.write i o t).1, ⟨⟨me, s, (Locals.write i o t).2, fk⟩ :: rest, prepared, heap,
        collector, log, classes⟩) := rfl
  have hplain : Plain.writeLocal i o.word (Frame.plain ⟨me, s, t, fk⟩) =
      (Plain.write Operand.category t.slots i o).map fun l =>
        ((), Frame.plain ⟨me, s, ⟨l⟩, fk⟩) := by
    have hcategory : Word.category ∘ Operand.word = Operand.category :=
      funext Operand.category_word
    rw [Plain.writeLocal_apply, Frame.plain, Plain.write_map, hcategory, Option.map_map]
    rfl
  rw [hrun, hplain]
  rcases Locals.write_apply t i o with ⟨h0, hroom, hwrite⟩ | ⟨hroom, e, t', hwrite⟩
  · have hstored := Locals.write_stored t h0 hroom
    rw [hwrite, hstored]
    refine Or.inr ⟨(), (), _, ⟨me, s, t.stored i.toNat o, fk⟩, rfl, rfl, rfl, ?_, trivial⟩
    refine ⟨hf.stack, fun x hx => ?_⟩
    rcases Plain.mem_of_write hstored x hx with rfl | hmem
    · exact ho
    · exact hf.locals x hmem
  · have hnone : Plain.write Operand.category t.slots i o = none := if_neg hroom
    rw [hwrite, hnone]
    exact Or.inl ⟨e, _, rfl, rfl⟩

end Concolic
