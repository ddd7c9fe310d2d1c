import Concolic.Proofs.Moves

/-
# Shuffles move words

A stack instruction is defined on words: it takes some words off the stack, skips some beneath them
and puts both back in its order.  The stack here holds operands, and a long or a double is one
operand of two words, so an instruction has a form for every way in which operands can make up the
words it moves.  All these forms are one shuffle of words (`shuffle_moves_words`).

An instruction cuts the stack twice, beneath the words it moves and beneath those it skips.  It is
refused exactly if there are not enough words or a cut goes through an operand.
-/
namespace Concolic

/-! ## 1. The words of a stack -/

/-- A word of a stack: an operand of one word, or a half of an operand of two. -/
inductive StackWord
  | whole (o : Operand)
  | upper (o : Operand)
  | lower (o : Operand)
deriving DecidableEq, Repr

/-- The words of an operand, the top first. -/
def Operand.words (o : Operand) : List StackWord :=
  if o.category = 2 then [.upper o, .lower o] else [.whole o]

theorem Operand.length_words (o : Operand) : o.words.length = o.category := by
  rcases Stack.category_cases o with ho | ho <;> simp [words, ho]

namespace Stack

/-- The words of a stack, the top first. -/
def words (s : Stack) : List StackWord := s.flatMap Operand.words

@[simp] theorem words_nil : words [] = [] := rfl

@[simp] theorem words_append (s t : Stack) : words (s ++ t) = words s ++ words t :=
  List.flatMap_append

@[simp] theorem length_words_cons (o : Operand) (s : Stack) :
    (words (o :: s)).length = o.category + (words s).length := by
  rw [words, List.flatMap_cons, List.length_append, o.length_words]
  rfl

/-! ## 2. Cuts -/

/-- The cut beneath the top `n` words goes through an operand, which has words on both sides. -/
def Splits (s : Stack) (n : Nat) : Prop :=
  ∃ above o below, s = above ++ o :: below ∧ (words above).length < n ∧
    n < (words above).length + o.category

theorem not_splits_zero (s : Stack) : ¬ Splits s 0 := by
  rintro ⟨above, o, below, -, hlt, -⟩
  exact Nat.not_lt_zero _ hlt

/-- A cut goes through the top operand or, beneath it, through another one. -/
theorem splits_cons (o : Operand) (s : Stack) (n : Nat) :
    Splits (o :: s) n ↔
      0 < n ∧ n < o.category ∨ o.category ≤ n ∧ Splits s (n - o.category) := by
  constructor
  · rintro ⟨_ | ⟨a, above⟩, o', below, hs, hlt, hgt⟩
    · cases hs
      exact Or.inl ⟨hlt, by simpa using hgt⟩
    · cases hs
      rw [length_words_cons] at hlt hgt
      exact Or.inr ⟨by omega, above, o', below, rfl, by omega, by omega⟩
  · rintro (⟨hpos, hlt⟩ | ⟨hle, above, o', below, rfl, hlt, hgt⟩)
    · exact ⟨[], o, s, rfl, hpos, by simpa using hlt⟩
    · refine ⟨o :: above, o', below, rfl, ?_, ?_⟩
      · rw [length_words_cons]
        omega
      · rw [length_words_cons]
        omega

/-- Cuts beneath some operands are cuts of what is beneath them. -/
theorem splits_append (b t : Stack) (n : Nat) :
    Splits (b ++ t) ((words b).length + n) ↔ Splits t n := by
  induction b with
  | nil => simp
  | cons o b ih =>
    have hrest : o.category + (words b).length + n - o.category = (words b).length + n := by omega
    rw [List.cons_append, splits_cons, length_words_cons, hrest, ih]
    constructor
    · rintro (⟨-, hlt⟩ | ⟨-, h⟩)
      · omega
      · exact h
    · intro h
      exact Or.inr ⟨by omega, h⟩

/-- A block is a number of words. -/
theorem length_words_of_block {n : Nat} {s b t : Stack}
    (h : Plain.block Operand.category n s = some (b, t)) : (words b).length = n := by
  induction s generalizing n b with
  | nil =>
    cases n with
    | zero =>
      cases h
      rfl
    | succ n => cases h
  | cons o s ih =>
    cases n with
    | zero =>
      cases h
      rfl
    | succ n =>
      simp only [Plain.block] at h
      split at h
      next hle =>
        obtain ⟨⟨b', t'⟩, hb, heq⟩ := Option.map_eq_some_iff.mp h
        cases heq
        rw [length_words_cons, ih hb]
        omega
      · cases h

/-- **There is a block of `n` words exactly if there are as many words and the cut beneath them goes
through no operand.** -/
theorem exists_block_iff (n : Nat) (s : Stack) :
    (∃ b t, Plain.block Operand.category n s = some (b, t)) ↔
      n ≤ (words s).length ∧ ¬ Splits s n := by
  induction s generalizing n with
  | nil =>
    cases n with
    | zero => exact iff_of_true ⟨[], [], rfl⟩ ⟨Nat.le_refl 0, not_splits_zero []⟩
    | succ n =>
      refine iff_of_false ?_ fun h => absurd h.1 (Nat.not_succ_le_zero n)
      rintro ⟨b, t, h⟩
      cases h
  | cons o s ih =>
    cases n with
    | zero => exact iff_of_true ⟨[], o :: s, rfl⟩ ⟨Nat.zero_le _, not_splits_zero _⟩
    | succ n =>
      simp only [Plain.block]
      rw [splits_cons, length_words_cons]
      split
      next hle =>
        have hbeneath := ih (n + 1 - o.category)
        constructor
        · rintro ⟨b, t, h⟩
          obtain ⟨⟨b', t'⟩, hb, -⟩ := Option.map_eq_some_iff.mp h
          obtain ⟨hlen, hcut⟩ := hbeneath.mp ⟨b', t', hb⟩
          refine ⟨by omega, ?_⟩
          rintro (⟨-, hlt⟩ | ⟨-, hsplits⟩)
          · omega
          · exact hcut hsplits
        · rintro ⟨hlen, hcut⟩
          obtain ⟨b, t, hb⟩ := hbeneath.mpr ⟨by omega, fun h => hcut (Or.inr ⟨hle, h⟩)⟩
          exact ⟨o :: b, t, by rw [hb]; rfl⟩
      next hlt =>
        refine iff_of_false ?_ fun h => h.2 (Or.inl ⟨by omega, by omega⟩)
        rintro ⟨b, t, h⟩
        cases h

/-! ## 3. Shuffles of words -/

namespace Shuffle

/-- How many words are moved. -/
def moved : Shuffle → Nat
  | pop | dup | dupX1 | dupX2 | swap => 1
  | pop2 | dup2 | dup2X1 | dup2X2 => 2

/-- How many words beneath them are skipped. -/
def skipped : Shuffle → Nat
  | pop | pop2 | dup | dup2 => 0
  | dupX1 | dup2X1 | swap => 1
  | dupX2 | dup2X2 => 2

/-- What stands for the moved and the skipped words afterwards, from the top. -/
def arrange (moved skipped : List α) : Shuffle → List α
  | pop | pop2 => []
  | swap => skipped ++ moved
  | dup | dupX1 | dupX2 | dup2 | dup2X1 | dup2X2 => moved ++ skipped ++ moved

/-- The shuffle of words, which knows nothing of operands. -/
def onWords (sh : Shuffle) (ws : List α) : List α :=
  sh.arrange (ws.take sh.moved) ((ws.drop sh.moved).take sh.skipped) ++
    ws.drop (sh.moved + sh.skipped)

/-- The cuts that it makes: beneath the moved words, and beneath the skipped ones. -/
def cuts (sh : Shuffle) : List Nat := [sh.moved, sh.moved + sh.skipped]

theorem onWords_append (sh : Shuffle) {ms ks : List α} (hm : ms.length = sh.moved)
    (hk : ks.length = sh.skipped) (ws : List α) :
    sh.onWords (ms ++ ks ++ ws) = sh.arrange ms ks ++ ws := by
  rw [onWords, List.append_assoc, ← hm, ← hk]
  simp

example : dup2X1.onWords ['a', 'b', 'c', 'd'] = ['a', 'b', 'c', 'a', 'b', 'd'] := by decide

end Shuffle

theorem words_arrange (sh : Shuffle) (b c : Stack) :
    words (sh.arrange b c) = sh.arrange (words b) (words c) := by
  cases sh <;> simp [Shuffle.arrange]

end Stack

namespace Plain

variable (category : α → Nat)

theorem block_zero (s : List α) : block category 0 s = some ([], s) := by
  cases s <;> rfl

theorem blocks_single (n : Nat) (s : List α) :
    blocks category [n] s = (block category n s).map fun (b, t) => ([b], t) := by
  simp only [blocks]
  cases block category n s <;> rfl

theorem blocks_pair (m n : Nat) (s : List α) :
    blocks category [m, n] s = (block category m s).bind fun (b, t) =>
      (block category n t).map fun (c, u) => ([b, c], u) := by
  simp only [blocks]
  rcases block category m s with _ | ⟨b, t⟩
  · rfl
  · simp only [Option.bind_eq_bind, Option.bind_some]
    cases block category n t <;> rfl

/-- A shuffle takes the block that it moves and then the block that it skips. -/
theorem shuffled_eq (sh : Stack.Shuffle) (s : List α) :
    shuffled category sh s = (block category sh.moved s).bind fun (b, t) =>
      (block category sh.skipped t).map fun (c, u) => sh.arrange b c ++ u := by
  cases sh with
  | pop | pop2 | dup | dup2 =>
    -- nothing is skipped
    simp only [shuffled, form, blocks_single, Stack.Shuffle.moved, Stack.Shuffle.skipped,
      block_zero]
    rcases block category _ s with _ | ⟨b, t⟩
    · rfl
    · simp [Form.arrange, Stack.Shuffle.arrange]
  | dupX1 | dupX2 | dup2X1 | dup2X2 | swap =>
    simp only [shuffled, form, blocks_pair, Stack.Shuffle.moved, Stack.Shuffle.skipped]
    rcases block category _ s with _ | ⟨b, t⟩
    · rfl
    · simp only [Option.bind_some]
      rcases block category _ t with _ | ⟨c, u⟩
      · rfl
      · simp [Form.arrange, Stack.Shuffle.arrange]

end Plain

namespace Stack

/-- What two blocks are made of: the words that are moved, those that are skipped, and the rest. -/
theorem words_of_blocks {m k : Nat} {s b t c u : Stack}
    (hb : Plain.block Operand.category m s = some (b, t))
    (hc : Plain.block Operand.category k t = some (c, u)) :
    words s = words b ++ words c ++ words u ∧ (words b).length = m ∧ (words c).length = k := by
  refine ⟨?_, length_words_of_block hb, length_words_of_block hc⟩
  rw [Plain.append_of_block hb, Plain.append_of_block hc, words_append, words_append,
    List.append_assoc]

theorem exists_shuffled_iff (sh : Shuffle) (s : Stack) :
    (∃ t, Plain.shuffled Operand.category sh s = some t) ↔
      sh.moved + sh.skipped ≤ (words s).length ∧ ∀ n ∈ sh.cuts, ¬ Splits s n := by
  rw [Plain.shuffled_eq, Shuffle.cuts, List.forall_mem_cons, List.forall_mem_singleton]
  constructor
  · rintro ⟨t, h⟩
    obtain ⟨⟨b, u⟩, hb, h⟩ := Option.bind_eq_some_iff.mp h
    obtain ⟨⟨c, v⟩, hc, -⟩ := Option.map_eq_some_iff.mp h
    obtain ⟨hs, hm, hk⟩ := words_of_blocks hb hc
    obtain ⟨-, hmoved⟩ := (exists_block_iff _ _).mp ⟨b, u, hb⟩
    obtain ⟨-, hskipped⟩ := (exists_block_iff _ _).mp ⟨c, v, hc⟩
    refine ⟨?_, hmoved, ?_⟩
    · rw [hs, List.length_append, List.length_append]
      omega
    · rwa [Plain.append_of_block hb, ← hm, splits_append]
  · rintro ⟨hlen, hmoved, hskipped⟩
    obtain ⟨b, u, hb⟩ := (exists_block_iff _ _).mpr ⟨by omega, hmoved⟩
    have hs : s = b ++ u := Plain.append_of_block hb
    have hm : (words b).length = sh.moved := length_words_of_block hb
    have hu : sh.skipped ≤ (words u).length := by
      rw [hs, words_append, List.length_append] at hlen
      omega
    rw [hs, ← hm, splits_append] at hskipped
    obtain ⟨c, v, hc⟩ := (exists_block_iff _ _).mpr ⟨hu, hskipped⟩
    rw [hb]
    simp only [Option.bind_some, hc]
    exact ⟨_, rfl⟩

theorem words_of_shuffled {sh : Shuffle} {s t : Stack}
    (h : Plain.shuffled Operand.category sh s = some t) : words t = sh.onWords (words s) := by
  rw [Plain.shuffled_eq] at h
  obtain ⟨⟨b, u⟩, hb, h⟩ := Option.bind_eq_some_iff.mp h
  obtain ⟨⟨c, v⟩, hc, rfl⟩ := Option.map_eq_some_iff.mp h
  obtain ⟨hs, hm, hk⟩ := words_of_blocks hb hc
  rw [hs, sh.onWords_append hm hk, words_append, words_arrange]

/-- **A stack instruction is a shuffle of words.**  It succeeds exactly if there are as many words
as it moves and skips, and neither of its cuts goes through an operand.  Then the words of the
result are the shuffled words of the stack. -/
theorem shuffle_moves_words (sh : Shuffle) (s : Stack) :
    ((shuffle sh s).1 = .ok () ↔
      sh.moved + sh.skipped ≤ (words s).length ∧ ∀ n ∈ sh.cuts, ¬ Splits s n) ∧
    ∀ t, shuffle sh s = (.ok (), t) → words t = sh.onWords (words s) := by
  rw [← exists_shuffled_iff]
  rcases shuffle_realises sh s with ⟨⟨⟩, u, hrun, hform⟩ | ⟨e, u, hrun, hform⟩
  · obtain ⟨u', hu, heq⟩ := Option.map_eq_some_iff.mp hform
    cases heq
    rw [hrun]
    refine ⟨iff_of_true rfl ⟨u, hu⟩, fun t ht => ?_⟩
    cases ht
    exact words_of_shuffled hu
  · rw [hrun, Option.map_eq_none_iff.mp hform]
    refine ⟨iff_of_false (fun h => ?_) fun h => ?_, fun t ht => ?_⟩
    · cases h
    · obtain ⟨t, ht⟩ := h
      cases ht
    · cases ht

/-- An int and a float over a long. -/
def singlesOverLong : Stack := [.bv32 (.const 1), .fp32 (.const .one), .bv64 (.const 2), .ref .null]

/-- Two words go beneath the long, but not one word beneath the float and half of the long. -/
theorem singlesOverLong_words :
    shuffle .dup2X2 singlesOverLong =
      (.ok (), [.bv32 (.const 1), .fp32 (.const .one), .bv64 (.const 2), .bv32 (.const 1),
        .fp32 (.const .one), .ref .null]) ∧
    words [.bv32 (.const 1), .fp32 (.const .one), .bv64 (.const 2), .bv32 (.const 1),
        .fp32 (.const .one), .ref .null] =
      Shuffle.dup2X2.onWords (words singlesOverLong) ∧
    Splits singlesOverLong 3 ∧ (shuffle .dupX2 singlesOverLong).1 ≠ .ok () := by
  have hrun : shuffle .dup2X2 singlesOverLong =
      (.ok (), [.bv32 (.const 1), .fp32 (.const .one), .bv64 (.const 2), .bv32 (.const 1),
        .fp32 (.const .one), .ref .null]) := rfl
  have hsplits : Splits singlesOverLong 3 :=
    ⟨[.bv32 (.const 1), .fp32 (.const .one)], .bv64 (.const 2), [.ref .null], rfl, by decide,
      by decide⟩
  refine ⟨hrun, (shuffle_moves_words .dup2X2 singlesOverLong).2 _ hrun, hsplits, fun hok => ?_⟩
  obtain ⟨-, hcuts⟩ := (shuffle_moves_words .dupX2 singlesOverLong).1.mp hok
  exact hcuts 3 (by decide) hsplits

end Stack

end Concolic
