import Concolic.Proofs.ArrayRoundTrip
import Concolic.Proofs.IntegerTexts

/-
# Integers in lines

Six kinds of lines push an integer that they give as a text: `BIPUSH`, `SIPUSH`, `ICONST`, `LCONST`
and `LDC` with the type of an int or a long.  The integer of each kind has a number of bits
(`Immediate.bits`), and one would have it that a text that stands for an integer of so many bits is
pushed as it is while any other text is refused.

The kinds do not read their texts alike.  `LCONST` and `LDC` have the reader check the range; the
other three read any number of 64 bits and cut it down afterwards (`Immediate.readBits`).  So
`Immediate.means_iff`: these push a text out of range as another number, and nothing else is amiss.
-/
namespace Concolic

/-! ## 1. The fields of a line -/

namespace Text

/-- A text without blank characters. -/
def Blankless (s : String) : Prop := ∀ c ∈ s.toList, isBlank c = false

instance (s : String) : Decidable (Blankless s) := List.decidableBAll _ s.toList

theorem fieldsFrom_blankless {cs : List Char} (hcs : ∀ c ∈ cs, isBlank c = false)
    (field rest : List Char) :
    fieldsFrom field (cs ++ rest) = fieldsFrom (cs.reverse ++ field) rest := by
  induction cs generalizing field with
  | nil => rfl
  | cons c cs ih =>
    have hc : ¬ isBlank c = true := by rw [hcs c List.mem_cons_self]; exact Bool.false_ne_true
    rw [List.cons_append, fieldsFrom, if_neg hc, ih fun d hd => hcs d (List.mem_cons_of_mem c hd),
      List.reverse_cons, List.append_assoc]
    rfl

/-- The first field of a line that starts with a word and a space. -/
theorem fields_cons {w : String} (hw : Blankless w) (hne : w ≠ "") (s : String) :
    fields (w ++ " " ++ s) = w :: fields s := by
  have hlist : (w ++ " " ++ s).toList = w.toList ++ ' ' :: s.toList := by
    simp [String.toList_append]
  have hreverse : ¬ (w.toList.reverse ++ []).isEmpty = true := by
    rw [List.append_nil, List.isEmpty_iff, List.reverse_eq_nil_iff]
    exact fun h => hne (String.toList_eq_nil_iff.mp h)
  rw [fields, hlist, fieldsFrom_blankless hw, fieldsFrom, if_pos (by decide), if_neg hreverse,
    List.append_nil, List.reverse_reverse, List.map_cons, String.ofList_toList]
  rfl

theorem fields_blankless {s : String} (hs : Blankless s) :
    fields s = if s = "" then [] else [s] := by
  have hall := fieldsFrom_blankless hs [] []
  rw [List.append_nil, List.append_nil] at hall
  rw [fields, hall, fieldsFrom]
  by_cases hempty : s = ""
  · subst hempty
    rfl
  · have hreverse : ¬ s.toList.reverse.isEmpty = true := by
      rw [List.isEmpty_iff, List.reverse_eq_nil_iff]
      exact fun h => hempty (String.toList_eq_nil_iff.mp h)
    rw [if_neg hreverse, if_neg hempty, List.reverse_reverse, List.map_singleton,
      String.ofList_toList]

end Text

/-! ## 2. The kinds of lines -/

/-- The lines that push an integer they give as a text. -/
inductive Immediate
  | bipush
  | sipush
  | iconst
  | lconst
  | ldcInt
  | ldcLong
deriving DecidableEq, Repr

namespace Immediate

/-- The name of the instruction. -/
def name : Immediate → String
  | bipush => "BIPUSH"
  | sipush => "SIPUSH"
  | iconst => "ICONST"
  | lconst => "LCONST"
  | ldcInt | ldcLong => "LDC"

/-- What stands between the name and the text. -/
def type? : Immediate → List String
  | ldcInt => ["I"]
  | ldcLong => ["J"]
  | _ => []

/-- The line with the text `s`. -/
def line (k : Immediate) (s : String) : String :=
  (k.name :: k.type?).foldr (fun word rest => word ++ " " ++ rest) s

example : ldcInt.line "0x10" = "LDC I 0x10" := by decide

/-- The number of bits of the integer. -/
def bits : Immediate → Nat
  | bipush => 8
  | sipush => 16
  | iconst | ldcInt => 32
  | lconst | ldcLong => 64

/-- Whether the text may mark its base. -/
def marked : Immediate → Bool
  | bipush | sipush | iconst => false
  | lconst | ldcInt | ldcLong => true

/-- The number of bits that the text is read with. -/
def readBits : Immediate → Nat
  | ldcInt => 32
  | _ => 64

/-- The constant `v` in the width of the kind. -/
def operand (k : Immediate) (v : Int) : Operand :=
  match k with
  | lconst | ldcLong => .bv64 (.const (Int64.ofInt v))
  | _ => .bv32 (.const (Int64.ofInt v))

/-- What a line stands for whose text was read as `v`. -/
def instruction (v : Int) : Immediate → Instruction
  | bipush => .pushInt (Int8.ofInt v).toInt32
  | sipush => .pushInt (Int16.ofInt v).toInt32
  | iconst => .pushInt (Int32.ofInt v)
  | lconst => .pushLong (Int64.ofInt v)
  | ldcInt => .pushConstant (.int (Int32.ofInt v))
  | ldcLong => .pushConstant (.long (Int64.ofInt v))

theorem fits_readBits {k : Immediate} {v : Int} (h : Numeral.Fits k.bits v) :
    Numeral.Fits k.readBits v := by
  cases k <;> simp only [Numeral.Fits, bits, readBits] at h ⊢ <;> omega

/-- What is read with the bits of the kind is pushed as it is. -/
theorem bmod_eq_of_fits {k : Immediate} {v : Int} (h : Numeral.Fits k.bits v) :
    v.bmod (2 ^ k.bits) = v := by
  cases k <;> simp only [Numeral.Fits, bits] at h ⊢ <;>
    exact Int.bmod_eq_of_le (by omega) (by omega)

/-! ## 3. Reading the line -/

/-- How the text is read. -/
def reading (k : Immediate) (s : String) : Except Numeral.Reason Int :=
  Numeral.readInteger k.marked k.readBits s.toList

theorem reading_iff {k : Immediate} {s : String} {v : Int} :
    k.reading s = .ok v ↔ Numeral.Denotes k.marked s.toList v ∧ Numeral.Fits k.readBits v :=
  Numeral.readInteger_eq_ok_iff (by cases k <;> decide) v

/-- The cause of an error for a text that cannot be read. -/
def refusal (s : String) (e : Numeral.Reason) : Immediate → Replay.Cause
  | bipush | sipush | iconst => .numeral ⟨.decimal, s, e⟩
  | lconst => .numeral ⟨.signed, s, e⟩
  | ldcInt | ldcLong => .value (.numeral ⟨.signed, s, e⟩)

theorem fields_line (k : Immediate) (s : String) :
    Text.fields (k.line s) = k.name :: k.type? ++ Text.fields s := by
  have hwords : ∀ {ws : List String}, (∀ w ∈ ws, Text.Blankless w ∧ w ≠ "") →
      Text.fields (ws.foldr (fun word rest => word ++ " " ++ rest) s) = ws ++ Text.fields s := by
    intro ws hws
    induction ws with
    | nil => rfl
    | cons w ws ih =>
      obtain ⟨hw, hne⟩ := hws w List.mem_cons_self
      rw [List.foldr_cons, Text.fields_cons hw hne,
        ih fun w' hw' => hws w' (List.mem_cons_of_mem w hw'), List.cons_append]
  refine hwords ?_
  cases k <;> decide

theorem upper_name (k : Immediate) : Text.upper k.name = k.name := by
  cases k <;> decide

/-- How the lines of the kind are read. -/
def reader : Immediate → Replay.LineReader
  | bipush => Replay.indexed fun v => .pushInt (Int8.ofInt v).toInt32
  | sipush => Replay.indexed fun v => .pushInt (Int16.ofInt v).toInt32
  | iconst => Replay.indexed fun v => .pushInt (Int32.ofInt v)
  | lconst => Replay.readLongConst
  | ldcInt | ldcLong => Replay.readConstant

theorem lookup_name (k : Immediate) : Replay.readers.lookup k.name = some k.reader := by
  cases k <;> rfl

theorem read_reader (k : Immediate) (s : String) (r : Replay) :
    k.reader.read k.name r (k.type? ++ [s]) =
      ((k.reading s).mapError fun e => .inside k.name (k.refusal s e)).map
        fun v => { instruction := k.instruction v } := by
  -- Once the table of readers is out of the way, every kind computes by its reading alone.
  cases k <;>
  · simp only [reading, reader, marked, readBits, type?, List.nil_append, List.cons_append,
      Replay.LineReader.read, Replay.indexed, Replay.readLongConst, Replay.readConstant,
      Replay.readIndex, Host.read, Numeral.parseDecimal, Numeral.parseInteger]
    cases Numeral.readInteger _ _ s.toList <;> rfl

/-- **The line is read as its text is.** -/
theorem read_line {k : Immediate} {s : String} (hs : Text.Blankless s) (hne : s ≠ "") (r : Replay) :
    r.read (k.line s) = ((k.reading s).mapError fun e => .inside k.name (k.refusal s e)).map
      fun v => some (k.name, { instruction := k.instruction v }) := by
  have hfields : Text.fields (k.line s) = k.name :: (k.type? ++ [s]) := by
    rw [fields_line, Text.fields_blankless hs, if_neg hne, List.cons_append]
  unfold Replay.read
  rw [hfields]
  dsimp only
  rw [upper_name, lookup_name]
  dsimp only
  rw [read_reader]
  cases k.reading s <;> rfl

/-! ## 4. Running the line -/

end Immediate

/-- The machine with an operand more on the stack of its top frame. -/
def Machine.pushed (m : Machine) (o : Operand) : Machine :=
  { m with frames := m.frames.modifyHead fun f => { f with stack := o :: f.stack } }

/-- The replay with an operand more on the stack. -/
def Replay.pushed (r : Replay) (o : Operand) : Replay := { r with machine := r.machine.pushed o }

namespace Immediate

theorem push_eq {m : Machine} (hm : m.frames ≠ []) (o : Operand) :
    Machine.push o m = (.ok (), m.pushed o) := by
  obtain ⟨f, fs, hf⟩ := List.exists_cons_of_ne_nil hm
  unfold Machine.push Machine.onStack Machine.onTop Machine.pushed
  rw [hf]
  rfl

/-- The conversions cut the number down to its last bits. -/
theorem toInt64_eq_bmod (v : Int) :
    (Int8.ofInt v).toInt32.toInt64 = Int64.ofInt (v.bmod (2 ^ 8)) ∧
    (Int16.ofInt v).toInt32.toInt64 = Int64.ofInt (v.bmod (2 ^ 16)) ∧
    (Int32.ofInt v).toInt64 = Int64.ofInt (v.bmod (2 ^ 32)) ∧
    Int64.ofInt v = Int64.ofInt (v.bmod (2 ^ 64)) := by
  -- A remainder that is cut off at no more than 64 bits is a long as it stands.
  have hkeep : ∀ n : Nat, 0 < n → n ≤ 2 ^ 64 → (v.bmod n).bmod (2 ^ 64) = v.bmod n := by
    intro n hpos hn
    have hlow := Int.le_bmod (x := v) hpos
    have hhigh := Int.bmod_lt (x := v) hpos
    exact Int.bmod_eq_of_le (by omega) (by omega)
  refine ⟨?_, ?_, ?_, ?_⟩ <;> rw [← Int64.toInt_inj]
  · rw [Int32.toInt_toInt64, Int8.toInt_toInt32, Int8.toInt_ofInt, Int64.toInt_ofInt]
    exact (hkeep _ (by decide) (by decide)).symm
  · rw [Int32.toInt_toInt64, Int16.toInt_toInt32, Int16.toInt_ofInt, Int64.toInt_ofInt]
    exact (hkeep _ (by decide) (by decide)).symm
  · rw [Int32.toInt_toInt64, Int32.toInt_ofInt, Int64.toInt_ofInt]
    exact (hkeep _ (by decide) (by decide)).symm
  · rw [Int64.toInt_ofInt, Int64.toInt_ofInt]
    exact (hkeep _ (by decide) (by decide)).symm

theorem exec_instruction {m : Machine} (hm : m.frames ≠ []) (k : Immediate) (v : Int) :
    (k.instruction v).exec m = (.ok false, m.pushed (k.operand (v.bmod (2 ^ k.bits)))) := by
  have hpush : ∀ o, Instruction.safely (Machine.push o) m = (.ok false, m.pushed o) := by
    intro o
    rw [Instruction.safely, Act.bind_apply, push_eq hm]
    rfl
  obtain ⟨hbyte, hshort, hint, hlong⟩ := toInt64_eq_bmod v
  cases k with
  | bipush => exact (hpush _).trans (by rw [hbyte]; rfl)
  | sipush => exact (hpush _).trans (by rw [hshort]; rfl)
  | iconst => exact (hpush _).trans (by rw [hint]; rfl)
  | ldcInt => exact (hpush _).trans (by rw [hint]; rfl)
  | lconst => exact (hpush _).trans (by rw [hlong]; rfl)
  | ldcLong => exact (hpush _).trans (by rw [hlong]; rfl)

theorem exec_line {k : Immediate} {s : String} (hs : Text.Blankless s) {r : Replay}
    (hr : r.machine.frames ≠ []) {v : Int} (hv : k.reading s = .ok v) :
    r.exec (k.line s) = (.ok false, r.pushed (k.operand (v.bmod (2 ^ k.bits)))) := by
  have hne : s ≠ "" := by
    rintro rfl
    cases k <;> cases hv
  have hread := read_line (k := k) hs hne r
  rw [hv] at hread
  unfold Replay.exec
  rw [hread]
  exact Replay.perform_stored (exec_instruction hr k v) rfl

theorem exec_line_error {k : Immediate} {s : String} (hs : Text.Blankless s) (r : Replay)
    (hv : ∀ v, k.reading s ≠ .ok v) : ∃ e, r.exec (k.line s) = (.error e, r) := by
  unfold Replay.exec
  by_cases hne : s = ""
  · subst hne
    have hread : ∃ e, r.read (k.line "") = .error e := by
      cases k <;> exact ⟨_, rfl⟩
    obtain ⟨e, he⟩ := hread
    rw [he]
    exact ⟨e, rfl⟩
  · cases hread : k.reading s with
    | ok v => exact absurd hread (hv v)
    | error e =>
      rw [read_line hs hne, hread]
      exact ⟨_, rfl⟩

/-! ## 5. What a line means -/

/-- The line pushes the integer that its text stands for, if the kind has bits enough for it, and
otherwise fails and changes nothing. -/
def Means (k : Immediate) (r : Replay) (s : String) : Prop :=
  (∀ v, Numeral.Denotes k.marked s.toList v → Numeral.Fits k.bits v →
    r.exec (k.line s) = (.ok false, r.pushed (k.operand v))) ∧
  ((∀ v, Numeral.Denotes k.marked s.toList v → ¬ Numeral.Fits k.bits v) →
    ∃ e, r.exec (k.line s) = (.error e, r))

/-- **Integers that are read in range mean what they say.**  A text without blank characters that
stands for an integer is accepted if it has the bits that it is read with; what is pushed are the
last bits of the integer, as many as the kind has.  Any other text is refused and changes nothing.
So a line means what it says unless its text stands for an integer that has the bits it is read
with and not those of its kind, and this cannot be if the two are the same. -/
theorem means_iff (k : Immediate) (r : Replay) (s : String) (hr : r.machine.frames ≠ [])
    (hs : Text.Blankless s) :
    (∀ v, Numeral.Denotes k.marked s.toList v → Numeral.Fits k.readBits v →
      r.exec (k.line s) = (.ok false, r.pushed (k.operand (v.bmod (2 ^ k.bits))))) ∧
    ((∀ v, Numeral.Denotes k.marked s.toList v → ¬ Numeral.Fits k.readBits v) →
      ∃ e, r.exec (k.line s) = (.error e, r)) ∧
    (k.Means r s ↔ ∀ v, Numeral.Denotes k.marked s.toList v → Numeral.Fits k.readBits v →
      Numeral.Fits k.bits v) ∧
    (k.readBits = k.bits ↔ k ∈ [lconst, ldcInt, ldcLong]) := by
  have hpushes : ∀ v, Numeral.Denotes k.marked s.toList v → Numeral.Fits k.readBits v →
      r.exec (k.line s) = (.ok false, r.pushed (k.operand (v.bmod (2 ^ k.bits)))) :=
    fun v hv hfits => exec_line hs hr (reading_iff.mpr ⟨hv, hfits⟩)
  have hrefuses : (∀ v, Numeral.Denotes k.marked s.toList v → ¬ Numeral.Fits k.readBits v) →
      ∃ e, r.exec (k.line s) = (.error e, r) := by
    intro hnone
    refine exec_line_error hs r fun v hv => ?_
    obtain ⟨hdenotes, hfits⟩ := reading_iff.mp hv
    exact hnone v hdenotes hfits
  refine ⟨hpushes, hrefuses, ⟨?_, ?_⟩, by cases k <;> decide⟩
  · rintro ⟨-, herror⟩ v hv hfits
    by_contra hout
    -- The text stands for no other integer, since it is read as this one.
    have hnone : ∀ v', Numeral.Denotes k.marked s.toList v' → ¬ Numeral.Fits k.bits v' := by
      intro v' hv' hfits'
      have hread := reading_iff.mpr ⟨hv', fits_readBits hfits'⟩
      rw [reading_iff.mpr ⟨hv, hfits⟩] at hread
      cases hread
      exact hout hfits'
    obtain ⟨e, he⟩ := herror hnone
    rw [hpushes v hv hfits] at he
    cases he
  · intro hall
    constructor
    · intro v hv hfits
      rw [hpushes v hv (fits_readBits hfits), bmod_eq_of_fits hfits]
    · intro hnone
      exact hrefuses fun v hv hfits => hnone v hv (hall v hv hfits)

/-- A method that has done nothing yet. -/
def idleReplay : Replay :=
  ⟨{ Machine.new none with frames := [⟨⟨"A", "f", "()V"⟩, [], ⟨[]⟩, false⟩] }, ⟨[], [], []⟩, 0⟩

/-- A byte out of range is cut down to another one. -/
theorem bipush300_wraps :
    idleReplay.machine.frames ≠ [] ∧ Text.Blankless "300" ∧
      idleReplay.exec "BIPUSH 300" = (.ok false, idleReplay.pushed (.bv32 (.const 44))) ∧
      ¬ bipush.Means idleReplay "300" := by
  have hframes : idleReplay.machine.frames ≠ [] := List.cons_ne_nil _ _
  have hword : Text.Blankless "300" := by decide
  obtain ⟨hdenotes, hfits⟩ := reading_iff.mp (show bipush.reading "300" = .ok 300 by decide)
  obtain ⟨hpushes, -, hmeans, -⟩ := means_iff bipush idleReplay "300" hframes hword
  refine ⟨hframes, hword, hpushes 300 hdenotes hfits, fun h => ?_⟩
  exact absurd (hmeans.mp h 300 hdenotes hfits) (by decide)

/-- An int out of range is pushed with the other sign. -/
theorem iconst_max_wraps :
    iconst.reading "4294967295" = .ok 4294967295 ∧ ¬ Numeral.Fits iconst.bits 4294967295 ∧
      ((idleReplay.exec "ICONST 4294967295").1 = .ok false ∧
        (idleReplay.exec "ICONST 4294967295").2.machine.operands = [.bv32 (.const (-1))]) := by
  decide

end Immediate

end Concolic
