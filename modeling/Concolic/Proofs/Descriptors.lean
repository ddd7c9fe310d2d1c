import Concolic.Machine.Descriptor

/-
# Descriptors are read completely

A method descriptor is read by three functions that look at parts of it: the first letter of a
type, the length of a type, and the place where the arguments end.  This file has the grammar of
descriptors beside them, and proves two facts.

* Every descriptor of the grammar is read, and gives the widths of its types.  The names of classes
  may hold anything but the semicolon that ends them, so a parenthesis or a bracket in a name must
  not be taken for a part of the grammar.
* Reading never looks outside the text.  The functions here walk along a list and cannot do so.
  `Positions` has the same functions with bytes and slices taken at positions, where every access
  may fail and every loop may go on forever.  They give the same answers (`Positions.method_eq`),
  hence no access fails and all loops end.

Both rest on one fact about the length of a type (`fieldLength_eq_ok_iff`): the lengths that are
found are those of `TypeText`, the texts that are taken for a type.
-/
namespace Concolic.Descriptor

/-! ## 1. The grammar -/

/-- The types of numbers and truth values. -/
inductive Primitive
  | byte
  | char
  | double
  | float
  | int
  | long
  | short
  | boolean
deriving DecidableEq, Repr

def Primitive.letter : Primitive → Char
  | byte => 'B'
  | char => 'C'
  | double => 'D'
  | float => 'F'
  | int => 'I'
  | long => 'J'
  | short => 'S'
  | boolean => 'Z'

def Primitive.width : Primitive → Width
  | byte | char | int | short | boolean => .bv32
  | long => .bv64
  | float => .fp32
  | double => .fp64

/-- The name of a class holds no semicolon. -/
@[ext]
structure ClassName where
  bytes : List UInt8
  free : byte ';' ∉ bytes
deriving DecidableEq, Repr

/-- The type of a field or of an argument. -/
inductive FieldType
  | primitive (p : Primitive)
  | object (name : ClassName)
  | array (element : FieldType)
deriving DecidableEq, Repr

def FieldType.bytes : FieldType → List UInt8
  | primitive p => [byte p.letter]
  | object name => byte 'L' :: (name.bytes ++ [byte ';'])
  | array element => byte '[' :: element.bytes

def FieldType.width : FieldType → Width
  | primitive p => p.width
  | object _ => .ref
  | array _ => .ref

/-- The types of the arguments of a method and of its result, if it has one. -/
structure MethodType where
  args : List FieldType
  result : Option FieldType
deriving DecidableEq, Repr

/-- The descriptor of a result. -/
def resultBytes : Option FieldType → List UInt8
  | some t => t.bytes
  | none => [byte 'V']

def MethodType.bytes (t : MethodType) : List UInt8 :=
  byte '(' :: (t.args.flatMap FieldType.bytes ++ byte ')' :: resultBytes t.result)

/-! ## 2. The length of a type -/

/-- A byte that is taken for a type by itself, as it begins neither a class nor an array. -/
abbrev Letter := { b : UInt8 // b ≠ byte '[' ∧ b ≠ byte 'L' }

/-- A text that is taken for a type. -/
inductive TypeText
  | letter (b : Letter)
  | object (name : ClassName)
  | array (element : TypeText)
deriving DecidableEq, Repr

namespace TypeText

def bytes : TypeText → List UInt8
  | letter b => [b.val]
  | object name => byte 'L' :: (name.bytes ++ [byte ';'])
  | array element => byte '[' :: element.bytes

theorem bytes_eq_cons (t : TypeText) : ∃ b bs, t.bytes = b :: bs := by
  cases t with
  | letter b => exact ⟨_, _, rfl⟩
  | object name => exact ⟨_, _, rfl⟩
  | array element => exact ⟨_, _, rfl⟩

end TypeText

def Primitive.toLetter (p : Primitive) : Letter :=
  ⟨Descriptor.byte p.letter, by cases p <;> decide⟩

/-- The text of a type. -/
def FieldType.text : FieldType → TypeText
  | primitive p => .letter p.toLetter
  | object name => .object name
  | array element => .array element.text

@[simp] theorem FieldType.bytes_text (t : FieldType) : t.text.bytes = t.bytes := by
  induction t with
  | primitive p => rfl
  | object name => rfl
  | array element ih => simp [text, bytes, TypeText.bytes, ih]

theorem fieldLength_array (s : List UInt8) (n : Nat) :
    fieldLength (byte '[' :: s) = .ok n ↔ ∃ k, fieldLength s = .ok k ∧ n = k + 1 := by
  simp only [fieldLength, List.takeWhile_cons, beq_self_eq_true, if_true, List.length_cons,
    List.drop_succ_cons]
  cases s.drop (s.takeWhile (· == byte '[')).length with
  | nil => simp
  | cons b rest =>
    by_cases hb : b = byte 'L'
    · cases hend : rest.findIdx? (· == byte ';') with
      | none => simp [hb, hend]
      | some k =>
        simp only [hb, hend, ne_eq, not_true_eq_false, if_false, Except.ok.injEq, exists_eq_left']
        omega
    · simp only [hb, ne_eq, not_false_eq_true, if_true, Except.ok.injEq, exists_eq_left']
      omega

theorem fieldLength_object (s : List UInt8) (n : Nat) :
    fieldLength (byte 'L' :: s) = .ok n ↔ ∃ k, s.findIdx? (· == byte ';') = some k ∧ n = k + 2 := by
  have hstop : (byte 'L' == byte '[') = false := by decide
  simp only [fieldLength, List.takeWhile_cons, hstop]
  cases hend : s.findIdx? (· == byte ';') with
  | none => simp [hend]
  | some k => simp [hend, eq_comm]

theorem fieldLength_letter (b : Letter) (s : List UInt8) : fieldLength (b.val :: s) = .ok 1 := by
  obtain ⟨b, hbracket, hclass⟩ := b
  simp [fieldLength, hbracket, hclass]

/-- The first semicolon ends the name of a class. -/
theorem findIdx?_semicolon_iff (s : List UInt8) (k : Nat) :
    s.findIdx? (· == byte ';') = some k ↔
      ∃ (name : ClassName) (rest : List UInt8), s = name.bytes ++ byte ';' :: rest ∧
        k = name.bytes.length := by
  constructor
  · intro h
    obtain ⟨hk, hsemi, hbefore⟩ := List.findIdx?_eq_some_iff_getElem.mp h
    have hsplit : s = s.take k ++ byte ';' :: s.drop (k + 1) := by
      rw [← eq_of_beq hsemi, List.getElem_cons_drop, List.take_append_drop]
    refine ⟨⟨s.take k, ?_⟩, s.drop (k + 1), hsplit, ?_⟩
    · intro hmem
      obtain ⟨j, hj, hget⟩ := List.getElem_of_mem hmem
      rw [List.getElem_take] at hget
      rw [List.length_take] at hj
      exact hbefore j (by omega) (by simp [hget])
    · simp [Nat.le_of_lt hk]
  · rintro ⟨name, rest, rfl, rfl⟩
    rw [List.findIdx?_append, List.findIdx?_eq_none_iff.mpr]
    · simp [List.findIdx?_cons]
    · intro b hb
      rw [beq_eq_false_iff_ne]
      rintro rfl
      exact name.free hb

/-- **The length of a type is found exactly if the text begins with one.** -/
theorem fieldLength_eq_ok_iff (s : List UInt8) (n : Nat) :
    fieldLength s = .ok n ↔
      ∃ (t : TypeText) (rest : List UInt8), s = t.bytes ++ rest ∧ n = t.bytes.length := by
  constructor
  · intro h
    induction s generalizing n with
    | nil => cases h
    | cons b s ih =>
      by_cases hbracket : b = byte '['
      · subst hbracket
        obtain ⟨k, hk, rfl⟩ := (fieldLength_array s n).mp h
        obtain ⟨t, rest, rfl, rfl⟩ := ih k hk
        exact ⟨.array t, rest, rfl, rfl⟩
      by_cases hclass : b = byte 'L'
      · subst hclass
        obtain ⟨k, hk, rfl⟩ := (fieldLength_object s n).mp h
        obtain ⟨name, rest, rfl, rfl⟩ := (findIdx?_semicolon_iff s k).mp hk
        exact ⟨.object name, rest, by simp [TypeText.bytes], by simp [TypeText.bytes]⟩
      · rw [fieldLength_letter ⟨b, hbracket, hclass⟩ s] at h
        cases h
        exact ⟨.letter ⟨b, hbracket, hclass⟩, s, rfl, rfl⟩
  · rintro ⟨t, rest, rfl, rfl⟩
    induction t with
    | letter b => exact fieldLength_letter b rest
    | object name =>
      refine (fieldLength_object _ _).mpr ⟨name.bytes.length, ?_, by simp [TypeText.bytes]⟩
      exact (findIdx?_semicolon_iff _ _).mpr ⟨name, rest, by simp, rfl⟩
    | array element ih => exact (fieldLength_array _ _).mpr ⟨_, ih, rfl⟩

theorem fieldLength_bounds {s : List UInt8} {n : Nat} (h : fieldLength s = .ok n) :
    0 < n ∧ n ≤ s.length := by
  obtain ⟨t, rest, rfl, rfl⟩ := (fieldLength_eq_ok_iff s n).mp h
  obtain ⟨b, bs, ht⟩ := t.bytes_eq_cons
  simp [ht]

/-! ## 3. Descriptors of the grammar -/

theorem width_bytes (t : FieldType) : width t.bytes = .ok (some t.width) := by
  cases t with
  | primitive p => cases p <;> rfl
  | object name => rfl
  | array element => rfl

theorem width_resultBytes (r : Option FieldType) :
    width (resultBytes r) = .ok (r.map FieldType.width) := by
  cases r with
  | none => rfl
  | some t => exact width_bytes t

/-- What belongs to the argument before is skipped. -/
theorem arguments_eq_drop (whole : List UInt8) (k : Nat) (s : List UInt8) :
    arguments whole k s = arguments whole 0 (s.drop k) := by
  induction s generalizing k with
  | nil => cases k <;> rfl
  | cons b s ih =>
    cases k with
    | zero => rfl
    | succ k => exact ih k

/-- **One argument is read and the others follow.**  No width is found for the parenthesis, so it
is not taken for an argument. -/
theorem arguments_text (whole : List UInt8) (t : TypeText) {w : Option Width}
    (hw : width t.bytes = .ok w) (rest : List UInt8) :
    arguments whole 0 (t.bytes ++ rest) = do
      let (ws, result) ← arguments whole 0 rest
      return (w :: ws, result) := by
  have hlength := (fieldLength_eq_ok_iff _ _).mpr ⟨t, rest, rfl, rfl⟩
  obtain ⟨b, bs, ht⟩ := t.bytes_eq_cons
  rw [ht] at hw hlength ⊢
  have hne : b ≠ byte ')' := by
    rintro rfl
    cases hw
  rw [List.cons_append] at hlength ⊢
  rw [arguments, if_neg hne, hlength]
  simp only [bind, Except.bind, List.length_cons, List.take_succ_cons, List.take_left',
    Nat.add_sub_cancel, hw]
  rw [arguments_eq_drop, List.drop_left]

theorem arguments_types (whole : List UInt8) (ts : List FieldType) (rest : List UInt8) :
    arguments whole 0 (ts.flatMap FieldType.bytes ++ byte ')' :: rest) =
      .ok (ts.map fun t => some t.width, rest) := by
  induction ts with
  | nil => rfl
  | cons t ts ih =>
    rw [List.flatMap_cons, List.append_assoc, ← t.bytes_text,
      arguments_text whole t.text (by simpa using width_bytes t), ih]
    rfl

/-- Behind the opening parenthesis the arguments are read, and then the width of the result. -/
theorem method_cons {rest : List UInt8} (h : 1 < rest.length) :
    method (byte '(' :: rest) = do
      let (args, result) ← arguments (byte '(' :: rest) 0 rest
      return (args, ← width result) := by
  have hread : ¬ ((byte '(' :: rest).length ≤ 2 ∨
      (byte '(' :: rest).head? ≠ some (byte '(')) := by
    rintro (hshort | hhead)
    · rw [List.length_cons] at hshort
      omega
    · exact hhead rfl
  rw [method, if_neg hread]
  rfl

/-- **A method descriptor gives the widths of its types.** -/
theorem method_bytes (t : MethodType) :
    method t.bytes = .ok (t.args.map fun a => some a.width, t.result.map FieldType.width) := by
  have hresult : 0 < (resultBytes t.result).length := by
    cases t.result with
    | none => decide
    | some r =>
      obtain ⟨b, bs, hr⟩ := r.text.bytes_eq_cons
      simp [resultBytes, ← r.bytes_text, hr]
  have hlong : 1 < (t.args.flatMap FieldType.bytes ++ byte ')' :: resultBytes t.result).length := by
    rw [List.length_append, List.length_cons]
    omega
  rw [MethodType.bytes, method_cons hlong, arguments_types]
  simp only [bind, Except.bind, width_resultBytes]
  rfl

/-! ## 4. Reading by positions -/

namespace Positions

/-- Why reading by positions ends without an answer. -/
inductive Stop
  | violation (v : Violation)
  /-- A position outside the text. -/
  | outOfRange
  /-- A loop that has made more rounds than the text has bytes. -/
  | endless
deriving DecidableEq, Repr

/-- The answer of a function that takes no positions. -/
def checked (r : Except Violation α) : Except Stop α := r.mapError .violation

def ensure (b : Bool) (v : Violation) : Except Stop Unit :=
  if b then .ok () else .error (.violation v)

/-- The byte at position `i`. -/
def byteAt (s : List UInt8) (i : Nat) : Except Stop UInt8 :=
  match s[i]? with
  | some b => .ok b
  | none => .error .outOfRange

/-- The text from position `i` up to position `j`. -/
def slice (s : List UInt8) (i j : Nat) : Except Stop (List UInt8) :=
  if i ≤ j ∧ j ≤ s.length then .ok ((s.take j).drop i) else .error .outOfRange

/-- The first position from `i` on at which `p` holds, or else the end. -/
def scan (p : UInt8 → Bool) (s : List UInt8) : Nat → Nat → Except Stop Nat
  | 0, _ => .error .endless
  | rounds + 1, i =>
    if i < s.length then do
      if p (← byteAt s i) then return i else scan p s rounds (i + 1)
    else return i

/-- The width for the letter at position 0. -/
def width (s : List UInt8) : Except Stop (Option Width) := do
  ensure (!s.isEmpty) .emptyDescriptor
  let b ← byteAt s 0
  checked (Descriptor.width (b :: s.drop 1))

def fieldLength (s : List UInt8) : Except Stop Nat := do
  let n ← scan (· != byte '[') s (s.length + 1) 0
  ensure (n < s.length) (.unfinishedType s)
  if (← byteAt s n) ≠ byte 'L' then return n + 1
  let i ← scan (· == byte ';') s (s.length + 1) n
  ensure (i < s.length) (.unfinishedClass s)
  return i + 1

/-- The widths of the arguments from position `i` on, and what follows the parenthesis. -/
def arguments (s : List UInt8) :
    Nat → Nat → Except Stop (List (Option Width) × List UInt8)
  | 0, _ => .error .endless
  | rounds + 1, i => do
    if (← byteAt s i) = byte ')' then return ([], ← slice s (i + 1) s.length)
    let n ← fieldLength (← slice s i s.length)
    let w ← width (← slice s i (i + n))
    ensure (i + n < s.length) (.methodDescriptor s)
    let (ws, result) ← arguments s rounds (i + n)
    return (w :: ws, result)

def method (s : List UInt8) : Except Stop (List (Option Width) × Option Width) := do
  ensure (2 < s.length) (.methodDescriptor s)
  ensure ((← byteAt s 0) = byte '(') (.methodDescriptor s)
  let (args, result) ← arguments s s.length 1
  return (args, ← width result)

@[simp] theorem ok_bind (x : α) (f : α → Except Stop β) : (Except.ok x >>= f) = f x := rfl

@[simp] theorem checked_ok (x : α) : checked (.ok x) = .ok x := rfl

theorem ensure_pos {p : Prop} [Decidable p] (h : p) (v : Violation) : ensure p v = .ok () := by
  simp [ensure, h]

theorem ensure_neg {p : Prop} [Decidable p] (h : ¬ p) (v : Violation) :
    ensure p v = .error (.violation v) := by
  simp [ensure, h]

theorem byteAt_eq {s rest : List UInt8} {b : UInt8} {i : Nat} (h : s.drop i = b :: rest) :
    byteAt s i = .ok b := by
  rw [byteAt, ← List.head?_drop, h]
  rfl

theorem slice_end {s : List UInt8} {i : Nat} (h : i ≤ s.length) :
    slice s i s.length = .ok (s.drop i) := by
  simp [slice, h]

theorem slice_add {s : List UInt8} {i n : Nat} (h : i + n ≤ s.length) :
    slice s i (i + n) = .ok ((s.drop i).take n) := by
  rw [slice, if_pos ⟨Nat.le_add_right i n, h⟩, List.drop_take, Nat.add_sub_cancel_left]

/-- **A scan stays in the text and ends.** -/
theorem scan_eq (p : UInt8 → Bool) (s : List UInt8) {rounds i : Nat} (hi : i ≤ s.length)
    (hrounds : s.length < i + rounds) :
    scan p s rounds i = .ok (i + (s.drop i).findIdx p) := by
  induction rounds generalizing i with
  | zero => omega
  | succ rounds ih =>
    rw [scan]
    by_cases hlt : i < s.length
    · have hdrop := List.drop_eq_getElem_cons hlt
      rw [if_pos hlt, byteAt_eq hdrop, hdrop, List.findIdx_cons]
      cases hp : p s[i] with
      | true => simp [hp, pure, Except.pure]
      | false =>
        have hrest := ih (i := i + 1) hlt (by omega)
        simp only [ok_bind, hp, cond_false, Bool.false_eq_true, if_false, hrest]
        rw [Nat.add_assoc, Nat.add_comm 1]
    · obtain rfl : i = s.length := by omega
      simp [pure, Except.pure]

theorem width_eq (s : List UInt8) : width s = checked (Descriptor.width s) := by
  cases s with
  | nil => rfl
  | cons b s => rfl

theorem fieldLength_eq (s : List UInt8) : fieldLength s = checked (Descriptor.fieldLength s) := by
  have hbrackets : (s.takeWhile (· == byte '[')).length = s.findIdx (· != byte '[') := by
    rw [List.takeWhile_eq_take_findIdx_not, List.length_take]
    exact Nat.min_eq_left List.findIdx_le_length
  have hscan : scan (· != byte '[') s (s.length + 1) 0 =
      .ok (s.takeWhile (· == byte '[')).length := by
    rw [scan_eq _ s (Nat.zero_le _) (by omega), hbrackets, List.drop_zero, Nat.zero_add]
  rw [fieldLength, hscan, Descriptor.fieldLength]
  generalize (s.takeWhile (· == byte '[')).length = n
  cases hrest : s.drop n with
  | nil =>
    have hend : ¬ n < s.length := Nat.not_lt.mpr (List.drop_eq_nil_iff.mp hrest)
    rw [ok_bind, ensure_neg hend]
    rfl
  | cons b rest =>
    have hlength : s.length = n + rest.length + 1 := by
      have := congrArg List.length hrest
      rw [List.length_drop, List.length_cons] at this
      omega
    have hn : n < s.length := by omega
    rw [ok_bind, ensure_pos hn, ok_bind, byteAt_eq hrest, ok_bind]
    by_cases hclass : b = byte 'L'
    · subst hclass
      -- the name begins behind its mark, which is no semicolon
      have hsemi : scan (· == byte ';') s (s.length + 1) n =
          .ok (n + 1 + rest.findIdx (· == byte ';')) := by
        rw [scan_eq _ s (Nat.le_of_lt hn) (by omega), hrest, List.findIdx_cons,
          (by decide : (byte 'L' == byte ';') = false), cond_false, Nat.add_assoc,
          Nat.add_comm 1]
      simp only [ne_eq, not_true_eq_false, if_false, hsemi, ok_bind]
      cases hidx : rest.findIdx? (· == byte ';') with
      | none =>
        rw [List.findIdx?_eq_none_iff_findIdx_eq] at hidx
        rw [hidx, ensure_neg (by omega)]
        rfl
      | some k =>
        obtain ⟨hk, hidx⟩ := List.findIdx?_eq_some_iff_findIdx_eq.mp hidx
        rw [hidx, ensure_pos (by omega), ok_bind, checked_ok]
        exact congrArg Except.ok (by omega)
    · simp only [ne_eq, hclass, not_false_eq_true, if_true]
      rfl

/-- **Reading the arguments stays in the text and ends**, since every type has a length that is
positive and not beyond the end. -/
theorem arguments_eq (s : List UInt8) {rounds i : Nat} (hi : i < s.length)
    (hrounds : s.length ≤ i + rounds) :
    arguments s rounds i = checked (Descriptor.arguments s 0 (s.drop i)) := by
  induction rounds generalizing i with
  | zero => omega
  | succ rounds ih =>
    have hdrop := List.drop_eq_getElem_cons hi
    generalize s[i] = b at hdrop
    rw [arguments, byteAt_eq hdrop, ok_bind, hdrop, Descriptor.arguments]
    by_cases hclose : b = byte ')'
    · rw [if_pos hclose, if_pos hclose, slice_end hi]
      rfl
    rw [if_neg hclose, if_neg hclose, slice_end (Nat.le_of_lt hi), ok_bind, hdrop, fieldLength_eq]
    cases hlength : Descriptor.fieldLength (b :: s.drop (i + 1)) with
    | error v => rfl
    | ok n =>
      obtain ⟨hpos, hle⟩ : 0 < n ∧ i + n ≤ s.length := by
        have hbounds := fieldLength_bounds hlength
        rw [← hdrop, List.length_drop] at hbounds
        omega
      have hnext : Descriptor.arguments s (n - 1) (s.drop (i + 1)) =
          Descriptor.arguments s 0 (s.drop (i + n)) := by
        rw [arguments_eq_drop, List.drop_drop]
        congr 2
        omega
      rw [checked_ok, ok_bind, slice_add hle, ok_bind, hdrop, width_eq]
      simp only [bind, Except.bind, hnext]
      cases Descriptor.width ((b :: s.drop (i + 1)).take n) with
      | error v => rfl
      | ok w =>
        by_cases hmore : i + n < s.length
        · simp only [checked_ok, ensure_pos hmore, ih hmore (by omega)]
          cases Descriptor.arguments s 0 (s.drop (i + n)) with
          | error v => rfl
          | ok r => rfl
        · rw [List.drop_eq_nil_of_le (by omega)]
          simp only [checked_ok, ensure_neg hmore]
          rfl

/-- **Reading by positions gives the same answers.** -/
theorem method_eq (s : List UInt8) : method s = checked (Descriptor.method s) := by
  rw [method]
  by_cases hlong : 2 < s.length
  · obtain ⟨b, rest, rfl⟩ := List.exists_cons_of_length_pos (Nat.lt_trans (by decide) hlong)
    rw [ensure_pos hlong, ok_bind, byteAt_eq List.drop_zero, ok_bind]
    by_cases hopen : b = byte '('
    · subst hopen
      rw [ensure_pos rfl, ok_bind, arguments_eq _ (by omega) (by omega),
        method_cons (Nat.lt_of_succ_lt_succ hlong)]
      simp only [bind, Except.bind, List.drop_succ_cons, List.drop_zero]
      cases Descriptor.arguments (byte '(' :: rest) 0 rest with
      | error v => rfl
      | ok r =>
        simp only [checked_ok, width_eq]
        cases Descriptor.width r.2 with
        | error v => rfl
        | ok w => rfl
    · have hhead : (b :: rest).head? ≠ some (byte '(') := by simpa using hopen
      rw [ensure_neg hopen, Descriptor.method, if_pos (Or.inr hhead)]
      rfl
  · rw [ensure_neg hlong, Descriptor.method, if_pos (Or.inl (Nat.not_lt.mp hlong))]
    rfl

end Positions

/-! ## 5. Refusals -/

/-- The violations that are about a descriptor. -/
def Refuses : Violation → Prop
  | .emptyDescriptor | .unfinishedType _ | .unknownType _ | .unfinishedClass _
  | .methodDescriptor _ => True
  | _ => False

theorem Refuses.message {v : Violation} (h : Refuses v) :
    ∃ text, v.message = "assert: " ++ text ∨ v.message = "vm: " ++ text := by
  cases v with
  | emptyDescriptor => exact ⟨"empty type descriptor", Or.inl rfl⟩
  | unfinishedType d =>
    refine ⟨"invalid type descriptor: " ++ Text.quoteBytes d, Or.inl ?_⟩
    rw [← String.append_assoc]
    rfl
  | methodDescriptor d =>
    refine ⟨"invalid method descriptor: " ++ Text.quoteBytes d, Or.inl ?_⟩
    rw [← String.append_assoc]
    rfl
  | unknownType d =>
    refine ⟨"invalid type descriptor: " ++ Text.quoteBytes d, Or.inr ?_⟩
    rw [← String.append_assoc]
    rfl
  | unfinishedClass d =>
    refine ⟨"unterminated class descriptor: " ++ Text.quoteBytes d, Or.inr ?_⟩
    rw [← String.append_assoc]
    rfl
  | _ => cases h

/-- What fails, fails because of a descriptor. -/
def Refusing (x : Except Violation α) : Prop := ∀ v, x = .error v → Refuses v

theorem refusing_ok (a : α) : Refusing (.ok a) := by
  intro v h
  cases h

theorem refusing_error {v : Violation} (h : Refuses v) :
    Refusing (.error v : Except Violation α) := by
  intro v' h'
  cases h'
  exact h

theorem Refusing.bind {x : Except Violation α} {f : α → Except Violation β} (hx : Refusing x)
    (hf : ∀ a, Refusing (f a)) : Refusing (x >>= f) := by
  intro v h
  cases x with
  | error e =>
    cases h
    exact hx _ rfl
  | ok a => exact hf a v h

theorem width_refusing (s : List UInt8) : Refusing (width s) := by
  fun_cases width s with
  | case1 => exact refusing_error trivial
  | case8 => exact refusing_error trivial
  | _ => exact refusing_ok _

theorem fieldLength_refusing (s : List UInt8) : Refusing (fieldLength s) := by
  unfold fieldLength
  dsimp only
  split
  · exact refusing_error trivial
  split
  · exact refusing_ok _
  split
  · exact refusing_ok _
  · exact refusing_error trivial

theorem arguments_refusing (whole : List UInt8) (k : Nat) (s : List UInt8) :
    Refusing (arguments whole k s) := by
  induction s generalizing k with
  | nil => exact refusing_error trivial
  | cons b s ih =>
    cases k with
    | succ k => exact ih k
    | zero =>
      rw [arguments]
      split
      · exact refusing_ok _
      · refine (fieldLength_refusing _).bind ?_
        intro n
        refine (width_refusing _).bind ?_
        intro w
        refine (ih (n - 1)).bind ?_
        intro r
        exact refusing_ok _

theorem method_refusing (s : List UInt8) : Refusing (method s) := by
  rw [method]
  split
  · exact refusing_error trivial
  · refine (arguments_refusing _ _ _).bind ?_
    intro r
    refine (width_refusing _).bind ?_
    intro w
    exact refusing_ok _

/-- **Reading descriptors.**  Every method descriptor is read and gives the widths of its types.
Any text at all, read by positions, is either answered or refused as it is without positions, and
the refusal has a message of its own: no position is out of range, and no loop goes on forever. -/
theorem method_reads :
    (∀ t : MethodType, method t.bytes =
      .ok (t.args.map fun a => some a.width, t.result.map FieldType.width)) ∧
    ∀ s : List UInt8,
      (∃ r, Positions.method s = .ok r ∧ method s = .ok r) ∨
      ∃ v text, Positions.method s = .error (.violation v) ∧ method s = .error v ∧
        (v.message = "assert: " ++ text ∨ v.message = "vm: " ++ text) := by
  refine ⟨method_bytes, ?_⟩
  intro s
  rw [Positions.method_eq]
  cases h : method s with
  | ok r => exact Or.inl ⟨r, rfl, rfl⟩
  | error v =>
    obtain ⟨text, htext⟩ := (method_refusing s v h).message
    exact Or.inr ⟨v, text, rfl, rfl, htext⟩

end Concolic.Descriptor
