import Concolic.Proofs.Descriptors
import Concolic.Proofs.FaultTests
import Concolic.Proofs.Hierarchy

/-
# The types of new arrays

One function makes the type of a new array from the text for its components.  The text is the letter
of a primitive type, the descriptor of an array, or the name of a class, and only the name must be
put between `L` and `;`.  Which of the three it is, the function tells from the text alone: a text
of one byte is taken for a letter, and one that begins with a bracket for a descriptor.

The bracket is a sure sign, since no class name begins with it.  The length is not: a class may have
a name of one byte.  Arrays of such a class get the bracket alone before the name, and this is the
only case in which the type is wrong (`newArray_type_iff`).  The wrong type is mostly taken for a
whole descriptor all the same, of an array of a primitive type or of a letter without a meaning; for
the class `L` it is not even that.
-/
namespace Concolic

/-! ## 1. Bytes of texts -/

namespace Text

theorem utf8EncodeChar_large {c : Char} (hc : 128 ≤ c.toNat) :
    ∀ b ∈ String.utf8EncodeChar c, 128 ≤ b.toNat := by
  have hval : c.val.toNat = c.toNat := rfl
  unfold String.utf8EncodeChar
  dsimp only
  rw [hval, if_neg (by omega)]
  split
  · simp only [List.forall_mem_cons, UInt8.toNat_ofNat']
    refine ⟨by omega, by omega, by simp⟩
  split
  · simp only [List.forall_mem_cons, UInt8.toNat_ofNat']
    refine ⟨by omega, by omega, by omega, by simp⟩
  · simp only [List.forall_mem_cons, UInt8.toNat_ofNat']
    refine ⟨by omega, by omega, by omega, by omega, by simp⟩

theorem utf8EncodeChar_small {c : Char} (hc : c.toNat < 128) :
    String.utf8EncodeChar c = [Descriptor.byte c] := by
  have hval : c.val.toNat = c.toNat := rfl
  unfold String.utf8EncodeChar
  dsimp only
  rw [hval, if_pos (by omega)]
  rfl

theorem byte_inj {c d : Char} (hc : c.toNat < 128) (hd : d.toNat < 128)
    (h : Descriptor.byte c = Descriptor.byte d) : c = d := by
  have hnat := congrArg UInt8.toNat h
  simp only [Descriptor.byte, Nat.toUInt8, UInt8.toNat_ofNat'] at hnat
  exact Char.toNat_inj.mp (by omega)

/-- The byte of an ASCII character stands for that character only. -/
theorem byte_mem_utf8EncodeChar {c d : Char} (hd : d.toNat < 128) :
    Descriptor.byte d ∈ String.utf8EncodeChar c ↔ c = d := by
  by_cases hc : c.toNat < 128
  · rw [utf8EncodeChar_small hc, List.mem_singleton]
    exact ⟨fun h => byte_inj hc hd h.symm, fun h => h ▸ rfl⟩
  · constructor
    · intro h
      have hlarge := utf8EncodeChar_large (by omega) _ h
      simp only [Descriptor.byte, Nat.toUInt8, UInt8.toNat_ofNat'] at hlarge
      omega
    · rintro rfl
      exact absurd hd hc

theorem byte_mem_bytes {s : String} {d : Char} (hd : d.toNat < 128) :
    Descriptor.byte d ∈ bytes s ↔ d ∈ s.toList := by
  simp only [bytes, List.mem_flatMap, byte_mem_utf8EncodeChar hd, exists_eq_right]

@[simp] theorem bytes_append (s t : String) : bytes (s ++ t) = bytes s ++ bytes t := by
  simp [bytes]

/-- The first byte of a text is that of an ASCII character if the text begins with it. -/
theorem head?_bytes {s : String} {d : Char} (hd : d.toNat < 128) :
    (bytes s).head? = some (Descriptor.byte d) ↔ s.toList.head? = some d := by
  cases hs : s.toList with
  | nil => simp [bytes, hs]
  | cons c cs =>
    obtain ⟨b, bs, hb⟩ := List.exists_cons_of_ne_nil (String.utf8EncodeChar_ne_nil (c := c))
    have hhead : (bytes s).head? = some b := by simp [bytes, hs, hb]
    rw [hhead, List.head?_cons, Option.some_inj, Option.some_inj]
    constructor
    · rintro rfl
      exact (byte_mem_utf8EncodeChar hd).mp (hb ▸ List.mem_cons_self)
    · rintro rfl
      rw [utf8EncodeChar_small hd] at hb
      exact (List.cons.inj hb).1.symm

/-- A text of one byte is one character. -/
theorem bytes_eq_singleton {s : String} {d : Char} (hd : d.toNat < 128) :
    bytes s = [Descriptor.byte d] ↔ s = String.singleton d := by
  constructor
  · intro h
    have hhead : s.toList.head? = some d := (head?_bytes hd).mp (by rw [h]; rfl)
    obtain ⟨cs, hcs⟩ := List.head?_eq_some_iff.mp hhead
    have hrest : cs.flatMap String.utf8EncodeChar = [] := by
      rw [bytes, hcs, List.flatMap_cons, utf8EncodeChar_small hd] at h
      exact (List.cons.inj h).2
    have hnil : cs = [] := by
      refine List.eq_nil_iff_forall_not_mem.mpr fun c hc => ?_
      exact String.utf8EncodeChar_ne_nil (List.flatMap_eq_nil_iff.mp hrest c hc)
    rw [← String.toList_inj, hcs, hnil, String.toList_singleton]
  · rintro rfl
    rw [bytes, String.toList_singleton, List.flatMap_singleton, utf8EncodeChar_small hd]

end Text

/-! ## 2. The type of arrays of a component -/

namespace Descriptor

/-- The text is a single type, from its first byte to its last. -/
def IsWhole (type : String) : Prop :=
  fieldLength (Text.bytes type) = .ok (Text.bytes type).length

theorem isWhole_of_bytes {type : String} {t : TypeText} (h : Text.bytes type = t.bytes) :
    IsWhole type :=
  (fieldLength_eq_ok_iff _ _).mpr ⟨t, [], by rw [h, List.append_nil], by rw [h]⟩

/-- A class name has a first byte, which is no bracket. -/
theorem bytes_className {name : String} (h : IsClassName name) :
    ∃ b bs, Text.bytes name = b :: bs ∧ b ≠ byte '[' := by
  obtain ⟨hne, harray⟩ := h
  cases hbytes : Text.bytes name with
  | nil =>
    have hnil : name.toList = [] := by
      refine List.eq_nil_iff_forall_not_mem.mpr fun c hc => ?_
      exact String.utf8EncodeChar_ne_nil (List.flatMap_eq_nil_iff.mp hbytes c hc)
    exact absurd (String.toList_eq_nil_iff.mp hnil) hne
  | cons b bs =>
    refine ⟨b, bs, rfl, ?_⟩
    rintro rfl
    have hhead := (Text.head?_bytes (d := '[') (by decide)).mp (by rw [hbytes]; rfl)
    rw [Machine.isArrayClass, hhead] at harray
    cases harray

theorem arrayType_long {name : String} (h : IsClassName name)
    (hlong : (Text.bytes name).length ≠ 1) :
    arrayType name = .ok ("[L" ++ name ++ ";") := by
  obtain ⟨b, bs, hbytes, hb⟩ := bytes_className h
  have hbs : bs.isEmpty = false := by
    cases bs with
    | nil => exact absurd (by rw [hbytes]; rfl) hlong
    | cons => rfl
  have hkeep : (bs.isEmpty || b == byte '[') = false := by
    rw [hbs, Bool.false_or, beq_eq_false_iff_ne]
    exact hb
  rw [arrayType, hbytes]
  dsimp only
  rw [hkeep]
  rfl

theorem arrayType_short {name : String} (hshort : (Text.bytes name).length = 1) :
    arrayType name = .ok ("[" ++ name) := by
  obtain ⟨b, hbytes⟩ := List.length_eq_one_iff.mp hshort
  rw [arrayType, hbytes]
  rfl

theorem arrayType_array {name : String} {t : FieldType}
    (h : Text.bytes name = (FieldType.array t).bytes) :
    arrayType name = .ok ("[" ++ name) := by
  rw [arrayType, h, FieldType.bytes]
  dsimp only
  rw [beq_self_eq_true, Bool.or_true]
  rfl

/-- A class name between its marks is a single type. -/
theorem isWhole_wrapped {name : String} (hsemi : ';' ∉ name.toList) :
    IsWhole ("[L" ++ name ++ ";") := by
  have hfree : byte ';' ∉ Text.bytes name := by
    rwa [Text.byte_mem_bytes (by decide)]
  refine isWhole_of_bytes (t := .array (.object ⟨Text.bytes name, hfree⟩)) ?_
  rw [Text.bytes_append, Text.bytes_append, TypeText.bytes, TypeText.bytes]
  rfl

theorem isWhole_array {name : String} {t : FieldType}
    (h : Text.bytes name = (FieldType.array t).bytes) : IsWhole ("[" ++ name) := by
  refine isWhole_of_bytes (t := .array (FieldType.array t).text) ?_
  rw [Text.bytes_append, TypeText.bytes, FieldType.bytes_text, h]
  rfl

/-- A bracket before one byte is a single type unless the byte is the mark of a class, which lacks
the name behind it. -/
theorem isWhole_short_iff {name : String} (h : IsClassName name)
    (hshort : (Text.bytes name).length = 1) : IsWhole ("[" ++ name) ↔ name ≠ "L" := by
  obtain ⟨b, bs, hbytes, hb⟩ := bytes_className h
  have hbs : bs = [] := by
    rw [hbytes, List.length_cons] at hshort
    exact List.eq_nil_of_length_eq_zero (by omega)
  subst hbs
  have htype : Text.bytes ("[" ++ name) = [byte '[', b] := by
    rw [Text.bytes_append, hbytes]
    rfl
  constructor
  · rintro hwhole rfl
    rw [IsWhole] at hwhole
    cases hwhole
  · intro hne
    have hclass : b ≠ byte 'L' := by
      rintro rfl
      exact hne ((Text.bytes_eq_singleton (by decide)).mp hbytes)
    exact isWhole_of_bytes (t := .array (.letter ⟨b, hb, hclass⟩)) htype

end Descriptor

/-! ## 3. New arrays -/

namespace Machine

/-- A new array whose length is not negative is pushed, with the type that is made for it. -/
theorem newArray_tells {m : Machine} {n : Int32} {component type : String} {e : IntExpr}
    {s : Stack} (htype : Descriptor.arrayType component = .ok type)
    (hs : m.operands = .bv32 e :: s) (hn : 0 ≤ n) :
    ∃ (c : Core) (reps : List Report),
      Tells m.core (newArray n component) (.ok false) c reps ∧
      c.operands = .ref (.object ⟨m.heap.nextId, type⟩) :: s := by
  have hsign : decide (n < 0) = false := by
    rw [decide_eq_false_iff_not]
    exact Int32.not_lt.mpr hn
  obtain ⟨μ, hc⟩ := Machine.exists_at hs
  obtain ⟨c₁, hpop, hc₁⟩ := hc.popInt
  have hhead : [e].getD 0 (.const 0) = e := rfl
  obtain ⟨reps, hlength, -⟩ := negativeLength_asks hc₁ hhead n
  rw [hsign] at hlength
  obtain ⟨c₂, hnew, hc₂⟩ := hc₁.onHeap (a := Heap.newArray type e) rfl
  obtain ⟨c₃, hpush, hc₃⟩ := hc₂.onStack
    (a := Stack.push (.ref (.object ⟨m.heap.nextId, type⟩))) rfl
  refine ⟨c₃, reps ++ [], ?_, hc₃.operands_eq⟩
  rw [newArray, htype]
  refine hpop.silent_bind (hlength.bind ?_)
  exact hnew.silent_bind (hpush.silent_bind (Tells.pure false))

end Machine

/-- The instruction puts a reference to `r` on top of the operands `s`. -/
def Instruction.Pushes (i : Instruction) (m : Machine) (s : Stack) (r : Ref) : Prop :=
  (i.exec m).1 = .ok false ∧ (i.exec m).2.operands = .ref (.object r) :: s

theorem Instruction.pushes_newArray {m : Machine} {n : Int32} {component type : String}
    {e : IntExpr} {s : Stack} (htype : Descriptor.arrayType component = .ok type)
    (hs : m.operands = .bv32 e :: s) (hn : 0 ≤ n) :
    (Instruction.newArray n component).Pushes m s ⟨m.heap.nextId, type⟩ := by
  obtain ⟨c, reps, htells, hoperands⟩ := Machine.newArray_tells htype hs hn
  obtain ⟨log, hrun⟩ := htells m.collector m.log
  have hexec : (Instruction.newArray n component).exec m =
      (.ok false, c.machine (m.collector.feedAll reps) log) := hrun
  rw [Pushes, hexec]
  exact ⟨rfl, hoperands⟩

theorem Ref.isArray_bracket (id : Nat) (s : String) : (Ref.mk id ("[" ++ s)).isArray = true := by
  simp [isArray]

theorem Ref.isArray_wrapped (id : Nat) (s : String) :
    (Ref.mk id ("[L" ++ s ++ ";")).isArray = true := by
  simp [isArray]

theorem wrapped_ne_bracket (name : String) : "[L" ++ name ++ ";" ≠ "[" ++ name := by
  intro h
  have hlength := congrArg String.length h
  rw [String.length_append, String.length_append, String.length_append] at hlength
  have hopen : "[L".length = 2 := rfl
  have hclose : ";".length = 1 := rfl
  have hbracket : "[".length = 1 := rfl
  omega

/-- **The types of new arrays.**  Let a length be on top of the operands that the host does not see
to be negative.  For every component, a reference to an array is pushed in its place.  If the
component is a class, the type of the array is the descriptor made from the name, a single type, if
and only if the name does not have just one byte; else it is the name behind a bracket, which is a
single type for all classes but `L`.  If the component is an array, the type is its descriptor
behind a bracket, and this is a single type. -/
theorem newArray_type_iff (m : Machine) (n : Int32) (name : String) {e : IntExpr} {s : Stack}
    (hs : m.operands = .bv32 e :: s) (hn : 0 ≤ n) :
    (IsClassName name → ';' ∉ name.toList →
      ∃ r, (Instruction.newArray n name).Pushes m s r ∧ r.isArray = true ∧
        (r.type = "[L" ++ name ++ ";" ∧ Descriptor.IsWhole r.type ↔
          (Text.bytes name).length ≠ 1) ∧
        ((Text.bytes name).length = 1 →
          r.type = "[" ++ name ∧ (Descriptor.IsWhole r.type ↔ name ≠ "L"))) ∧
    ∀ t : Descriptor.FieldType, Text.bytes name = (Descriptor.FieldType.array t).bytes →
      ∃ r, (Instruction.newArray n name).Pushes m s r ∧ r.isArray = true ∧
        r.type = "[" ++ name ∧ Descriptor.IsWhole r.type := by
  constructor
  · intro hclass hsemi
    by_cases hshort : (Text.bytes name).length = 1
    · refine ⟨_, Instruction.pushes_newArray (Descriptor.arrayType_short hshort) hs hn,
        Ref.isArray_bracket _ _, ?_, ?_⟩
      · exact iff_of_false (fun h => wrapped_ne_bracket name h.1.symm) (not_not_intro hshort)
      · exact fun _ => ⟨rfl, Descriptor.isWhole_short_iff hclass hshort⟩
    · refine ⟨_, Instruction.pushes_newArray (Descriptor.arrayType_long hclass hshort) hs hn,
        Ref.isArray_wrapped _ _, ?_, ?_⟩
      · exact iff_of_true ⟨rfl, Descriptor.isWhole_wrapped hsemi⟩ hshort
      · exact fun h => absurd h hshort
  · intro t ht
    exact ⟨_, Instruction.pushes_newArray (Descriptor.arrayType_array ht) hs hn,
      Ref.isArray_bracket _ _, rfl, Descriptor.isWhole_array ht⟩

/-- A method that has put the length of a new array on its stack. -/
def sizedMachine : Machine :=
  { Machine.new none with
    frames := [⟨⟨"A", "f", "()V"⟩, [.bv32 (.const 3)], ⟨[]⟩, false⟩] }

/-- An array of the class `A` is taken for one of a primitive type. -/
theorem arrayOfA_type :
    IsClassName "A" ∧ ';' ∉ "A".toList ∧ sizedMachine.operands = [.bv32 (.const 3)] ∧
      ∃ r, (Instruction.newArray 3 "A").Pushes sizedMachine [] r ∧ r.isArray = true ∧
        r.type = "[A" ∧ Descriptor.IsWhole r.type ∧ r.type ≠ "[LA;" := by
  have hclass : IsClassName "A" := by constructor <;> decide
  have hsemi : ';' ∉ "A".toList := by decide
  have hshort : (Text.bytes "A").length = 1 := by decide
  have hoperands : sizedMachine.operands = [.bv32 (.const 3)] := rfl
  obtain ⟨r, hpushes, harray, hright, hwrong⟩ :=
    (newArray_type_iff sizedMachine 3 "A" hoperands (by decide)).1 hclass hsemi
  obtain ⟨htype, hwhole⟩ := hwrong hshort
  have hiswhole : Descriptor.IsWhole r.type := hwhole.mpr (by decide)
  exact ⟨hclass, hsemi, hoperands, r, hpushes, harray, htype, hiswhole,
    fun h => hright.mp ⟨h, hiswhole⟩ hshort⟩

/-- The type of an array of the class `L` is no descriptor at all. -/
theorem arrayOfL_unfinished :
    IsClassName "L" ∧ ';' ∉ "L".toList ∧ sizedMachine.operands = [.bv32 (.const 3)] ∧
      ¬ ∃ r, (Instruction.newArray 3 "L").Pushes sizedMachine [] r ∧
        (r.type = "[LL;" ∨ Descriptor.IsWhole r.type) := by
  refine ⟨by constructor <;> decide, by decide, rfl, ?_⟩
  rintro ⟨r, ⟨-, hr⟩, htype⟩
  have hpushed : ((Instruction.newArray 3 "L").exec sizedMachine).2.operands =
      [.ref (.object ⟨1, "[L"⟩)] := rfl
  rw [hpushed] at hr
  cases hr
  rcases htype with htype | hwhole
  · exact absurd htype (by decide)
  · cases hwhole

end Concolic
