import Concolic.Proofs.Descriptors

/-
# What is accepted as a descriptor

Every method descriptor is accepted, but not only those.  What is accepted is a list of texts taken
for types between parentheses, and behind them any text that begins like a type (`method_ok_iff`).
That is less than the grammar asks for in three places:

* an argument may be the letter of no value;
* the letter behind the brackets of an array may be any byte at all;
* only the first byte of the result is looked at, so a class name there need not end, and anything
  may follow.

A text is taken apart in one way only (`Reads.unique`).  So these three are the exact difference:
an accepted text is a descriptor if and only if none of them occurs in the way it is read
(`accepted_isDescriptor_iff`).
-/
namespace Concolic.Descriptor

/-! ## 1. Texts that begin like a type -/

/-- The letters of types and of no value, and the marks of classes and arrays. -/
def firstBytes : List UInt8 :=
  [byte 'B', byte 'C', byte 'I', byte 'S', byte 'Z'] ++
    [byte 'J', byte 'F', byte 'D', byte 'L', byte '[', byte 'V']

/-- The text begins like a type. -/
def Opens (s : List UInt8) : Prop := ∃ b ∈ firstBytes, s.head? = some b

theorem width_ok_iff (s : List UInt8) : (∃ w, width s = .ok w) ↔ Opens s := by
  fun_cases width s with
  | case1 => simp [Opens]
  | case2 b rest hb =>
    exact ⟨fun _ => ⟨b, List.mem_append_left _ hb, rfl⟩, fun _ => ⟨_, rfl⟩⟩
  | case6 b rest _ _ _ _ hb => rcases hb with rfl | rfl <;> simp [Opens, firstBytes]
  | _ => simp_all [Opens, firstBytes]

theorem not_opens_close (rest : List UInt8) : ¬ Opens (byte ')' :: rest) := by
  rw [← width_ok_iff]
  rintro ⟨w, hw⟩
  cases hw

theorem opens_bytes (t : FieldType) : Opens t.text.bytes := by
  rw [← width_ok_iff, t.bytes_text]
  exact ⟨_, width_bytes t⟩

theorem opens_resultBytes (r : Option FieldType) : Opens (resultBytes r) := by
  rw [← width_ok_iff]
  exact ⟨_, width_resultBytes r⟩

/-! ## 2. Readings -/

/-- How a text is taken for a method descriptor: the texts taken for arguments, and the one behind
the parentheses. -/
structure Reads (s : List UInt8) (args : List TypeText) (result : List UInt8) : Prop where
  text : s = byte '(' :: (args.flatMap TypeText.bytes ++ byte ')' :: result)
  opens : ∀ a ∈ args, Opens a.bytes
  result : Opens result

theorem arguments_complete (whole : List UInt8) {as : List TypeText}
    (has : ∀ a ∈ as, Opens a.bytes) (rest : List UInt8) :
    ∃ ws, arguments whole 0 (as.flatMap TypeText.bytes ++ byte ')' :: rest) = .ok (ws, rest) := by
  induction as with
  | nil => exact ⟨[], rfl⟩
  | cons a as ih =>
    rw [List.forall_mem_cons] at has
    obtain ⟨w, hw⟩ := (width_ok_iff _).mpr has.1
    obtain ⟨ws, hws⟩ := ih has.2
    refine ⟨w :: ws, ?_⟩
    rw [List.flatMap_cons, List.append_assoc, arguments_text whole a hw, hws]
    rfl

theorem arguments_sound {whole s rest : List UInt8} {k : Nat} {ws : List (Option Width)}
    (h : arguments whole k s = .ok (ws, rest)) :
    ∃ as : List TypeText, (∀ a ∈ as, Opens a.bytes) ∧
      s.drop k = as.flatMap TypeText.bytes ++ byte ')' :: rest := by
  induction s generalizing k ws with
  | nil => cases h
  | cons b s ih =>
    cases k with
    | succ k => exact ih h
    | zero =>
      rw [arguments] at h
      by_cases hclose : b = byte ')'
      · rw [if_pos hclose] at h
        cases h
        exact ⟨[], by simp, by simp [hclose]⟩
      rw [if_neg hclose] at h
      simp only [bind, Except.bind] at h
      split at h
      · cases h
      next n hn =>
      split at h
      · cases h
      next w hw =>
      split at h
      · cases h
      next r hr =>
      cases h
      obtain ⟨as, has, hrest⟩ := ih hr
      obtain ⟨t, rest', hs, rfl⟩ := (fieldLength_eq_ok_iff _ _).mp hn
      rw [hs, List.take_left] at hw
      refine ⟨t :: as, List.forall_mem_cons.mpr ⟨(width_ok_iff _).mp ⟨w, hw⟩, has⟩, ?_⟩
      -- what is skipped is the rest of the type that was read
      have hskip : s.drop (t.bytes.length - 1) = rest' := by
        obtain ⟨c, cs, ht⟩ := t.bytes_eq_cons
        rw [ht, List.cons_append] at hs
        rw [(List.cons.inj hs).2, ht, List.length_cons, Nat.add_sub_cancel, List.drop_left]
      rw [List.drop_zero, hs, ← hskip, hrest, List.flatMap_cons, List.append_assoc]

/-- **What is accepted is what can be taken for a descriptor.** -/
theorem method_ok_iff (s : List UInt8) :
    (∃ r, method s = .ok r) ↔ ∃ args result, Reads s args result := by
  constructor
  · rintro ⟨r, h⟩
    rw [method] at h
    split at h
    · cases h
    next hread =>
    simp only [bind, Except.bind] at h
    split at h
    · cases h
    next v hv =>
    split at h
    · cases h
    next w hw =>
    obtain ⟨as, has, hargs⟩ := arguments_sound hv
    refine ⟨as, v.2, ⟨?_, has, (width_ok_iff _).mp ⟨w, hw⟩⟩⟩
    obtain ⟨hlong, hopen⟩ := not_or.mp hread
    obtain ⟨rest, rfl⟩ := List.head?_eq_some_iff.mp (Decidable.not_not.mp hopen)
    exact congrArg (List.cons _) hargs
  · rintro ⟨args, result, hs⟩
    obtain ⟨ws, hws⟩ := arguments_complete s hs.opens result
    obtain ⟨w, hw⟩ := (width_ok_iff _).mpr hs.result
    have hresult : result ≠ [] := by
      rintro rfl
      cases hw
    have hlong : 1 < (args.flatMap TypeText.bytes ++ byte ')' :: result).length := by
      have := List.length_pos_iff.mpr hresult
      rw [List.length_append, List.length_cons]
      omega
    refine ⟨(ws, w), ?_⟩
    rw [hs.text] at hws ⊢
    rw [method_cons hlong, hws]
    simp only [bind, Except.bind, hw]
    rfl

/-! ## 3. One way to take a text apart -/

/-- **No text taken for a type begins another one.** -/
theorem TypeText.bytes_append_inj {t u : TypeText} {x y : List UInt8}
    (h : t.bytes ++ x = u.bytes ++ y) : t = u ∧ x = y := by
  induction t generalizing u with
  | letter b =>
    cases u with
    | letter c =>
      obtain ⟨hb, hx⟩ := List.cons.inj h
      exact ⟨congrArg TypeText.letter (Subtype.ext hb), hx⟩
    | object name => exact absurd (List.cons.inj h).1 b.property.2
    | array u => exact absurd (List.cons.inj h).1 b.property.1
  | object name =>
    cases u with
    | letter c => exact absurd (List.cons.inj h).1.symm c.property.2
    | object name' =>
      -- both names end at the first semicolon
      have hsplit : name.bytes ++ byte ';' :: x = name'.bytes ++ byte ';' :: y := by
        simpa using (List.cons.inj h).2
      have hend := (findIdx?_semicolon_iff _ _).mpr ⟨name, x, rfl, rfl⟩
      have hend' := (findIdx?_semicolon_iff _ _).mpr ⟨name', y, hsplit, rfl⟩
      have hlength := Option.some.inj (hend.symm.trans hend')
      obtain ⟨hname, hrest⟩ := List.append_inj hsplit hlength
      exact ⟨congrArg TypeText.object (ClassName.ext hname), (List.cons.inj hrest).2⟩
    | array u => exact absurd (List.cons.inj h).1 (by decide)
  | array t ih =>
    cases u with
    | letter c => exact absurd (List.cons.inj h).1.symm c.property.1
    | object name => exact absurd (List.cons.inj h).1 (by decide)
    | array u =>
      obtain ⟨rfl, hx⟩ := ih (List.cons.inj h).2
      exact ⟨rfl, hx⟩

/-- The parenthesis is not taken for an argument. -/
theorem opens_append_ne {t : TypeText} (ht : Opens t.bytes) (x y : List UInt8) :
    t.bytes ++ x ≠ byte ')' :: y := by
  intro h
  obtain ⟨b, bs, hb⟩ := t.bytes_eq_cons
  rw [hb] at h ht
  cases h
  exact not_opens_close bs ht

theorem arguments_unique {as bs : List TypeText} {x y : List UInt8}
    (has : ∀ a ∈ as, Opens a.bytes) (hbs : ∀ b ∈ bs, Opens b.bytes)
    (h : as.flatMap TypeText.bytes ++ byte ')' :: x =
      bs.flatMap TypeText.bytes ++ byte ')' :: y) : as = bs ∧ x = y := by
  induction as generalizing bs with
  | nil =>
    cases bs with
    | nil => exact ⟨rfl, (List.cons.inj h).2⟩
    | cons b bs =>
      rw [List.flatMap_cons, List.append_assoc] at h
      exact absurd h.symm (opens_append_ne (hbs b List.mem_cons_self) _ _)
  | cons a as ih =>
    rw [List.flatMap_cons, List.append_assoc] at h
    rw [List.forall_mem_cons] at has
    cases bs with
    | nil => exact absurd h (opens_append_ne has.1 _ _)
    | cons b bs =>
      rw [List.flatMap_cons, List.append_assoc] at h
      rw [List.forall_mem_cons] at hbs
      obtain ⟨rfl, hrest⟩ := TypeText.bytes_append_inj h
      obtain ⟨rfl, hx⟩ := ih has.2 hbs.2 hrest
      exact ⟨rfl, hx⟩

/-- **A text is taken apart in one way only.** -/
theorem Reads.unique {s : List UInt8} {args args' : List TypeText} {result result' : List UInt8}
    (h : Reads s args result) (h' : Reads s args' result') : args = args' ∧ result = result' :=
  arguments_unique h.opens h'.opens (List.cons.inj (h.text.symm.trans h'.text)).2

/-! ## 4. Accepted texts that are descriptors -/

/-- The text is that of a type: the letter in it is the letter of one. -/
def TypeText.IsField : TypeText → Prop
  | letter b => ∃ p : Primitive, b = p.toLetter
  | object _ => True
  | array element => element.IsField

theorem TypeText.isField_iff (t : TypeText) : t.IsField ↔ ∃ f : FieldType, f.text = t := by
  induction t with
  | letter b =>
    constructor
    · rintro ⟨p, rfl⟩
      exact ⟨.primitive p, rfl⟩
    · rintro ⟨f, hf⟩
      cases f with
      | primitive p => exact ⟨p, (TypeText.letter.inj hf).symm⟩
      | object name => cases hf
      | array element => cases hf
  | object name => exact ⟨fun _ => ⟨.object name, rfl⟩, fun _ => trivial⟩
  | array t ih =>
    rw [IsField, ih]
    constructor
    · rintro ⟨f, rfl⟩
      exact ⟨.array f, rfl⟩
    · rintro ⟨f, hf⟩
      cases f with
      | primitive p => cases hf
      | object name => cases hf
      | array f => exact ⟨f, TypeText.array.inj hf⟩

theorem exists_map_text {as : List TypeText} (h : ∀ a ∈ as, a.IsField) :
    ∃ fs : List FieldType, fs.map FieldType.text = as := by
  induction as with
  | nil => exact ⟨[], rfl⟩
  | cons a as ih =>
    rw [List.forall_mem_cons] at h
    obtain ⟨f, rfl⟩ := a.isField_iff.mp h.1
    obtain ⟨fs, rfl⟩ := ih h.2
    exact ⟨f :: fs, rfl⟩

theorem flatMap_text (fs : List FieldType) :
    (fs.map FieldType.text).flatMap TypeText.bytes = fs.flatMap FieldType.bytes := by
  simp [List.flatMap_map]

/-- A descriptor is read as what it is. -/
theorem reads_bytes (t : MethodType) :
    Reads t.bytes (t.args.map FieldType.text) (resultBytes t.result) := by
  refine ⟨?_, ?_, opens_resultBytes t.result⟩
  · rw [flatMap_text, MethodType.bytes]
  · intro a ha
    obtain ⟨f, -, rfl⟩ := List.mem_map.mp ha
    exact opens_bytes f

/-- **Which readings are those of descriptors.** -/
theorem Reads.isDescriptor_iff {s : List UInt8} {args : List TypeText} {result : List UInt8}
    (hs : Reads s args result) :
    (∃ t : MethodType, s = t.bytes) ↔
      (∀ a ∈ args, a.IsField) ∧ ∃ r : Option FieldType, result = resultBytes r := by
  constructor
  · rintro ⟨t, rfl⟩
    obtain ⟨rfl, rfl⟩ := hs.unique (reads_bytes t)
    refine ⟨?_, t.result, rfl⟩
    intro a ha
    obtain ⟨f, -, rfl⟩ := List.mem_map.mp ha
    exact f.text.isField_iff.mpr ⟨f, rfl⟩
  · rintro ⟨hargs, r, rfl⟩
    obtain ⟨fs, rfl⟩ := exists_map_text hargs
    refine ⟨⟨fs, r⟩, ?_⟩
    rw [hs.text, flatMap_text, MethodType.bytes]

/-- **Accepted texts.**  A text is accepted if and only if it can be taken for a descriptor.  It is
one if and only if every argument is a type, without the letter of no value and with a type behind
the brackets, and the result is a type or the letter of no value, and nothing more. -/
theorem accepted_isDescriptor_iff (s : List UInt8) :
    ((∃ r, method s = .ok r) ↔ ∃ args result, Reads s args result) ∧
    ∀ args result, Reads s args result →
      ((∃ t : MethodType, s = t.bytes) ↔
        (∀ a ∈ args, a.IsField) ∧ ∃ r : Option FieldType, result = resultBytes r) := by
  refine ⟨method_ok_iff s, ?_⟩
  intro args result hs
  exact hs.isDescriptor_iff

/-- A result whose class name does not end. -/
def openResult : List UInt8 := Text.bytes "()Ljava/lang/Object"

theorem reads_openResult : Reads openResult [] (Text.bytes "Ljava/lang/Object") := by
  refine ⟨rfl, by simp, byte 'L', by decide, rfl⟩

/-- The name of a class ends with a semicolon, and no other result begins with its mark. -/
theorem openResult_accepted :
    (∃ r, method openResult = .ok r) ∧ ¬ ∃ t : MethodType, openResult = t.bytes := by
  refine ⟨(accepted_isDescriptor_iff _).1.mpr ⟨_, _, reads_openResult⟩, ?_⟩
  rw [(accepted_isDescriptor_iff _).2 _ _ reads_openResult]
  rintro ⟨-, r, hr⟩
  cases r with
  | none => cases hr
  | some t =>
    cases t with
    | primitive p => exact absurd (congrArg List.length hr) (by decide : ¬ 17 = 1)
    | object name =>
      have hlast : (resultBytes (some (.object name))).getLast? = some (byte ';') := by
        rw [resultBytes, FieldType.bytes, ← List.cons_append, List.getLast?_concat]
      rw [← hr] at hlast
      exact absurd hlast (by decide)
    | array t => cases hr

/-- A method that takes no value. -/
def voidArgument : List UInt8 := Text.bytes "(V)V"

/-- No type has the letter of no value. -/
theorem voidArgument_accepted :
    (∃ r, method voidArgument = .ok r) ∧ ¬ ∃ t : MethodType, voidArgument = t.bytes := by
  have hreads : Reads voidArgument [.letter ⟨byte 'V', by decide⟩] [byte 'V'] :=
    ⟨rfl, by simp [Opens, firstBytes, TypeText.bytes], byte 'V', by decide, rfl⟩
  refine ⟨(method_ok_iff _).mpr ⟨_, _, hreads⟩, ?_⟩
  rw [hreads.isDescriptor_iff]
  rintro ⟨hargs, -⟩
  obtain ⟨p, hp⟩ := hargs _ List.mem_cons_self
  cases p <;> revert hp <;> decide

end Concolic.Descriptor
