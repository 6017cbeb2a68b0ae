import HttpWire.Proofs.FieldText

-- An accepted line in UTF-8 is nothing but its field with blanks around the value.
namespace HttpWire

def Utf8.Valid (bytes : Bytes) : Prop := ∃ t, bytes = encode t

theorem first_at {α : Type} (d : α) (xs : List α) (i : Nat) :
    (xs[i]? = some d ∧ ∀ j < i, xs[j]? ≠ some d) ↔
      ∃ front behind, xs = front ++ d :: behind ∧ d ∉ front ∧ front.length = i := by
  constructor
  · rintro ⟨here, earlier⟩
    obtain ⟨inside, same⟩ := List.getElem?_eq_some_iff.mp here
    refine ⟨xs.take i, xs.drop (i + 1), ?_, ?_, by simp; omega⟩
    · rw [← same, ← List.drop_eq_getElem_cons, List.take_append_drop]
    · intro member
      obtain ⟨j, before, found⟩ := List.mem_take_iff_getElem.mp member
      apply earlier j (by omega)
      simp [List.getElem?_eq_some_iff, found]
      omega
  · rintro ⟨front, behind, rfl, free, rfl⟩
    refine ⟨by simp, fun j before found => free ?_⟩
    rw [List.getElem?_append_left before] at found
    exact List.mem_of_getElem? found

namespace Field

-- A line that begins with a space or a tab goes on with the one before.
def Folded (line : Bytes) : Prop := line.head? = some 0x20 ∨ line.head? = some 0x09

structure Acceptable (bytes : Bytes) : Prop where
  unfolded : ¬ Folded bytes
  plain : ∀ b ∈ bytes, (0x20 ≤ b ∨ b = 0x09) ∧ b ≠ 0x7F
  colon : ∃ i, 1 ≤ i ∧ bytes[i]? = some 0x3A ∧ (∀ j < i, bytes[j]? ≠ some 0x3A) ∧
    bytes[i - 1]? ≠ some 0x20 ∧ bytes[i - 1]? ≠ some 0x09

structure Spelled (f : Field) (line : Bytes) : Prop where
  name : FieldName f.name
  plain : f.value.Uncontrolled
  first : ∀ c ∈ f.value.head?, Text.isBlank c = false
  last : ∀ c ∈ f.value.getLast?, Text.isBlank c = false
  whole : ∃ before behind : Bytes,
    line = Utf8.encode f.name ++ 0x3A :: (before ++ (Utf8.encode f.value ++ behind)) ∧
      (∀ b ∈ before, b = 0x20 ∨ b = 0x09) ∧ ∀ b ∈ behind, b = 0x20 ∨ b = 0x09

section Acceptance

variable {line : Bytes}

theorem folded_iff : Folded line ↔ line.head?.any Text.isBlankByte = true := by
  cases line with
  | nil => simp [Folded]
  | cons b line => simp [Folded, Text.isBlankByte_iff]

-- Only a folded line is refused as one. Every other line is accepted or has a fault.
theorem ofLine_cases (line : Bytes) :
    Folded line ∧ ofLine line = .error .headerFolded ∨
      ¬ Folded line ∧ (ofLine line = .error .headerInvalidSyntax ∨ ∃ f, ofLine line = .ok f) := by
  by_cases folded : Folded line
  · left
    refine ⟨folded, ?_⟩
    rw [ofLine, if_pos (folded_iff.mp folded)]
  · right
    refine ⟨folded, ?_⟩
    rw [ofLine, if_neg (fun blank => folded (folded_iff.mpr blank))]
    split
    · exact .inl rfl
    · split
      · exact .inl rfl
      · split
        · exact .inl rfl
        · exact .inr ⟨_, rfl⟩

theorem folded_refused (line : Bytes) : ofLine line = .error .headerFolded ↔ Folded line := by
  rcases ofLine_cases line with ⟨folded, refused⟩ | ⟨unfolded, refused | ⟨f, read⟩⟩
  · simp [folded, refused]
  · simp [unfolded, refused]
  · simp [unfolded, read]

theorem fault_refused (line : Bytes) :
    ofLine line = .error .headerInvalidSyntax ↔ ¬ Folded line ∧ ¬ ∃ f, ofLine line = .ok f := by
  rcases ofLine_cases line with ⟨folded, refused⟩ | ⟨unfolded, refused | ⟨f, read⟩⟩
  · simp [folded, refused]
  · simp [unfolded, refused]
  · simp [read]

theorem acceptable_iff (bytes : Bytes) :
    Acceptable bytes ↔ ∃ name value, FieldParts bytes name value := by
  constructor
  · rintro ⟨unfolded, plain, i, inner, colon, before, space, tab⟩
    obtain ⟨name, raw, rfl, free, rfl⟩ := (first_at _ _ _).mp ⟨colon, before⟩
    have filled : name ≠ [] := List.ne_nil_of_length_pos inner
    have last : ∀ b, name.getLast? = some b → Text.isBlankByte b = false := by
      intro b last
      rw [List.getElem?_append_left (by omega), ← List.getLast?_eq_getElem?, last] at space tab
      simpa [Text.isBlankByte_iff, Bool.eq_false_iff] using And.intro space tab
    refine ⟨name, _, .ofCut rfl filled ?_ last free fun b member => (isControlByte_iff b).mpr (plain b member)⟩
    intro b first
    rw [folded_iff, List.head?_append_of_ne_nil _ filled, first] at unfolded
    simpa using unfolded
  · rintro ⟨name, value, parts⟩
    obtain ⟨front, behind, whole, -, -⟩ := parts.whole
    have inner : 1 ≤ name.length := List.length_pos_iff.mpr parts.filled
    -- The first colon stands right behind the name.
    have place := (first_at 0x3A bytes name.length).mpr ⟨name, _, whole, parts.colon, rfl⟩
    have before : bytes[name.length - 1]? = name.getLast? := by
      rw [whole, List.getElem?_append_left (by omega), List.getLast?_eq_getElem?]
    refine ⟨?_, fun b member => (isControlByte_iff b).mp (parts.plain b member), name.length, inner,
      place.1, place.2, ?_, ?_⟩
    · have first := List.head?_eq_some_head parts.filled
      rw [folded_iff, whole, List.head?_append_of_ne_nil _ parts.filled, first]
      simp [parts.first _ first]
    · rw [before]
      exact fun blank => absurd (parts.last _ blank) (by decide)
    · rw [before]
      exact fun blank => absurd (parts.last _ blank) (by decide)

theorem accepted_iff (line : Bytes) : (∃ f, ofLine line = .ok f) ↔ Acceptable line := by
  rw [acceptable_iff]
  constructor
  · rintro ⟨f, read⟩
    obtain ⟨name, value, parts, -⟩ := (ofLine_iff line f).mp read
    exact ⟨name, value, parts⟩
  · rintro ⟨name, value, parts⟩
    exact ⟨_, parts.ofLine⟩

end Acceptance

section Composition

variable {f : Field} {line : Bytes}

theorem Spelled.parts (spelled : f.Spelled line) :
    FieldParts line (Utf8.encode f.name) (Utf8.encode f.value) := by
  obtain ⟨before, behind, whole, front, back⟩ := spelled.whole
  have blank : ∀ b, b = 0x20 ∨ b = 0x09 → isControlByte b = false := by
    rintro b (rfl | rfl) <;> rfl
  refine ⟨⟨before, behind, whole, fun b member => (Text.isBlankByte_iff b).mpr (front b member),
    fun b member => (Text.isBlankByte_iff b).mpr (back b member)⟩, encode_ne_nil _ spelled.name.nonempty,
    encode_first _ spelled.name.first, encode_last _ spelled.name.last,
    encode_free 0x3A (by decide) _ spelled.name.colon,
    trimBoth_stable _ _ (encode_first _ spelled.first) (encode_last _ spelled.last), ?_⟩
  intro b member
  simp only [whole, List.mem_append, List.mem_cons] at member
  rcases member with inName | rfl | inFront | inValue | inBack
  · exact encode_controls _ spelled.name.plain b inName
  · rfl
  · exact blank b (front b inFront)
  · exact encode_controls _ spelled.plain b inValue
  · exact blank b (back b inBack)

theorem spelled_iff (f : Field) (line : Bytes) :
    f.Spelled line ↔
      ofLine line = .ok f ∧ Utf8.Valid (nameBytes line) ∧ Utf8.Valid (valueBytes line) := by
  constructor
  · intro spelled
    obtain ⟨first, later⟩ := spelled.parts.cut
    refine ⟨?_, ⟨f.name, first⟩, f.value, later⟩
    rw [spelled.parts.ofLine, Utf8.lossy_encode, Utf8.lossy_encode]
  · rintro ⟨read, validName, validValue⟩
    obtain ⟨name, value, parts, rfl⟩ := (ofLine_iff line f).mp read
    obtain ⟨named, plain, trimmed⟩ := parts.writable
    obtain ⟨before, behind, whole, front, back⟩ := parts.whole
    rw [parts.cut.1] at validName
    rw [parts.cut.2] at validValue
    obtain ⟨n, rfl⟩ := validName
    obtain ⟨v, rfl⟩ := validValue
    refine ⟨named, plain, fun c first => ?_, fun c last => ?_, before, behind, ?_,
      fun b member => (Text.isBlankByte_iff b).mp (front b member),
      fun b member => (Text.isBlankByte_iff b).mp (back b member)⟩
    · rw [← trimmed] at first
      exact trimBoth_first _ _ c first
    · rw [← trimmed] at last
      exact trimBoth_last _ _ c last
    · simpa only [Utf8.lossy_encode] using whole

end Composition

theorem line_grammar (line : Bytes) :
    ((∃ f, ofLine line = .ok f) ↔ Acceptable line) ∧
      (ofLine line = .error .headerFolded ↔ Folded line) ∧
      (ofLine line = .error .headerInvalidSyntax ↔ ¬ Folded line ∧ ¬ Acceptable line) ∧
      ∀ f : Field, (ofLine line = .ok f ∧ Utf8.Valid (nameBytes line) ∧ Utf8.Valid (valueBytes line)) ↔
        f.Spelled line := by
  refine ⟨accepted_iff line, folded_refused line, ?_, fun f => (spelled_iff f line).symm⟩
  rw [fault_refused, accepted_iff]

end Field

end HttpWire
