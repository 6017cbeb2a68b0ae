import HttpWire.Proofs.ChunkLineForm
import HttpWire.Proofs.ListValues

-- Which lines are read as a field, and which bytes of a line are the name and the value.
namespace HttpWire

-- Blanks may stand around the value and nowhere else next to the colon or in front.
structure FieldParts (line name value : Bytes) : Prop where
  whole : ∃ before behind, line = name ++ 0x3A :: (before ++ (value ++ behind)) ∧
    (∀ b ∈ before, Text.isBlankByte b = true) ∧ ∀ b ∈ behind, Text.isBlankByte b = true
  filled : name ≠ []
  first : ∀ b, name.head? = some b → Text.isBlankByte b = false
  last : ∀ b, name.getLast? = some b → Text.isBlankByte b = false
  colon : 0x3A ∉ name
  bare : trimBoth Text.isBlankByte value = value
  plain : ∀ b ∈ line, Field.isControlByte b = false

namespace Field

def nameBytes (line : Bytes) : Bytes := line.takeWhile (· ≠ 0x3A)

def valueBytes (line : Bytes) : Bytes :=
  trimBoth Text.isBlankByte ((line.dropWhile (· ≠ 0x3A)).drop 1)

end Field

section Reading

variable {line name value : Bytes}

theorem FieldParts.ofLine (parts : FieldParts line name value) :
    Field.ofLine line = .ok ⟨Utf8.lossy name, Utf8.lossy value⟩ := by
  obtain ⟨before, behind, whole, front, back⟩ := parts.whole
  have unfolded : line.head?.any Text.isBlankByte = false := by
    have first := List.head?_eq_some_head parts.filled
    simp [whole, first, parts.first _ first]
  have plain : line.any Field.isControlByte = false := by
    simpa using parts.plain
  have cut : cutAt 0x3A line = some (name, before ++ (value ++ behind)) := by
    rw [whole]
    exact cutAt_first _ _ _ parts.colon
  have ended : name.getLast?.all Text.isBlankByte = false := by
    have last := List.getLast?_eq_some_getLast parts.filled
    simp [last, parts.last _ last]
  have trimmed : trimBoth Text.isBlankByte (before ++ (value ++ behind)) = value := by
    rw [trimBoth_before _ _ before front, trimBoth_behind _ _ behind back, parts.bare]
  simp [Field.ofLine, unfolded, plain, cut, ended, trimmed]

theorem FieldParts.ofCut {raw : Bytes} (whole : line = name ++ 0x3A :: raw) (filled : name ≠ [])
    (first : ∀ b, name.head? = some b → Text.isBlankByte b = false)
    (last : ∀ b, name.getLast? = some b → Text.isBlankByte b = false) (colon : 0x3A ∉ name)
    (plain : ∀ b ∈ line, Field.isControlByte b = false) :
    FieldParts line name (trimBoth Text.isBlankByte raw) := by
  obtain ⟨before, behind, parts, front, back⟩ := trimBoth_parts Text.isBlankByte raw
  refine ⟨⟨before, behind, ?_, front, back⟩, filled, first, last, colon, ?_, plain⟩
  · rw [← parts]
    exact whole
  · exact trimBoth_stable _ _ (trimBoth_first _ _) (trimBoth_last _ _)

theorem ofLine_iff (line : Bytes) (f : Field) :
    Field.ofLine line = .ok f ↔
      ∃ name value, FieldParts line name value ∧ f = ⟨Utf8.lossy name, Utf8.lossy value⟩ := by
  constructor
  · intro read
    unfold Field.ofLine at read
    split at read
    · cases read
    · rename_i unfolded
      split at read
      · cases read
      · rename_i uncontrolled
        split at read
        · cases read
        · rename_i name raw cut
          split at read
          · cases read
          · rename_i ended
            cases read
            have whole := cutAt_eq _ _ _ _ cut
            have filled : name ≠ [] := by
              rintro rfl
              exact ended rfl
            refine ⟨name, trimBoth Text.isBlankByte raw, .ofCut whole filled ?_ ?_ (cutAt_free _ _ _ _ cut)
              (by simpa using uncontrolled), rfl⟩
            · intro b first
              rw [whole, List.head?_append_of_ne_nil _ filled, first] at unfolded
              simpa using unfolded
            · intro b last
              simpa [last] using ended
  · rintro ⟨name, value, parts, rfl⟩
    exact parts.ofLine

theorem FieldParts.length_le (parts : FieldParts line name value) :
    name.length + 1 + value.length ≤ line.length := by
  obtain ⟨before, behind, rfl, -, -⟩ := parts.whole
  simp
  omega

theorem FieldParts.name_plain (parts : FieldParts line name value) :
    ∀ b ∈ name, Field.isControlByte b = false := by
  obtain ⟨before, behind, rfl, -, -⟩ := parts.whole
  intro b member
  apply parts.plain
  simp [member]

theorem FieldParts.value_plain (parts : FieldParts line name value) :
    ∀ b ∈ value, Field.isControlByte b = false := by
  obtain ⟨before, behind, rfl, -, -⟩ := parts.whole
  intro b member
  apply parts.plain
  simp [member]

theorem FieldParts.cut (parts : FieldParts line name value) :
    Field.nameBytes line = name ∧ Field.valueBytes line = value := by
  obtain ⟨before, behind, rfl, front, back⟩ := parts.whole
  have others : ∀ b ∈ name, decide (b ≠ 0x3A) = true := fun b member =>
    decide_eq_true fun same => parts.colon (same ▸ member)
  have colon : ∀ b ∈ (0x3A :: (before ++ (value ++ behind))).head?, decide (b ≠ 0x3A) = false := by
    intro b first
    cases first
    rfl
  obtain ⟨first, later⟩ := takeWhile_parts others colon
  unfold Field.nameBytes Field.valueBytes
  rw [first, later, List.drop_one, List.tail_cons, trimBoth_before _ _ before front,
    trimBoth_behind _ _ behind back, parts.bare]
  exact ⟨rfl, rfl⟩

end Reading

end HttpWire
