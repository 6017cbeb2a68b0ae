import HttpWire.Proofs.FieldLines
import HttpWire.Proofs.FieldSection
import HttpWire.Proofs.PlainBoundary
import HttpWire.Proofs.Utf8Blanks
import HttpWire.Writer

-- A name and a value without control characters are read back, but for the blanks around the value.
namespace HttpWire

-- Control characters, of which a field line may hold the tab alone.
def Text.isControl (c : Char) : Bool := (c.toNat < 0x20 && c != '\t') || c.toNat == 0x7F

def Text.Uncontrolled (t : Text) : Prop := ∀ c ∈ t, isControl c = false

instance (t : Text) : Decidable t.Uncontrolled :=
  List.decidableBAll (fun c => Text.isControl c = false) t

theorem any_none {p : Char → Bool} (found : Option Char) :
    found.any p = false ↔ ∀ c, found = some c → p c = false := by
  cases found with
  | none => simp
  | some c => simp

structure FieldName (name : Text) : Prop where
  nonempty : name ≠ []
  first : ∀ c, name.head? = some c → Text.isBlank c = false
  last : ∀ c, name.getLast? = some c → Text.isBlank c = false
  colon : ':' ∉ name
  plain : name.Uncontrolled

instance (name : Text) : Decidable (FieldName name) :=
  decidable_of_iff (name ≠ [] ∧ name.head?.any Text.isBlank = false ∧
      name.getLast?.any Text.isBlank = false ∧ ':' ∉ name ∧ name.Uncontrolled)
    ⟨fun ⟨nonempty, first, last, colon, plain⟩ =>
        ⟨nonempty, (any_none _).mp first, (any_none _).mp last, colon, plain⟩,
      fun ⟨nonempty, first, last, colon, plain⟩ =>
        ⟨nonempty, (any_none _).mpr first, (any_none _).mpr last, colon, plain⟩⟩

def rowBytes (name value : Text) : Bytes :=
  Utf8.encode name ++ 0x3A :: 0x20 :: Utf8.encode value

theorem line_eq (name value : Text) : Writer.line name value = rowBytes name value ++ crlf := by
  simp [Writer.line, rowBytes]

section Bytes

theorem control_byte (b : UInt8) (control : Field.isControlByte b = true) :
    b.toNat < 0x80 ∧ Text.isControl (Char.ofNat b.toNat) = true := by
  unfold Field.isControlByte at control
  rcases Bool.or_eq_true_iff.mp control with low | delete
  · obtain ⟨below, other⟩ := Bool.and_eq_true_iff.mp low
    have small : b.toNat < 0x20 := UInt8.lt_iff_toNat_lt.mp (of_decide_eq_true below)
    have value := Utf8.ofNat_small b.toNat (by omega)
    have tab : Char.ofNat b.toNat ≠ '\t' := by
      intro same
      rw [same] at value
      have nine : b = 0x09 := UInt8.toNat_inj.mp value.symm
      rw [nine] at other
      cases other
    refine ⟨by omega, ?_⟩
    unfold Text.isControl
    rw [value, decide_eq_true small, bne_iff_ne.mpr tab]
    rfl
  · rw [beq_iff_eq.mp delete]
    decide

theorem encode_controls (t : Text) (plain : t.Uncontrolled) :
    ∀ b ∈ Utf8.encode t, Field.isControlByte b = false := by
  intro b member
  cases control : Field.isControlByte b with
  | false => rfl
  | true =>
    obtain ⟨small, still⟩ := control_byte b control
    have inside := plain _ (Utf8.encode_ascii b small t member)
    rw [inside] at still
    cases still

-- The blanks of a text that was written are the blanks of its bytes.
theorem encode_blank (c : Char) (plain : Text.isBlank c = false) :
    ∀ b ∈ String.utf8EncodeChar c, Text.isBlankByte b = false := by
  intro b member
  cases blank : Text.isBlankByte b with
  | false => rfl
  | true =>
    obtain ⟨small, still⟩ := Utf8.blank_byte b blank
    have one : b ∈ Utf8.encode [c] := by
      rw [Utf8.encode, List.flatMap_singleton]
      exact member
    have same := List.mem_singleton.mp (Utf8.encode_ascii b small [c] one)
    rw [same, plain] at still
    cases still

theorem encode_first (t : Text) (plain : ∀ c, t.head? = some c → Text.isBlank c = false) (b : UInt8)
    (first : (Utf8.encode t).head? = some b) : Text.isBlankByte b = false := by
  cases t with
  | nil => cases first
  | cons c t =>
    have whole : Utf8.encode (c :: t) = String.utf8EncodeChar c ++ Utf8.encode t := rfl
    rw [whole, List.head?_append_of_ne_nil _ String.utf8EncodeChar_ne_nil] at first
    exact encode_blank c (plain c rfl) b (List.mem_of_head? first)

theorem encode_last (t : Text) (plain : ∀ c, t.getLast? = some c → Text.isBlank c = false) (b : UInt8)
    (last : (Utf8.encode t).getLast? = some b) : Text.isBlankByte b = false := by
  rcases List.eq_nil_or_concat t with rfl | ⟨front, c, rfl⟩
  · cases last
  · have one : Utf8.encode [c] = String.utf8EncodeChar c := List.flatMap_singleton _ _
    have real : String.utf8EncodeChar c ≠ [] := String.utf8EncodeChar_ne_nil
    rw [List.concat_eq_append] at last plain
    rw [Utf8.encode_append, one, List.getLast?_append, List.getLast?_eq_some_getLast real,
      Option.some_or] at last
    apply encode_blank c (plain c List.getLast?_concat) b
    rw [← Option.some.inj last]
    exact List.getLast_mem real

end Bytes

section Writing

variable {name value : Text} (named : FieldName name) (plain : value.Uncontrolled)

include named plain

theorem row_plain : ∀ b ∈ rowBytes name value, Field.isControlByte b = false := by
  intro b member
  rcases List.mem_append.mp member with inName | later
  · exact encode_controls name named.plain b inName
  · rcases List.mem_cons.mp later with rfl | later
    · rfl
    · rcases List.mem_cons.mp later with rfl | inValue
      · rfl
      · exact encode_controls value plain b inValue

theorem row_parts : FieldParts (rowBytes name value) (Utf8.encode name)
    (trimBoth Text.isBlankByte (0x20 :: Utf8.encode value)) :=
  .ofCut rfl (encode_ne_nil name named.nonempty) (encode_first name named.first)
    (encode_last name named.last) (encode_free 0x3A (by decide) name named.colon)
    (row_plain named plain)

theorem ofLine_row : Field.ofLine (rowBytes name value) = .ok ⟨name, Text.trim value⟩ := by
  have space : Utf8.lossy (0x20 :: Utf8.encode value) = ' ' :: Utf8.lossy (Utf8.encode value) :=
    Utf8.lossy_append_ascii 0x20 (by decide) (Utf8.encode value) []
  rw [(row_parts named plain).ofLine, Utf8.lossy_trim, space, Utf8.lossy_encode, Utf8.lossy_encode]
  rfl

theorem fieldLine_row : FieldLine (rowBytes name value) ⟨name, Text.trim value⟩ := by
  refine ⟨?_, ?_, ofLine_row named plain⟩
  · exact List.append_ne_nil_of_right_ne_nil _ (List.cons_ne_nil _ _)
  · apply crlf_absent
    intro inside
    have still := row_plain named plain 0x0D inside
    cases still

end Writing

section Reading

theorem lossy_uncontrolled (bytes : Bytes) (free : ∀ b ∈ bytes, Field.isControlByte b = false) :
    (Utf8.lossy bytes).Uncontrolled := by
  intro c member
  cases control : Text.isControl c with
  | false => rfl
  | true =>
    unfold Text.isControl at control
    have small : c.toNat < 0x80 := by
      rcases Bool.or_eq_true_iff.mp control with low | delete
      · have below := of_decide_eq_true (Bool.and_eq_true_iff.mp low).1
        omega
      · rw [beq_iff_eq.mp delete]
        decide
    have value := Utf8.toNat_byte c.toNat (by omega)
    have still : Field.isControlByte (UInt8.ofNat c.toNat) = true := by
      unfold Field.isControlByte
      rcases Bool.or_eq_true_iff.mp control with low | delete
      · obtain ⟨below, other⟩ := Bool.and_eq_true_iff.mp low
        have lower : UInt8.ofNat c.toNat < 0x20 := by
          rw [UInt8.lt_iff_toNat_lt, value]
          exact of_decide_eq_true below
        have untabbed : UInt8.ofNat c.toNat ≠ 0x09 := by
          intro same
          have nine : c.toNat = '\t'.toNat := by rw [← value, same]; rfl
          rw [Char.toNat_inj.mp nine] at other
          cases other
        rw [decide_eq_true lower, bne_iff_ne.mpr untabbed]
        rfl
      · rw [beq_iff_eq.mp delete]
        decide
    rw [free _ (Utf8.lossy_ascii c small bytes member)] at still
    cases still

theorem FieldParts.writable {line name value : Bytes} (parts : FieldParts line name value) :
    FieldName (Utf8.lossy name) ∧ (Utf8.lossy value).Uncontrolled ∧
      Text.trim (Utf8.lossy value) = Utf8.lossy value := by
  refine ⟨⟨Utf8.lossy_ne_nil name parts.filled, ?_, ?_, ?_, ?_⟩, ?_, ?_⟩
  · exact Utf8.lossy_first name parts.first
  · exact Utf8.lossy_last name parts.last
  · exact fun inside => parts.colon (Utf8.lossy_ascii ':' (by decide) name inside)
  · exact lossy_uncontrolled name parts.name_plain
  · exact lossy_uncontrolled value parts.value_plain
  · rw [← Utf8.lossy_trim, parts.bare]

theorem FieldLine.writable {line : Bytes} {f : Field} (read : FieldLine line f) :
    FieldName f.name ∧ f.value.Uncontrolled ∧ Text.trim f.value = f.value := by
  obtain ⟨name, value, parts, rfl⟩ := (ofLine_iff _ _).mp read.accepted
  exact parts.writable

end Reading

end HttpWire
