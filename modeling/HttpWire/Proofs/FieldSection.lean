import HttpWire.Proofs.Marks
import HttpWire.Reader.Read
import Mathlib.Data.List.Forall2

-- The reader takes one line at a time and never more than the section may hold.
namespace HttpWire

-- An empty line would end the section, and a CRLF the line.
structure FieldLine (line : Bytes) (f : Field) : Prop where
  nonempty : line ≠ []
  free : ¬ crlf <:+: line
  accepted : Field.ofLine line = .ok f

def sectionBytes (lines : List Bytes) : Bytes := lines.flatMap (· ++ crlf) ++ crlf

@[simp] theorem sectionBytes_nil : sectionBytes [] = crlf := rfl

@[simp] theorem sectionBytes_cons (line : Bytes) (lines : List Bytes) :
    sectionBytes (line :: lines) = line ++ (crlf ++ sectionBytes lines) := by
  simp [sectionBytes]

-- Each line counts with its CRLF, and so does the empty line.
def sectionSize : List Bytes → Nat
  | [] => 2
  | line :: lines => line.length + 2 + sectionSize lines

theorem sectionBytes_length (lines : List Bytes) : (sectionBytes lines).length = sectionSize lines := by
  induction lines with
  | nil => rfl
  | cons line lines ih =>
    simp only [sectionBytes_cons, List.length_append, ih, crlf, List.length_cons, List.length_nil,
      sectionSize]
    omega

namespace Reader

section Lines

variable (size : Nat) (line rest : Bytes)

theorem sectionLine_end (fits : size + 2 ≤ sectionRoom) :
    sectionLine size (crlf ++ rest) = .closed rest := by
  have taken := takeLine_line (sectionRoom - size) [] rest (by decide)
    (by simp only [List.length_nil]; omega)
  rw [List.nil_append] at taken
  rw [sectionLine, taken]

theorem sectionLine_accepted (f : Field) (read : FieldLine line f)
    (fits : size + line.length + 2 ≤ sectionRoom) :
    sectionLine size (line ++ (crlf ++ rest)) = .field f (size + line.length + 2) rest := by
  have taken := takeLine_line (sectionRoom - size) line rest read.free (by omega)
  rw [sectionLine, taken]
  cases line with
  | nil => exact absurd rfl read.nonempty
  | cons b line => simp only [read.accepted]

theorem sectionLine_rejected (e : Error) (nonempty : line ≠ []) (free : ¬ crlf <:+: line)
    (fits : size + line.length + 2 ≤ sectionRoom) (refused : Field.ofLine line = .error e) :
    sectionLine size (line ++ (crlf ++ rest)) = .fault e := by
  have taken := takeLine_line (sectionRoom - size) line rest free (by omega)
  rw [sectionLine, taken]
  cases line with
  | nil => exact absurd rfl nonempty
  | cons b line => simp only [refused]

theorem sectionLine_exceeds (free : ¬ crlf <:+: line)
    (long : ¬ size + line.length + 2 ≤ sectionRoom) :
    sectionLine size (line ++ (crlf ++ rest)) = .fault .headerTooLong := by
  have taken : takeLine (sectionRoom - size) (line ++ (crlf ++ rest)) = .tooLong := by
    unfold takeLine
    rw [cutMark_line line rest free]
    exact if_neg (by omega)
  rw [sectionLine, taken]

end Lines

theorem sectionLine_field_iff (size after : Nat) (bytes rest : Bytes) (f : Field) :
    sectionLine size bytes = .field f after rest ↔
      ∃ line, bytes = line ++ (crlf ++ rest) ∧ FieldLine line f ∧
        after = size + line.length + 2 ∧ size + line.length + 2 ≤ sectionRoom := by
  constructor
  · intro read
    unfold sectionLine at read
    split at read
    · cases read
    · cases read
    · cases read
    · rename_i line left filled taken
      split at read
      · cases read
      · rename_i g accepted
        cases read
        obtain ⟨whole, fits⟩ := takeLine_whole _ _ _ _ taken
        exact ⟨line, whole, ⟨fun empty => filled empty, takeLine_free _ _ _ _ taken, accepted⟩,
          rfl, by omega⟩
  · intro holds
    obtain ⟨line, rfl, read, rfl, fits⟩ := holds
    exact sectionLine_accepted size line rest f read fits

theorem sectionLine_closed_iff (size : Nat) (bytes rest : Bytes) :
    sectionLine size bytes = .closed rest ↔ bytes = crlf ++ rest ∧ size + 2 ≤ sectionRoom := by
  constructor
  · intro read
    unfold sectionLine at read
    split at read
    · cases read
    · cases read
    · rename_i left taken
      cases read
      obtain ⟨whole, fits⟩ := takeLine_whole _ _ _ _ taken
      exact ⟨whole, by simp only [List.length_nil] at fits; omega⟩
    · split at read <;> cases read
  · intro holds
    obtain ⟨rfl, fits⟩ := holds
    exact sectionLine_end size rest fits

end Reader
end HttpWire
