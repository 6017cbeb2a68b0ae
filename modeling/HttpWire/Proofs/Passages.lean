import HttpWire.Proofs.Leftover
import HttpWire.Proofs.SoundReaders

-- The ways of a reader from phase to phase: which phase a turn that goes on may lead to, and
-- what it uses on the way; and what a turn that waits may change of a phase.
namespace HttpWire

-- The phase in which a section is read, once it has come to a size.
def Section.phase : Section → Nat → Phase
  | .header, size => .header size
  | .part _, size => .partHeader size
  | .trailer, size => .trailer size

namespace Reader

inductive Passage : Phase → Bytes → Phase → Prop
  | skipped : Passage .start [] (.header 0)
  | begun {used : Bytes} : Passage .start used .startLine
  | startLine {line : Bytes} (free : ¬ crlf <:+: line) (fits : line.length + 2 ≤ startLineRoom) :
    Passage .startLine (line ++ crlf) (.header 0)
  | field {line : Bytes} {f : Field} {size : Nat} (s : Section) (read : FieldLine line f)
    (fits : size + line.length + 2 ≤ sectionRoom) :
    Passage (s.phase size) (line ++ crlf) (s.phase (size + line.length + 2))
  | headerEnd {size : Nat} (format : BodyFormat) (fits : size + 2 ≤ sectionRoom) :
    Passage (.header size) crlf (bodyPhase format)
  | partHeaderEnd {size : Nat} (fits : size + 2 ≤ sectionRoom) : Passage (.partHeader size) crlf .partData
  | trailerEnd {size : Nat} (fits : size + 2 ≤ sectionRoom) : Passage (.trailer size) crlf .done
  | body {data : Bytes} (some_left : data ≠ []) : Passage .body data .done
  | chunkLine {line : Bytes} {after : Phase} (free : ¬ crlf <:+: line)
    (fits : line.length + 2 ≤ chunkLineRoom)
    (sized : after = .trailer 0 ∨ ∃ size, size ≠ 0 ∧ after = .chunkData size) :
    Passage .chunkLine (line ++ crlf) after
  | chunkData {data : Bytes} : Passage (.chunkData data.length) (data ++ crlf) .chunkLine
  | firstPart {front : Bytes} : Passage .preamble (front ++ crlf) (.partHeader 0)
  | partData {front mark : Bytes} (real : mark ≠ []) : Passage .partData (front ++ mark) .partEnd
  | nextPart : Passage .partEnd crlf (.partHeader 0)
  | lastPart : Passage .partEnd dashes (.epilogue false)
  | epilogue {data : Bytes} (opened : Bool) : Passage (.epilogue opened) data .done

inductive Wait : Phase → Phase → Prop
  | same {before after : Phase} (same : after = before) : Wait before after
  | chunkData (missing left : Nat) : Wait (.chunkData missing) (.chunkData left)
  | epilogue (opened : Bool) : Wait (.epilogue opened) (.epilogue true)

def Turn.Passes (before : Phase) (bytes : Bytes) : Turn → Prop
  | .onward _ next rest => ∃ used, bytes = used ++ rest ∧ Passage before used next.phase
  | .pause _ next _ => Wait before next.phase
  | .fault _ _ => True

section Turns

variable (r : Reader) (bytes : Bytes)

theorem startTurn_passes (phase : r.phase = .start) : (startTurn r bytes).Passes .start bytes := by
  unfold startTurn
  split
  · exact ⟨[], rfl, .skipped⟩
  · dsimp only
    split
    · exact .same phase
    · obtain ⟨used, whole⟩ := skipEmptyLines_leaves bytes
      exact ⟨used, whole.symm, .begun⟩

theorem startLineTurn_passes (phase : r.phase = .startLine) :
    (startLineTurn r bytes).Passes .startLine bytes := by
  unfold startLineTurn
  split
  · trivial
  · exact .same phase
  · rename_i line rest taken
    obtain ⟨whole, fits⟩ := takeLine_whole _ _ _ _ taken
    split
    · trivial
    · refine ⟨line ++ crlf, ?_, .startLine (takeLine_free _ _ _ _ taken) fits⟩
      rw [whole, List.append_assoc]

theorem sectionLine_passes (s : Section) {size after : Nat} {rest : Bytes} {f : Field}
    (read : sectionLine size bytes = .field f after rest) :
    ∃ used, bytes = used ++ rest ∧ Passage (s.phase size) used (s.phase after) := by
  obtain ⟨line, whole, accepted, rfl, fits⟩ := (sectionLine_field_iff _ _ _ _ _).mp read
  refine ⟨line ++ crlf, ?_, .field s accepted fits⟩
  rw [whole, List.append_assoc]

theorem headerTurn_passes {size : Nat} (phase : r.phase = .header size) :
    (headerTurn r size bytes).Passes (.header size) bytes := by
  unfold headerTurn
  split
  · trivial
  · exact .same phase
  · rename_i rest read
    obtain ⟨whole, fits⟩ := (sectionLine_closed_iff _ _ _).mp read
    split
    · trivial
    · exact ⟨crlf, whole, .headerEnd _ fits⟩
  · rename_i f after rest read
    split
    · trivial
    · exact sectionLine_passes bytes .header read

theorem trailerTurn_passes {size : Nat} (phase : r.phase = .trailer size) :
    (trailerTurn r size bytes).Passes (.trailer size) bytes := by
  unfold trailerTurn
  split
  · trivial
  · exact .same phase
  · rename_i rest read
    obtain ⟨whole, fits⟩ := (sectionLine_closed_iff _ _ _).mp read
    exact ⟨crlf, whole, .trailerEnd fits⟩
  · rename_i f after rest read
    exact sectionLine_passes bytes .trailer read

theorem bodyTurn_passes (sound : Sound r) (phase : r.phase = .body) :
    (bodyTurn r bytes).Passes .body bytes := by
  unfold bodyTurn
  dsimp only
  split
  · rename_i reached
    have all_read : r.framing.declared.map (· - (r.seen + (within r.remaining bytes).length))
        = some 0 := reached
    obtain ⟨length, declared, all_read⟩ := Option.map_eq_some_iff.mp all_read
    have before := (sound.body phase).2 length declared
    refine ⟨within r.remaining bytes, (within_append_drop _ _).symm, .body fun empty => ?_⟩
    rw [empty, List.length_nil] at all_read
    omega
  · exact .same phase

theorem chunkLineTurn_passes (phase : r.phase = .chunkLine) :
    (chunkLineTurn r bytes).Passes .chunkLine bytes := by
  unfold chunkLineTurn
  split
  · trivial
  · exact .same phase
  · rename_i line rest taken
    obtain ⟨whole, fits⟩ := takeLine_whole _ _ _ _ taken
    have free := takeLine_free _ _ _ _ taken
    rw [← List.append_assoc] at whole
    split
    · trivial
    · rename_i chunk _
      dsimp only
      split
      · trivial
      · split
        · exact ⟨_, whole, .chunkLine free fits (.inl rfl)⟩
        · rename_i sized
          exact ⟨_, whole, .chunkLine free fits (.inr ⟨chunk.size, sized, rfl⟩)⟩

theorem chunkDataTurn_passes (missing : Nat) :
    (chunkDataTurn r missing bytes).Passes (.chunkData missing) bytes := by
  unfold chunkDataTurn
  dsimp only
  split
  · exact .chunkData _ _
  · rename_i enough
    split
    · exact .chunkData _ _
    · trivial
    · rename_i rest ended
      have whole := opening_present _ _ _ ended
      have length : (bytes.take missing).length = missing :=
        Nat.le_antisymm (List.length_take_le _ _) (Nat.le_of_not_lt enough)
      refine ⟨bytes.take missing ++ crlf, ?_, ?_⟩
      · rw [List.append_assoc, ← whole, List.take_append_drop]
      · have passage := @Passage.chunkData (bytes.take missing)
        rwa [length] at passage

theorem partHeaderTurn_passes {size : Nat} (phase : r.phase = .partHeader size) :
    (partHeaderTurn r size bytes).Passes (.partHeader size) bytes := by
  unfold partHeaderTurn
  split
  · trivial
  · exact .same phase
  · rename_i rest read
    obtain ⟨whole, fits⟩ := (sectionLine_closed_iff _ _ _).mp read
    exact ⟨crlf, whole, .partHeaderEnd fits⟩
  · rename_i f after rest read
    exact sectionLine_passes bytes (.part r.index) read

theorem afterFirst_passes (phase : r.phase = .preamble) (told : List Event) (back : Bytes)
    {front rest : Bytes} (whole : bytes = front ++ rest) :
    (afterFirst r told back rest).Passes .preamble bytes := by
  unfold afterFirst
  split
  · rename_i left ended
    refine ⟨front ++ crlf, ?_, .firstPart⟩
    rw [whole, closing_part _ _ ended, List.append_assoc]
  · trivial
  · exact .same phase
  · trivial

theorem preambleTurn_passes (phase : r.phase = .preamble) :
    (preambleTurn r bytes).Passes .preamble bytes := by
  unfold preambleTurn
  split
  · rename_i rest begun
    split at begun
    · exact afterFirst_passes r bytes phase _ _ (opening_present _ _ _ begun)
    · cases begun
  · exact .same phase
  · split
    · exact .same phase
    · rename_i data rest sought
      have whole : bytes = (data ++ r.framing.delimiter) ++ rest := by
        rw [seek_found _ _ _ _ sought, List.append_assoc]
      exact afterFirst_passes r bytes phase _ _ whole

theorem partDataTurn_passes (phase : r.phase = .partData) :
    (partDataTurn r bytes).Passes .partData bytes := by
  have real : r.framing.delimiter ≠ [] :=
    List.ne_nil_of_length_pos (Nat.lt_of_lt_of_le (by decide) r.framing.delimiter_length)
  unfold partDataTurn
  split
  · exact .same phase
  · rename_i data rest sought
    refine ⟨data ++ r.framing.delimiter, ?_, .partData real⟩
    rw [seek_found _ _ _ _ sought, List.append_assoc]

theorem partEndTurn_passes (phase : r.phase = .partEnd) :
    (partEndTurn r bytes).Passes .partEnd bytes := by
  unfold partEndTurn
  split
  · rename_i ended
    exact ⟨crlf, closing_part _ _ ended, .nextPart⟩
  · rename_i ended
    exact ⟨dashes, closing_last _ _ ended, .lastPart⟩
  · exact .same phase
  · trivial

theorem drain_passes (whole data : Bytes) (opened : Bool) :
    (drain r whole data).Passes (.epilogue opened) bytes := by
  unfold drain
  split
  · exact .epilogue opened
  · exact ⟨bytes, (List.append_nil bytes).symm, .epilogue opened⟩

theorem epilogueTurn_passes {opened : Bool} (phase : r.phase = .epilogue opened) :
    (epilogueTurn r opened bytes).Passes (.epilogue opened) bytes := by
  unfold epilogueTurn
  split
  · exact drain_passes r bytes _ _ _
  · split
    · exact drain_passes r bytes _ _ _
    · split
      · exact .same phase
      · exact drain_passes r bytes _ _ _
    · exact drain_passes r bytes _ _ _

theorem inBody_passes (f : Reader → Bytes → Turn) {before : Phase}
    (inner : ∀ own, (f r own).Passes before own) : (inBody r f bytes).Passes before bytes := by
  have passes := inner (within r.remaining bytes)
  rw [inBody_eq]
  cases ran : f r (within r.remaining bytes) with
  | onward told next rest =>
    rw [ran] at passes
    obtain ⟨used, own, passage⟩ := passes
    refine ⟨used, ?_, passage⟩
    rw [← List.append_assoc, ← own, within_append_drop]
  | fault told e => trivial
  | pause told next rest =>
    rw [ran] at passes
    unfold Turn.enclose
    dsimp only
    split
    · trivial
    · exact passes

theorem turn_passes (sound : r.phase = .body → Sound r) : (turn r bytes).Passes r.phase bytes := by
  unfold turn
  cases phase : r.phase with
  | start => exact startTurn_passes r bytes phase
  | startLine => exact startLineTurn_passes r bytes phase
  | header size => exact headerTurn_passes r bytes phase
  | body => exact bodyTurn_passes r bytes (sound phase) phase
  | chunkLine => exact chunkLineTurn_passes r bytes phase
  | chunkData missing => exact chunkDataTurn_passes r bytes missing
  | trailer size => exact trailerTurn_passes r bytes phase
  | preamble => exact inBody_passes r bytes _ fun own => preambleTurn_passes r own phase
  | partHeader size => exact inBody_passes r bytes _ fun own => partHeaderTurn_passes r own phase
  | partData => exact inBody_passes r bytes _ fun own => partDataTurn_passes r own phase
  | partEnd => exact inBody_passes r bytes _ fun own => partEndTurn_passes r own phase
  | epilogue opened => exact inBody_passes r bytes _ fun own => epilogueTurn_passes r own phase
  | done => exact .same phase

end Turns

theorem turn_waits {r next : Reader} {bytes rest : Bytes} {told : List Event}
    (ran : turn r bytes = .pause told next rest) : Wait r.phase next.phase := by
  by_cases body : r.phase = .body
  · simp only [turn, body, bodyTurn] at ran
    split at ran <;> cases ran
    exact .same body.symm
  · have passes := turn_passes r bytes fun here => absurd here body
    rw [ran] at passes
    exact passes

section Ways

variable {before after : Phase} {used : Bytes}

-- No way leads back to the first phase, and none from the last.
theorem Passage.ahead (passage : Passage before used after) : before ≠ .done ∧ after ≠ .start := by
  cases passage with
  | field s => cases s <;> exact ⟨nofun, nofun⟩
  | headerEnd format => cases format <;> exact ⟨nofun, nofun⟩
  | chunkLine _ _ sized => rcases sized with rfl | ⟨size, _, rfl⟩ <;> exact ⟨nofun, nofun⟩
  | _ => exact ⟨nofun, nofun⟩

theorem Passage.spends (passage : Passage before used after) :
    used ≠ [] ∨ before = .start ∨ (∃ opened, before = .epilogue opened) ∧ after = .done := by
  cases passage with
  | skipped => exact .inr (.inl rfl)
  | begun => exact .inr (.inl rfl)
  | body some_left => exact .inl some_left
  | epilogue opened => exact .inr (.inr ⟨⟨opened, rfl⟩, rfl⟩)
  | partData real => exact .inl (List.append_ne_nil_of_right_ne_nil _ real)
  | headerEnd | partHeaderEnd | trailerEnd | nextPart | lastPart => exact .inl (by decide)
  | _ => exact .inl (List.append_ne_nil_of_right_ne_nil _ (by decide))

end Ways

end Reader
end HttpWire
