import HttpWire.Proofs.Marks
import HttpWire.Reader.Read

-- Bytes are used in order, and those that are presented again are the ones that come next.
namespace HttpWire.Reader

def Turn.Leaves (bytes : Bytes) : Turn → Prop
  | .onward _ _ rest => rest <:+ bytes
  | .pause _ _ rest => rest <:+ bytes
  | .fault _ _ => True

theorem suffix_after {bytes front mark rest : Bytes} (whole : bytes = front ++ (mark ++ rest)) :
    rest <:+ bytes := by
  rw [whole, ← List.append_assoc]
  exact List.suffix_append (front ++ mark) rest

theorem skipEmptyLines_leaves (bytes : Bytes) : skipEmptyLines bytes <:+ bytes := by
  fun_induction skipEmptyLines bytes with
  | case1 => exact List.suffix_refl _
  | case2 => exact List.suffix_refl _
  | case3 a b rest _ ih => exact ih.trans (List.suffix_append [a, b] rest)
  | case4 => exact List.suffix_refl _

theorem takeLine_leaves (room : Nat) (bytes line rest : Bytes)
    (taken : takeLine room bytes = .whole line rest) : rest <:+ bytes :=
  suffix_after (takeLine_whole room bytes line rest taken).1

theorem sectionLine_field_leaves (size after : Nat) (bytes rest : Bytes) (f : Field)
    (line : sectionLine size bytes = .field f after rest) : rest <:+ bytes := by
  unfold sectionLine at line
  split at line
  · cases line
  · cases line
  · cases line
  · rename_i taken
    split at line
    · cases line
    · cases line
      exact takeLine_leaves _ _ _ _ taken

theorem sectionLine_closed_leaves (size : Nat) (bytes rest : Bytes)
    (line : sectionLine size bytes = .closed rest) : rest <:+ bytes := by
  unfold sectionLine at line
  split at line
  · cases line
  · cases line
  · rename_i taken
    cases line
    exact takeLine_leaves _ _ _ _ taken
  · split at line <;> cases line

section Turns

variable (r : Reader) (bytes : Bytes)

theorem startTurn_leaves : (startTurn r bytes).Leaves bytes := by
  unfold startTurn
  split
  · exact List.suffix_refl bytes
  · dsimp only
    split <;> exact skipEmptyLines_leaves bytes

theorem startLineTurn_leaves : (startLineTurn r bytes).Leaves bytes := by
  unfold startLineTurn
  split
  · trivial
  · exact List.suffix_refl bytes
  · rename_i taken
    split
    · trivial
    · exact takeLine_leaves _ _ _ _ taken

theorem headerTurn_leaves (size : Nat) : (headerTurn r size bytes).Leaves bytes := by
  unfold headerTurn
  split
  · trivial
  · exact List.suffix_refl bytes
  · rename_i line
    split
    · trivial
    · exact sectionLine_closed_leaves _ _ _ line
  · rename_i line
    split
    · trivial
    · exact sectionLine_field_leaves _ _ _ _ _ line

theorem trailerTurn_leaves (size : Nat) : (trailerTurn r size bytes).Leaves bytes := by
  unfold trailerTurn
  split
  · trivial
  · exact List.suffix_refl bytes
  · rename_i line
    exact sectionLine_closed_leaves _ _ _ line
  · rename_i line
    exact sectionLine_field_leaves _ _ _ _ _ line

theorem partHeaderTurn_leaves (size : Nat) : (partHeaderTurn r size bytes).Leaves bytes := by
  unfold partHeaderTurn
  split
  · trivial
  · exact List.suffix_refl bytes
  · rename_i line
    exact sectionLine_closed_leaves _ _ _ line
  · rename_i line
    exact sectionLine_field_leaves _ _ _ _ _ line

theorem bodyTurn_leaves : (bodyTurn r bytes).Leaves bytes := by
  unfold bodyTurn
  dsimp only
  split <;> exact List.drop_suffix _ bytes

theorem chunkLineTurn_leaves : (chunkLineTurn r bytes).Leaves bytes := by
  unfold chunkLineTurn
  split
  · trivial
  · exact List.suffix_refl bytes
  · rename_i taken
    split
    · trivial
    · dsimp only
      split
      · trivial
      · split <;> exact takeLine_leaves _ _ _ _ taken

theorem chunkDataTurn_leaves (missing : Nat) : (chunkDataTurn r missing bytes).Leaves bytes := by
  unfold chunkDataTurn
  dsimp only
  split
  · exact List.drop_suffix missing bytes
  · split
    · exact List.drop_suffix missing bytes
    · trivial
    · rename_i rest begun
      have ended := opening_present crlf _ rest begun
      have after : rest <:+ bytes.drop missing := by
        rw [ended]
        exact List.suffix_append crlf rest
      exact after.trans (List.drop_suffix missing bytes)

theorem closing_leaves (rest : Bytes)
    (after : closing bytes = .part rest ∨ closing bytes = .last rest) : rest <:+ bytes := by
  rcases after with part | last
  · rw [closing_part bytes rest part]
    exact List.suffix_append crlf rest
  · rw [closing_last bytes rest last]
    exact List.suffix_append dashes rest

theorem afterFirst_leaves (told : List Event) (back rest : Bytes) (behind : rest <:+ bytes)
    (kept : back <:+ bytes) : (afterFirst r told back rest).Leaves bytes := by
  unfold afterFirst
  split
  · rename_i after ended
    exact (closing_leaves rest after (.inl ended)).trans behind
  · trivial
  · exact kept
  · trivial

theorem preambleTurn_leaves : (preambleTurn r bytes).Leaves bytes := by
  unfold preambleTurn
  split
  · rename_i rest begun
    split at begun
    · have whole := opening_present _ _ rest begun
      exact afterFirst_leaves r bytes [] bytes rest (by rw [whole]; exact List.suffix_append _ rest)
        (List.suffix_refl bytes)
    · cases begun
  · exact List.suffix_refl bytes
  · split
    · rename_i free held sought
      rw [seek_missing _ _ free held sought]
      exact List.suffix_append free held
    · rename_i data rest sought
      have whole := seek_found _ _ data rest sought
      exact afterFirst_leaves r bytes _ _ rest (suffix_after whole)
        (by rw [whole]; exact List.suffix_append data _)

theorem partDataTurn_leaves : (partDataTurn r bytes).Leaves bytes := by
  unfold partDataTurn
  split
  · rename_i free held sought
    rw [seek_missing _ _ free held sought]
    exact List.suffix_append free held
  · rename_i data rest sought
    exact suffix_after (seek_found _ _ data rest sought)

theorem partEndTurn_leaves : (partEndTurn r bytes).Leaves bytes := by
  unfold partEndTurn
  split
  · rename_i rest ended
    exact closing_leaves bytes rest (.inl ended)
  · rename_i rest ended
    exact closing_leaves bytes rest (.inr ended)
  · exact List.suffix_refl bytes
  · trivial

theorem drain_leaves (whole data : Bytes) : (drain r whole data).Leaves bytes := by
  unfold drain
  split <;> exact List.nil_suffix

theorem epilogueTurn_leaves (opened : Bool) : (epilogueTurn r opened bytes).Leaves bytes := by
  unfold epilogueTurn
  split
  · exact drain_leaves r bytes _ _
  · split
    · exact drain_leaves r bytes _ _
    · split
      · exact List.suffix_refl bytes
      · exact drain_leaves r bytes _ _
    · exact drain_leaves r bytes _ _

theorem inBody_leaves (f : Reader → Bytes → Turn) (inner : ∀ own, (f r own).Leaves own) :
    (inBody r f bytes).Leaves bytes := by
  have whole := within_append_drop r.remaining bytes
  have outer : ∀ rest, rest <:+ within r.remaining bytes →
      rest ++ bytes.drop (within r.remaining bytes).length <:+ bytes := by
    intro rest ⟨front, own⟩
    refine ⟨front, ?_⟩
    rw [← List.append_assoc, own, whole]
  have own := inner (within r.remaining bytes)
  unfold inBody
  dsimp only
  split
  · trivial
  · rename_i ran
    rw [ran] at own
    exact outer _ own
  · rename_i ran
    rw [ran] at own
    split
    · trivial
    · exact outer _ own

theorem turn_leaves : (turn r bytes).Leaves bytes := by
  unfold turn
  split
  · exact startTurn_leaves r bytes
  · exact startLineTurn_leaves r bytes
  · exact headerTurn_leaves r bytes _
  · exact bodyTurn_leaves r bytes
  · exact chunkLineTurn_leaves r bytes
  · exact chunkDataTurn_leaves r bytes _
  · exact trailerTurn_leaves r bytes _
  · exact inBody_leaves r bytes _ (preambleTurn_leaves r)
  · exact inBody_leaves r bytes _ fun own => partHeaderTurn_leaves r own _
  · exact inBody_leaves r bytes _ (partDataTurn_leaves r)
  · exact inBody_leaves r bytes _ (partEndTurn_leaves r)
  · exact inBody_leaves r bytes _ fun own => epilogueTurn_leaves r own _
  · exact List.suffix_refl bytes

end Turns

theorem scan_leaves (r : Reader) (bytes : Bytes) (x : Reading) (ran : (scan r bytes).result = .ok x) :
    x.rest <:+ bytes := by
  fun_induction scan r bytes with
  | case1 r bytes told next rest went more ih =>
    have left := turn_leaves r bytes
    rw [went] at left
    exact (ih ran).trans left
  | case2 r bytes told next rest went =>
    have left := turn_leaves r bytes
    rw [went] at left
    cases ran
    exact left
  | case3 => cases ran

end HttpWire.Reader
