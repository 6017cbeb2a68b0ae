import HttpWire.Proofs.FieldSection
import HttpWire.Proofs.Fragments
import HttpWire.Proofs.Passages

-- A turn that goes on depends on the bytes it has used and on none behind them.
namespace HttpWire

section Marks

variable {α : Type} [DecidableEq α]

theorem cutMark_alone (mark xs l r : List α) (found : cutMark mark xs = some (l, r)) :
    cutMark mark (l ++ mark) = some (l, []) := by
  induction xs generalizing l with
  | nil =>
    unfold cutMark at found
    split at found
    · rename_i here
      cases found
      have empty : mark = [] := by simpa using List.isPrefixOf_iff_prefix.mp here
      subst empty
      rfl
    · cases found
  | cons x xs ih =>
    unfold cutMark at found
    split at found
    · cases found
      cases mark with
      | nil => rfl
      | cons m ms =>
        rw [List.nil_append, cutMark, if_pos (by simp)]
        simp
    · rename_i elsewhere
      cases inner : cutMark mark xs with
      | none => simp [inner] at found
      | some sides =>
        simp only [inner, Option.map_some, Option.some.injEq, Prod.mk.injEq] at found
        obtain ⟨rfl, rfl⟩ := found
        have whole := cutMark_eq mark xs sides.1 sides.2 inner
        -- The mark does not begin here without what stands behind it either.
        have still : ¬ mark.isPrefixOf (x :: (sides.1 ++ mark)) = true := by
          intro early
          apply elsewhere
          refine List.isPrefixOf_iff_prefix.mpr ((List.isPrefixOf_iff_prefix.mp early).trans ?_)
          exact ⟨sides.2, by rw [whole]; simp⟩
        rw [List.cons_append, cutMark, if_neg still, ih sides.1 inner]
        rfl

theorem seek_behind (mark bytes data rest other : Bytes)
    (sought : seek mark bytes = .found data rest) :
    seek mark (data ++ (mark ++ other)) = .found data other := by
  have alone : cutMark mark (data ++ mark) = some (data, []) := by
    unfold seek at sought
    split at sought
    · rename_i cut
      cases sought
      exact cutMark_alone mark bytes data rest cut
    · cases sought
  have cut := cutMark_append mark (data ++ mark) data [] other alone
  rw [List.append_assoc, List.nil_append] at cut
  rw [seek, cut]

theorem takeLine_behind (room : Nat) (bytes line rest other : Bytes)
    (taken : takeLine room bytes = .whole line rest) :
    takeLine room (line ++ (crlf ++ other)) = .whole line other :=
  takeLine_line room line other (takeLine_free room bytes line rest taken)
    (takeLine_whole room bytes line rest taken).2

-- Bytes as long as a mark tell that they do not begin with it.
theorem opening_absent_behind (mark spent rest other : Bytes) (long : mark.length ≤ spent.length)
    (absent : opening mark (spent ++ rest) = .absent) : opening mark (spent ++ other) = .absent := by
  cases begun : opening mark spent with
  | present after =>
    rw [opening_append_present mark spent rest after begun] at absent
    cases absent
  | undecided =>
    obtain ⟨inside, unlike⟩ := opening_undecided mark spent begun
    have same : spent = mark := inside.eq_of_length (Nat.le_antisymm inside.length_le long)
    exact absurd (by rw [same]) unlike
  | absent => exact opening_append_absent mark spent other begun

theorem within_front {limit : Option Nat} {bytes front tail : Bytes}
    (own : within limit bytes = front ++ tail) : within limit front = front := by
  cases limit with
  | none => rfl
  | some n =>
    have short := congrArg List.length own
    simp only [within, List.length_take, List.length_append] at short
    exact List.take_of_length_le (by omega)

end Marks

namespace Reader

def SelfContained (f : Bytes → Turn) : Prop :=
  ∀ bytes told next rest, f bytes = .onward told next rest →
    ∃ spent, bytes = spent ++ rest ∧ ∀ other, f (spent ++ other) = .onward told next other

section Turns

variable (r : Reader)

theorem startLineTurn_selfContained : SelfContained (startLineTurn r) := by
  intro bytes told next rest went
  unfold startLineTurn at went
  split at went
  · cases went
  · cases went
  · rename_i line left taken
    split at went
    · cases went
    · rename_i start read
      cases went
      refine ⟨line ++ crlf, ?_, fun other => ?_⟩
      · rw [List.append_assoc]
        exact (takeLine_whole _ _ _ _ taken).1
      · rw [List.append_assoc, startLineTurn, takeLine_behind _ _ _ _ other taken]
        simp only [read]

theorem chunkLineTurn_selfContained : SelfContained (chunkLineTurn r) := by
  intro bytes told next rest went
  unfold chunkLineTurn at went
  split at went
  · cases went
  · cases went
  · rename_i line left taken
    refine ⟨line ++ crlf, ?_, fun other => ?_⟩
    · rw [List.append_assoc, (takeLine_whole _ _ _ _ taken).1]
      split at went
      · cases went
      · dsimp only at went
        split at went
        · cases went
        · split at went <;> cases went <;> rfl
    · rw [List.append_assoc, chunkLineTurn, takeLine_behind _ _ _ _ other taken]
      dsimp only
      split at went
      · cases went
      · dsimp only at went ⊢
        split at went
        · cases went
        · split at went
          · rename_i zero
            cases went
            rw [if_pos zero]
          · rename_i some
            cases went
            rw [if_neg some]

theorem sectionLine_field_behind {size after : Nat} {bytes rest : Bytes} {f : Field}
    (line : sectionLine size bytes = .field f after rest) :
    ∃ spent, bytes = spent ++ rest ∧
      ∀ other, sectionLine size (spent ++ other) = .field f after other := by
  obtain ⟨text, whole, read, size', fits⟩ := (sectionLine_field_iff size after bytes rest f).mp line
  refine ⟨text ++ crlf, ?_, fun other => ?_⟩
  · rw [List.append_assoc, whole]
  · rw [List.append_assoc, sectionLine_field_iff]
    exact ⟨text, rfl, read, size', fits⟩

theorem sectionLine_closed_behind {size : Nat} {bytes rest : Bytes}
    (line : sectionLine size bytes = .closed rest) :
    bytes = crlf ++ rest ∧ ∀ other, sectionLine size (crlf ++ other) = .closed other := by
  obtain ⟨whole, fits⟩ := (sectionLine_closed_iff size bytes rest).mp line
  exact ⟨whole, fun other => (sectionLine_closed_iff size _ other).mpr ⟨rfl, fits⟩⟩

theorem headerTurn_selfContained (size : Nat) : SelfContained (headerTurn r size) := by
  intro bytes told next rest went
  unfold headerTurn at went
  split at went
  · cases went
  · cases went
  · rename_i left line
    obtain ⟨whole, again⟩ := sectionLine_closed_behind line
    split at went
    · cases went
    · rename_i settled
      cases went
      refine ⟨crlf, whole, fun other => ?_⟩
      simp only [headerTurn, again, settled]
  · rename_i f after left line
    obtain ⟨spent, whole, again⟩ := sectionLine_field_behind line
    split at went
    · cases went
    · rename_i noted
      cases went
      refine ⟨spent, whole, fun other => ?_⟩
      simp only [headerTurn, again, noted]

theorem trailerTurn_selfContained (size : Nat) : SelfContained (trailerTurn r size) := by
  intro bytes told next rest went
  unfold trailerTurn at went
  split at went
  · cases went
  · cases went
  · rename_i left line
    obtain ⟨whole, again⟩ := sectionLine_closed_behind line
    cases went
    refine ⟨crlf, whole, fun other => ?_⟩
    simp only [trailerTurn, again]
  · rename_i f after left line
    obtain ⟨spent, whole, again⟩ := sectionLine_field_behind line
    cases went
    refine ⟨spent, whole, fun other => ?_⟩
    simp only [trailerTurn, again]

theorem partHeaderTurn_selfContained (size : Nat) : SelfContained (partHeaderTurn r size) := by
  intro bytes told next rest went
  unfold partHeaderTurn at went
  split at went
  · cases went
  · cases went
  · rename_i left line
    obtain ⟨whole, again⟩ := sectionLine_closed_behind line
    cases went
    refine ⟨crlf, whole, fun other => ?_⟩
    simp only [partHeaderTurn, again]
  · rename_i f after left line
    obtain ⟨spent, whole, again⟩ := sectionLine_field_behind line
    cases went
    refine ⟨spent, whole, fun other => ?_⟩
    simp only [partHeaderTurn, again]

-- A body of data goes on once all the bytes it lacks are there, and takes no others.
theorem bodyTurn_selfContained : SelfContained (bodyTurn r) := by
  intro bytes told next rest went
  unfold bodyTurn at went
  dsimp only at went
  split at went
  · rename_i reached
    cases went
    have left : r.remaining.map (· - (within r.remaining bytes).length) = some 0 := by
      rw [← reached]
      simp [remaining, Function.comp_def, Nat.sub_sub]
    refine ⟨within r.remaining bytes, (within_append_drop r.remaining bytes).symm, fun other => ?_⟩
    have front := within_front (List.append_nil (within r.remaining bytes)).symm
    have same := within_reached r.remaining (within r.remaining bytes) other (by rwa [front])
    rw [front] at same
    unfold bodyTurn
    dsimp only
    rw [same, if_pos reached, List.drop_left]
  · cases went

theorem chunkDataTurn_selfContained (missing : Nat) : SelfContained (chunkDataTurn r missing) := by
  intro bytes told next rest went
  unfold chunkDataTurn at went
  dsimp only at went
  split at went
  · cases went
  · rename_i full
    split at went
    · cases went
    · cases went
    · rename_i after begun
      cases went
      have behind := opening_present crlf _ rest begun
      have long : (bytes.take missing).length = missing := by
        have most := List.length_take_le missing bytes
        omega
      refine ⟨bytes.take missing ++ crlf, ?_, fun other => ?_⟩
      · rw [List.append_assoc, ← behind, List.take_append_drop]
      · have data : (bytes.take missing ++ crlf ++ other).take missing = bytes.take missing := by
          rw [List.append_assoc]
          exact List.take_left' long
        have later : (bytes.take missing ++ crlf ++ other).drop missing = crlf ++ other := by
          rw [List.append_assoc]
          exact List.drop_left' long
        unfold chunkDataTurn
        dsimp only
        rw [data, later, if_neg full, opening_mark]

theorem partDataTurn_selfContained : SelfContained (partDataTurn r) := by
  intro bytes told next rest went
  unfold partDataTurn at went
  split at went
  · cases went
  · rename_i data left sought
    cases went
    refine ⟨data ++ r.framing.delimiter, ?_, fun other => ?_⟩
    · rw [List.append_assoc]
      exact seek_found _ _ _ _ sought
    · rw [List.append_assoc, partDataTurn, seek_behind _ _ _ _ other sought]

theorem closing_crlf (other : Bytes) : closing (crlf ++ other) = .part other := by
  rw [closing, opening_mark]

theorem closing_dashes (other : Bytes) : closing (dashes ++ other) = .last other := rfl

theorem partEndTurn_selfContained : SelfContained (partEndTurn r) := by
  intro bytes told next rest went
  unfold partEndTurn at went
  split at went
  · rename_i left ended
    cases went
    exact ⟨crlf, closing_part _ _ ended, fun other => by rw [partEndTurn, closing_crlf]⟩
  · rename_i left ended
    cases went
    exact ⟨dashes, closing_last _ _ ended, fun other => by rw [partEndTurn, closing_dashes]⟩
  · cases went
  · cases went

theorem afterFirst_behind {told now : List Event} {back after rest : Bytes} {next : Reader}
    (went : afterFirst r told back after = .onward now next rest) :
    after = crlf ++ rest ∧
      ∀ again other, afterFirst r told again (crlf ++ other) = .onward now next other := by
  unfold afterFirst at went
  split at went
  · rename_i left ended
    cases went
    exact ⟨closing_part _ _ ended, fun again other => by rw [afterFirst, closing_crlf]⟩
  · cases went
  · cases went
  · cases went

-- The boundary and its end are longer than what may open a body, so they also tell that nothing
-- else did.
theorem preambleTurn_selfContained : SelfContained (preambleTurn r) := by
  intro bytes told next rest went
  rw [preambleTurn_eq] at went
  cases begun : beginning r bytes with
  | undecided =>
    rw [begun] at went
    cases went
  | present after =>
    rw [begun] at went
    obtain ⟨ended, again⟩ := afterFirst_behind r went
    unfold beginning at begun
    split at begun
    · rename_i first
      have whole := opening_present _ _ _ begun
      refine ⟨r.framing.opener ++ crlf, ?_, fun other => ?_⟩
      · rw [whole, ended, List.append_assoc]
      · have here : beginning r (r.framing.opener ++ crlf ++ other) = .present (crlf ++ other) := by
          rw [beginning, if_pos first, List.append_assoc, opening_mark]
        rw [preambleTurn_eq, here]
        exact again _ other
    · cases begun
  | absent =>
    rw [begun] at went
    dsimp only at went
    split at went
    · cases went
    · rename_i data after sought
      obtain ⟨ended, again⟩ := afterFirst_behind r went
      have whole := seek_found _ _ _ _ sought
      rw [ended] at whole
      refine ⟨data ++ (r.framing.delimiter ++ crlf), ?_, fun other => ?_⟩
      · rw [whole]
        simp only [List.append_assoc]
      · have still : beginning r (data ++ (r.framing.delimiter ++ crlf) ++ other) = .absent := by
          unfold beginning at begun ⊢
          by_cases first : r.seen = 0
          · rw [if_pos first] at begun ⊢
            refine opening_absent_behind _ _ rest other ?_ ?_
            · simp only [Framing.delimiter, List.length_append]
              omega
            · rw [← begun, whole]
              simp only [List.append_assoc]
          · exact if_neg first
        have found : seek r.framing.delimiter (data ++ (r.framing.delimiter ++ crlf) ++ other)
            = .found data (crlf ++ other) := by
          rw [List.append_assoc, List.append_assoc]
          exact seek_behind _ _ _ _ (crlf ++ other) sought
        rw [preambleTurn_eq, still]
        simp only [found]
        exact again _ other

-- Within a body the turn also sees where the body ends.
theorem inBody_selfContained (f : Reader → Bytes → Turn) (inner : SelfContained (f r)) :
    SelfContained (inBody r f) := by
  intro bytes told next rest went
  rw [inBody_eq] at went
  have parts := within_append_drop r.remaining bytes
  cases ran : f r (within r.remaining bytes) with
  | fault told e =>
    rw [ran] at went
    cases went
  | pause told mid left =>
    rw [ran] at went
    unfold Turn.enclose at went
    dsimp only at went
    split at went <;> cases went
  | onward now mid left =>
    rw [ran] at went
    cases went
    obtain ⟨spent, own, again⟩ := inner _ _ _ _ ran
    refine ⟨spent, ?_, fun other => ?_⟩
    · rw [← List.append_assoc, ← own, parts]
    · have share : within r.remaining (spent ++ other)
          = spent ++ within (r.remaining.map (· - spent.length)) other := by
        rw [within_append, within_front own]
      have behind := within_append_drop (r.remaining.map (· - spent.length)) other
      generalize within (r.remaining.map (· - spent.length)) other = mine at share behind
      have used : (spent ++ mine).length - mine.length = (within r.remaining bytes).length - left.length := by
        rw [own]
        simp only [List.length_append]
        omega
      rw [inBody_eq, share, again mine, Turn.enclose, used, List.length_append,
        List.drop_length_add_append, behind]

theorem drain_ended {next : Reader} {whole data rest : Bytes} {told : List Event}
    (went : drain r whole data = .onward told next rest) : r.expectsMore whole = false := by
  unfold drain at went
  split at went
  · cases went
  · rename_i reached
    exact Bool.eq_false_iff.mpr reached

theorem epilogueTurn_ended {opened : Bool} {next : Reader} {bytes rest : Bytes} {told : List Event}
    (went : epilogueTurn r opened bytes = .onward told next rest) :
    rest = [] ∧ r.expectsMore bytes = false := by
  have ends : ∀ data, drain r bytes data = .onward told next rest →
      rest = [] ∧ r.expectsMore bytes = false := fun data drained =>
    ⟨(drain_onward r next bytes data rest told drained).1, drain_ended r drained⟩
  unfold epilogueTurn at went
  split at went
  · exact ends _ went
  · split at went
    · exact ends _ went
    · split at went
      · cases went
      · exact ends _ went
    · exact ends _ went

-- An epilogue ends with the body, so the body is all that it has seen.
theorem epilogue_selfContained (opened : Bool) : SelfContained (inBody r (epilogueTurn · opened ·)) := by
  intro bytes told next rest went
  rw [inBody_eq] at went
  have parts := within_append_drop r.remaining bytes
  cases ran : epilogueTurn r opened (within r.remaining bytes) with
  | fault told e =>
    rw [ran] at went
    cases went
  | pause told mid left =>
    rw [ran] at went
    unfold Turn.enclose at went
    dsimp only at went
    split at went <;> cases went
  | onward now mid left =>
    rw [ran] at went
    cases went
    obtain ⟨rfl, ended⟩ := epilogueTurn_ended r ran
    have reached : r.remaining.map (· - (within r.remaining bytes).length) = some 0 := by
      by_contra unreached
      rw [(expectsMore_iff r _).mpr unreached] at ended
      cases ended
    refine ⟨within r.remaining bytes, parts.symm, fun other => ?_⟩
    have front := within_front (List.append_nil (within r.remaining bytes)).symm
    have same := within_reached r.remaining (within r.remaining bytes) other (by rwa [front])
    rw [front] at same
    rw [inBody_eq, same, ran, Turn.enclose, List.drop_left]
    rfl

theorem turn_selfContained (late : r.phase ≠ .start) : SelfContained (turn r) := by
  intro bytes told next rest went
  unfold turn at went ⊢
  cases phase : r.phase with
  | start => exact absurd phase late
  | startLine => simp only [phase] at went ⊢; exact startLineTurn_selfContained r _ _ _ _ went
  | header size => simp only [phase] at went ⊢; exact headerTurn_selfContained r size _ _ _ _ went
  | body => simp only [phase] at went ⊢; exact bodyTurn_selfContained r _ _ _ _ went
  | chunkLine => simp only [phase] at went ⊢; exact chunkLineTurn_selfContained r _ _ _ _ went
  | chunkData missing =>
    simp only [phase] at went ⊢
    exact chunkDataTurn_selfContained r missing _ _ _ _ went
  | trailer size => simp only [phase] at went ⊢; exact trailerTurn_selfContained r size _ _ _ _ went
  | preamble =>
    simp only [phase] at went ⊢
    exact inBody_selfContained r _ (preambleTurn_selfContained r) _ _ _ _ went
  | partHeader size =>
    simp only [phase] at went ⊢
    exact inBody_selfContained r (partHeaderTurn · size ·) (partHeaderTurn_selfContained r size)
      _ _ _ _ went
  | partData =>
    simp only [phase] at went ⊢
    exact inBody_selfContained r _ (partDataTurn_selfContained r) _ _ _ _ went
  | partEnd =>
    simp only [phase] at went ⊢
    exact inBody_selfContained r _ (partEndTurn_selfContained r) _ _ _ _ went
  | epilogue opened =>
    simp only [phase] at went ⊢
    exact epilogue_selfContained r opened _ _ _ _ went
  | done =>
    simp only [phase] at went
    cases went

end Turns

section Messages

-- That all empty lines have been skipped is told by what follows them, so that must be there.
theorem skipEmptyLines_behind (bytes : Bytes) :
    ∃ spent, bytes = spent ++ skipEmptyLines bytes ∧
      ∀ other, skipEmptyLines (spent ++ other) = skipEmptyLines other := by
  fun_induction skipEmptyLines bytes with
  | case1 => exact ⟨[], rfl, fun _ => rfl⟩
  | case2 => exact ⟨[], rfl, fun _ => rfl⟩
  | case3 a b rest line ih =>
    obtain ⟨spent, whole, again⟩ := ih
    refine ⟨a :: b :: spent, ?_, fun other => ?_⟩
    · rw [List.cons_append, List.cons_append, ← whole]
    · rw [List.cons_append, List.cons_append, skipEmptyLines, if_pos line, again]
  | case4 => exact ⟨[], rfl, fun _ => rfl⟩

variable {r : Reader}

theorem startTurn_behind {bytes rest : Bytes} {told : List Event} {next : Reader}
    (went : startTurn r bytes = .onward told next rest) :
    ∃ spent, bytes = spent ++ rest ∧
      ((∀ other, startTurn r (spent ++ other) = .onward told next other) ∨
        next.phase = .startLine ∧ opening crlf rest = .absent ∧
          ∀ other, opening crlf other = .absent →
            startTurn r (spent ++ other) = .onward told next other) := by
  unfold startTurn at went
  split at went
  · rename_i skip
    cases went
    exact ⟨[], rfl, .inl fun other => by rw [startTurn, if_pos skip, List.nil_append]⟩
  · rename_i start
    dsimp only at went
    obtain ⟨spent, whole, again⟩ := skipEmptyLines_behind bytes
    cases begun : opening crlf (skipEmptyLines bytes) with
    | present after => exact absurd begun (skipEmptyLines_present bytes after)
    | undecided =>
      rw [begun] at went
      cases went
    | absent =>
      rw [begun] at went
      cases went
      refine ⟨spent, whole, .inr ⟨rfl, begun, fun other absent => ?_⟩⟩
      rw [startTurn, if_neg start]
      simp only [again, skipEmptyLines_absent other absent, absent]

theorem Wait.unfinished {before after : Phase} (waits : Wait before after)
    (going : before ≠ .done) : after ≠ .done := by
  cases waits with
  | same same => rwa [same]
  | chunkData => nofun
  | epilogue => nofun

theorem startLine_length {bytes : Bytes} {x : Reading} (phase : r.phase = .startLine)
    (ran : (scan r bytes).result = .ok x) (ended : x.reader.phase = .done) : 2 ≤ bytes.length := by
  cases went : turn r bytes with
  | fault now e =>
    rw [scan_fault _ _ _ _ went] at ran
    cases ran
  | pause now next rest =>
    rw [scan_pause _ _ _ _ _ went] at ran
    cases ran
    exact absurd ended ((turn_waits went).unfinished (by rw [phase]; decide))
  | onward now next rest =>
    simp only [turn, phase, startLineTurn] at went
    split at went
    · cases went
    · cases went
    · rename_i taken
      have short := takeLine_rest _ _ _ _ taken
      omega

-- Where a line must come next, the bytes used tell that it is not empty.
theorem turn_behind {next : Reader} {bytes mine left : Bytes} {told : List Event}
    (went : turn r bytes = .onward told next (mine ++ left))
    (long : next.phase = .startLine → 2 ≤ mine.length) :
    ∃ spent, bytes = spent ++ (mine ++ left) ∧
      ∀ other, turn r (spent ++ (mine ++ other)) = .onward told next (mine ++ other) := by
  by_cases first : r.phase = .start
  · have here : ∀ input, turn r input = startTurn r input := fun input => by
      simp only [turn, first]
    rw [here] at went
    obtain ⟨spent, whole, again | ⟨line, absent, again⟩⟩ := startTurn_behind went
    · exact ⟨spent, whole, fun other => by rw [here, again]⟩
    · refine ⟨spent, whole, fun other => ?_⟩
      rw [here, again _ (opening_absent_behind crlf mine left other (long line) absent)]
  · obtain ⟨spent, whole, again⟩ := turn_selfContained r first _ _ _ _ went
    exact ⟨spent, whole, fun other => again _⟩

theorem complete_behind (r : Reader) (bytes : Bytes) (x : Reading)
    (ran : (scan r bytes).result = .ok x) (ended : x.reader.phase = .done) :
    ∃ spent, bytes = spent ++ x.rest ∧
      ∀ other, scan r (spent ++ other) = ⟨(scan r bytes).events, .ok ⟨x.reader, other⟩⟩ := by
  fun_induction scan r bytes with
  | case1 r bytes now next rest went later ih =>
    obtain ⟨mine, left, after⟩ := ih ran
    -- Where a start line must come next, the rest of the message is long enough to tell.
    have long : next.phase = .startLine → 2 ≤ mine.length := by
      intro line
      have alone := after []
      rw [List.append_nil] at alone
      exact startLine_length line (congrArg Scan.result alone) ended
    rw [left] at went
    obtain ⟨spent, whole, again⟩ := turn_behind went long
    refine ⟨spent ++ mine, ?_, fun other => ?_⟩
    · rw [whole, List.append_assoc]
    · rw [List.append_assoc, scan_onward _ _ _ _ _ (again other), after]
  | case2 r bytes now next rest went =>
    cases ran
    have before : r.phase = .done := by
      by_contra unfinished
      exact (turn_waits went).unfinished unfinished ended
    simp only [turn, before] at went
    cases went
    exact ⟨[], rfl, fun other => by rw [List.nil_append, scan_done ended]⟩
  | case3 => cases ran

-- With anything else behind its bytes, or with nothing, the reader tells the same and ends in the
-- same state. No shorter beginning of the buffer is a complete message.
theorem message_self_delimiting {σ : Type} (skip : Bool) (handler : Handler σ) (s t : σ)
    (bytes : Bytes) (x : Reading)
    (ran : Reader.read { skipStartLine := skip } handler s bytes = (t, .ok x))
    (complete : x.progress = .complete) :
    let fresh : Reader := { skipStartLine := skip }
    let used := x.used bytes
    x.reader.consumed = used ∧
      (∀ more, fresh.read handler s (bytes.take used ++ more) = (t, .ok ⟨x.reader, more⟩)) ∧
      ∀ n < used, ∀ u y, fresh.read handler s (bytes.take n) = (u, .ok y) → y.progress ≠ .complete := by
  intro fresh used
  have count : x.reader.consumed = used := by simpa using read_consumed ran
  obtain ⟨taken, y, scanned, rfl⟩ := read_taken ran
  have ended : y.reader.phase = .done := (progress_complete _).mp complete
  obtain ⟨spent, whole, again⟩ := complete_behind fresh bytes y scanned ended
  have length : used = spent.length := by
    simp only [used, Reading.used, Reading.counted]
    rw [whole, List.length_append]
    omega
  have front : bytes.take used = spent := by rw [length, whole, List.take_left]
  refine ⟨count, fun more => ?_, fun n short u z early done => ?_⟩
  · have behind : Reading.counted ⟨y.reader, more⟩ (spent ++ more)
        = ⟨(y.counted bytes).reader, more⟩ := by
      have same : (spent ++ more).length - more.length = bytes.length - y.rest.length := by
        rw [whole]
        simp only [List.length_append]
        omega
      simp only [Reading.counted, Reading.used, same]
    rw [front, read, again more]
    dsimp only
    rw [taken]
    dsimp only [Except.map]
    rw [behind]
  · obtain ⟨_, w, scanned', rfl⟩ := read_taken early
    have ended' : w.reader.phase = .done := (progress_complete _).mp done
    obtain ⟨spent', whole', again'⟩ := complete_behind fresh _ w scanned' ended'
    -- A shorter message would be the same one with more behind it, and leave more than there is.
    have reread := again' (w.rest ++ bytes.drop n)
    rw [← List.append_assoc, ← whole', List.take_append_drop] at reread
    have same := congrArg Scan.result reread
    rw [scanned] at same
    cases same
    have most : bytes.length - n ≤ (w.rest ++ bytes.drop n).length := by
      simp only [List.length_append, List.length_drop]
      omega
    have all := congrArg List.length whole
    simp only [List.length_append] at all most
    omega

theorem multipart_self_delimiting :
    let message := ascii
      ("POST / HTTP/1.1\r\nContent-Type: multipart/mixed; boundary=q\r\nContent-Length: 18\r\n\r\n"
        ++ "--q\r\n\r\nhi\r\n--q--\r\n")
    ∃ t x, Reader.read {} Handler.record #[] (message ++ ascii "\r\n--q\r\n") = (t, .ok x) ∧
      x.progress = .complete ∧ x.rest = ascii "\r\n--q\r\n" ∧
      (∀ more, Reader.read {} Handler.record #[] (message ++ more) = (t, .ok ⟨x.reader, more⟩)) ∧
      ∀ n < message.length, ∀ u y,
        Reader.read {} Handler.record #[] (message.take n) = (u, .ok y) → y.progress ≠ .complete := by
  intro message
  let x : Reading :=
    ⟨{ phase := .done, sender := .client .post,
       framing := ⟨.multipart, some 18, some (ascii "q")⟩, seen := 18, index := 1,
       consumed := message.length }, ascii "\r\n--q\r\n"⟩
  have ended : (Reader.read {} Handler.record #[] (message ++ ascii "\r\n--q\r\n")).2 = .ok x := by
    decide +kernel
  have ran : Reader.read {} Handler.record #[] (message ++ ascii "\r\n--q\r\n") = (_, .ok x) :=
    Prod.ext rfl ended
  have used : x.used (message ++ ascii "\r\n--q\r\n") = message.length := by decide
  have front : ∀ n ≤ message.length,
      (message ++ ascii "\r\n--q\r\n").take n = message.take n := fun n short =>
    List.take_append_of_le_length short
  obtain ⟨_, again, shorter⟩ := message_self_delimiting false Handler.record #[] _ _ x ran rfl
  rw [used] at again shorter
  refine ⟨_, x, ran, rfl, rfl, fun more => ?_, fun n short u y early => ?_⟩
  · have alone := again more
    rwa [front _ (Nat.le_refl _), List.take_length] at alone
  · exact shorter n short u y (by rwa [front n (Nat.le_of_lt short)])

end Messages

end Reader
end HttpWire
