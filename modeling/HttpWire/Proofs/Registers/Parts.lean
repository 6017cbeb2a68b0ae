import HttpWire.Proofs.Registers.Agreement

-- The turns within a body in parts see the body's own bytes.
namespace HttpWire

namespace Registers

variable {σ : Type} {handler : Handler σ} {s : σ} {cur c : Cursor} {m : Registers}

structure Sound (m : Registers) : Prop extends Tidy m where
  reader : Reader.Sound m.reader

section Turns

theorem Sound.boundary_whole (sound : m.Sound) (inside : m.phase.inParts = true) :
    ∃ boundary : Bytes, m.framing.boundary = some boundary ∧ m.boundary = crlf ++ (dashes ++ boundary) ∧
      boundary ≠ [] ∧ boundary.length ≤ Framing.boundaryLimit := by
  obtain ⟨boundary, given, fits⟩ := sound.reader.boundary inside
  have shown : (if m.boundary = [] then none else some (m.boundary.drop 4)) = some boundary := given
  rcases sound.boundary with none | ⟨stored, whole⟩
  · rw [if_pos none] at shown
    cases shown
  · have real : crlf ++ (dashes ++ stored) ≠ [] := List.cons_ne_nil _ _
    rw [whole, if_neg real] at shown
    obtain rfl : stored = boundary := Option.some.inj shown
    exact ⟨stored, given, whole, fits⟩

theorem Sound.boundary_shown (sound : m.Sound) (inside : m.phase.inParts = true) :
    m.boundary = m.framing.delimiter ∧ m.boundary.drop 2 = m.framing.opener ∧ 2 ≤ m.boundary.length := by
  obtain ⟨boundary, given, whole, _⟩ := sound.boundary_whole inside
  have opener : m.framing.opener = dashes ++ boundary := congrArg (dashes ++ ·.getD []) given
  rw [Framing.delimiter, opener, whole]
  exact ⟨rfl, rfl, Nat.le_add_left 2 _⟩

theorem afterFirst_told (r : Reader) (told : List Event) (back rest : Bytes) :
    Reader.afterFirst r told back rest = (Reader.afterFirst r [] back rest).announce told := by
  unfold Reader.afterFirst
  cases Reader.closing rest <;> simp [Reader.Turn.announce]

theorem afterFirst_agrees {b : Cursor} (tidy : m.Tidy) (step : m.step = .preamble) (begins : cur.Ahead b)
    (behind : b.Ahead c) :
    Agrees handler s cur (Reader.afterFirst m.reader [] b.rest c.rest)
      (m.afterFirst handler b.position c s) := by
  obtain ⟨header, chunk⟩ := tidy.plain step (by decide)
  have ahead := begins.trans behind
  unfold Reader.afterFirst afterFirst
  cases ended : Reader.closing c.rest with
  | part rest =>
    have left := Cursor.advance_rest (Reader.closing_part _ _ ended)
    have begun : Tidy { m with havePart := true, step := .partHeader } := by
      refine ⟨fun _ => header, fun _ => chunk, tidy.boundary, fun _ => rfl, fun _ => ?_, fun _ _ => ?_⟩
      · exact (tidy.haveEnd (by rw [step]; decide)).trans (by rw [step]; rfl)
      · exact tidy.haveEpilogue (by rw [step]; decide) (by rw [step]; decide)
    refine agrees_told (ahead.advance 2) fun u => agrees_onward (ahead.advance 2) ⟨begun, ?_⟩ left
    simp only [reader, phase, header]
    rfl
  | last rest => exact agrees_failed ahead _
  | undecided =>
    dsimp only
    rw [behind.rewind]
    exact agrees_wait begins ⟨tidy, rfl⟩ rfl
  | neither => exact agrees_failed ahead _

theorem preambleTurn_agrees (sound : m.Sound) (step : m.step = .preamble) :
    Agrees handler s cur (Reader.preambleTurn m.reader cur.rest) (m.preambleTurn handler cur s) := by
  have inside : m.phase.inParts = true := by rw [phase, step]; rfl
  obtain ⟨delimiter, opener, long⟩ := sound.boundary_shown inside
  rw [Reader.preambleTurn_eq]
  unfold preambleTurn
  rw [if_neg (Nat.not_lt_of_le long), opener, delimiter]
  dsimp only
  rw [show (if m.seen = 0 then opening m.framing.opener cur.rest else .absent)
    = Reader.beginning m.reader cur.rest from rfl, show m.reader.framing = m.framing from rfl]
  cases begun : Reader.beginning m.reader cur.rest with
  | undecided => exact agrees_wait (.refl cur) ⟨sound.toTidy, rfl⟩ rfl
  | present rest =>
    unfold Reader.beginning at begun
    split at begun
    · have left := Cursor.advance_rest (opening_present _ _ _ begun)
      have agrees := @afterFirst_agrees _ handler s cur _ m cur sound.toTidy step (.refl cur)
        (Cursor.ahead_advance cur m.framing.opener.length)
      rw [show m.reader.framing = m.framing from rfl] at left
      rwa [left] at agrees
    · cases begun
  | absent =>
    dsimp only
    unfold Cursor.upToBoundary
    cases sought : seek m.framing.delimiter cur.rest with
    | missing free held =>
      have left := Cursor.advance_rest (seek_missing _ _ _ _ sought)
      exact agrees_waiting (Cursor.ahead_advance cur _) ⟨sound.toTidy, rfl⟩ left
    | found data rest =>
      have whole := seek_found _ _ _ _ sought
      have begins := Cursor.ahead_advance cur data.length
      have left := Cursor.advance_rest whole
      have behind := Cursor.ahead_advance (cur.advance data.length) m.framing.delimiter.length
      dsimp only
      rw [afterFirst_told]
      refine agrees_announce begins fun u => ?_
      have agrees := @afterFirst_agrees _ handler u cur _ m _ sound.toTidy step begins behind
      rwa [left, Cursor.advance_rest left] at agrees

theorem partDataTurn_agrees (sound : m.Sound) (step : m.step = .partData) :
    Agrees handler s cur (Reader.partDataTurn m.reader cur.rest) (m.partDataTurn handler cur s) := by
  have inside : m.phase.inParts = true := by rw [phase, step]; rfl
  obtain ⟨header, chunk⟩ := sound.plain step (by decide)
  unfold Reader.partDataTurn partDataTurn Cursor.upToBoundary
  rw [show m.reader.framing = m.framing from rfl, ← (sound.boundary_shown inside).1]
  cases sought : seek m.boundary cur.rest with
  | missing free held =>
    have left := Cursor.advance_rest (seek_missing _ _ _ _ sought)
    exact agrees_waiting (Cursor.ahead_advance cur _) ⟨sound.toTidy, rfl⟩ left
  | found data rest =>
    have whole := seek_found _ _ _ _ sought
    rw [← List.append_assoc] at whole
    have left := Cursor.advance_rest whole
    rw [List.length_append] at left
    have ahead := Cursor.ahead_advance cur (data.length + m.boundary.length)
    have moved := (sound.recounted m.seen (m.index + 1)).moved step .checkEnd header chunk (by decide)
    refine agrees_announce (t := .onward [.dataDone (.part m.index)] _ _) ahead fun u => ?_
    exact agrees_told ahead fun u => agrees_onward ahead ⟨moved, rfl⟩ left

theorem checkEndTurn_agrees (tidy : m.Tidy) (step : m.step = .checkEnd) :
    Agrees handler s cur (Reader.partEndTurn m.reader cur.rest) (m.checkEndTurn handler cur s) := by
  obtain ⟨header, chunk⟩ := tidy.plain step (by decide)
  have ahead := Cursor.ahead_advance cur 2
  unfold Reader.partEndTurn checkEndTurn
  cases ended : Reader.closing cur.rest with
  | part rest =>
    have left := Cursor.advance_rest (Reader.closing_part _ _ ended)
    refine agrees_onward ahead ⟨tidy.moved step .partHeader header chunk (by decide), ?_⟩ left
    simp only [reader, phase, header]
    rfl
  | last rest =>
    have left := Cursor.advance_rest (Reader.closing_last _ _ ended)
    have open_ := tidy.haveEpilogue (by rw [step]; decide) (by rw [step]; decide)
    have closed : Tidy { m with haveEnd := true, step := .epilogue } := by
      refine ⟨fun _ => header, fun _ => chunk, tidy.boundary, fun _ => ?_, fun _ => rfl, fun _ _ => open_⟩
      exact (tidy.havePart (by rw [step]; decide)).trans (by rw [step]; rfl)
    refine agrees_told ahead fun u => agrees_onward ahead ⟨closed, ?_⟩ left
    simp only [reader, phase, open_]
    rfl
  | undecided => exact agrees_wait (.refl cur) ⟨tidy, rfl⟩ rfl
  | neither => exact agrees_failed (.refl cur) _

-- The subtraction is of bytes that the cursor has passed within the body.
theorem drainTurn_agrees {r : Reader} (tidy : m.Tidy) (step : m.step = .epilogue)
    (shown : m.reader = { r with phase := .epilogue true }) (ahead : cur.Ahead c)
    (own : ∀ left, m.remaining = some left → cur.rest.length ≤ left) :
    Agrees handler s cur (Reader.drain r cur.rest c.rest) (m.drainTurn handler cur.position c s) := by
  obtain ⟨header, chunk⟩ := tidy.plain step (by decide)
  have ahead' := ahead.advance c.rest.length
  have none_left : (c.advance c.rest.length).rest = [] := List.drop_length
  have passed : (c.advance c.rest.length).position - cur.position = cur.rest.length := by
    have positions := ahead'.position
    rw [none_left, List.length_nil] at positions
    omega
  have same : r.remaining = m.remaining := congrArg Reader.remaining shown.symm
  unfold Reader.drain drainTurn Reader.expectsMore Cursor.take
  rw [same, List.take_length]
  dsimp only
  cases left : m.remaining with
  | none => exact agrees_waiting ahead' ⟨tidy, shown⟩ none_left
  | some left' =>
    have within := own left' left
    simp only [passed, minus, within, if_true, decide_eq_true_eq]
    by_cases short : cur.rest.length < left'
    · have some_left : left' - cur.rest.length ≠ 0 := by omega
      simp only [short, some_left, ne_eq, not_false_eq_true, if_true]
      exact agrees_waiting ahead' ⟨tidy, shown⟩ none_left
    · have all_read : left' - cur.rest.length = 0 := by omega
      have ended : Shows { m with step := .done } { r with phase := .done } :=
        ⟨tidy.ended header chunk, congrArg (fun r : Reader => { r with phase := .done }) shown⟩
      simp only [short, all_read, ne_eq, not_true_eq_false, if_false]
      refine agrees_announce (t := .onward [.dataDone .epilogue] _ _) ahead' fun u => ?_
      exact agrees_told ahead' fun u => agrees_onward ahead' ended none_left

theorem epilogueTurn_agrees (tidy : m.Tidy) (step : m.step = .epilogue)
    (own : ∀ left, m.remaining = some left → cur.rest.length ≤ left) :
    Agrees handler s cur (Reader.epilogueTurn m.reader m.haveEpilogue cur.rest)
      (m.epilogueTurn handler cur s) := by
  have opened : Tidy { m with haveEpilogue := true } :=
    ⟨tidy.1, tidy.2, tidy.3, tidy.4, tidy.5, fun _ inside => absurd step inside⟩
  have shown : Registers.reader { m with haveEpilogue := true }
      = { m.reader with phase := .epilogue true } := by
    simp only [reader, phase, step]
    rfl
  have drains : ∀ c, cur.Ahead c → Agrees handler s cur (Reader.drain m.reader cur.rest c.rest)
      (Registers.drainTurn { m with haveEpilogue := true } handler cur.position c s) :=
    fun c ahead => drainTurn_agrees opened step shown ahead own
  unfold Reader.epilogueTurn epilogueTurn
  dsimp only
  cases have_ : m.haveEpilogue with
  | true =>
    rw [if_pos rfl, if_pos rfl]
    refine drainTurn_agrees tidy step ?_ (.refl cur) own
    simp only [reader, phase, step, have_]
  | false =>
    rw [if_neg Bool.false_ne_true, if_neg Bool.false_ne_true]
    cases begun : opening crlf cur.rest with
    | present rest =>
      have left := Cursor.advance_rest (opening_present _ _ _ begun)
      have agrees := drains _ (Cursor.ahead_advance cur 2)
      rwa [show (cur.advance 2).rest = rest from left] at agrees
    | absent => exact drains cur (.refl cur)
    | undecided =>
      dsimp only
      rw [show m.reader.expectsMore cur.rest = m.awaitsMore cur.rest from rfl]
      cases m.awaitsMore cur.rest with
      | true => exact agrees_wait (.refl cur) ⟨tidy, rfl⟩ rfl
      | false => exact drains cur (.refl cur)

end Turns

section Bodies

theorem lack_shown (tidy : m.Tidy) (inside : m.phase.inParts = true) :
    (if m.haveEnd = false then
      some (if m.havePart then Error.multipartMissingFinalBoundary else .multipartMissingPart)
      else none) = Reader.lack? m.phase := by
  have going : m.step ≠ .done := by
    intro done
    rw [phase, done] at inside
    cases inside
  rw [tidy.havePart going, tidy.haveEnd going]
  cases step : m.step <;> rw [phase, step] at inside ⊢ <;> first | rfl | cases inside

theorem lack_waits {before after : Phase} (waits : Reader.Wait before after) :
    Reader.lack? after = Reader.lack? before ∧ after.inParts = before.inParts := by
  cases waits with
  | same same => rw [same]; exact ⟨rfl, rfl⟩
  | chunkData | epilogue => exact ⟨rfl, rfl⟩

theorem within_place (c : Cursor) (limit : Option Nat) :
    (c.within limit).passed = c.passed ∧ (c.within limit).rest = within limit c.rest := by
  cases limit <;> exact ⟨rfl, rfl⟩

theorem exhausted_shown (m : Registers) (own : Bytes) :
    m.exhaustedBy own = !m.reader.expectsMore own := by
  unfold exhaustedBy Reader.expectsMore
  rw [show m.reader.remaining = m.remaining from rfl]
  cases m.remaining with
  | none => rfl
  | some remaining =>
    by_cases some_left : own.length < remaining
    · simp only [some_left, Nat.not_le_of_lt some_left, decide_true, decide_false, Bool.not_true]
    · simp only [some_left, Nat.not_lt.mp some_left, decide_true, decide_false, Bool.not_false]

-- The machine waits where it was, so the flags say at the end of the turn what the phase has said
-- before it.
theorem overrun_shown {after : Registers} (own : Bytes) (tidy : after.Tidy)
    (inside : m.phase.inParts = true) (waits : Reader.Wait m.phase after.phase) :
    (if m.reader.expectsMore own then none else Reader.lack? m.phase)
      = if m.exhaustedBy own = true ∧ after.haveEnd = false then
          some (if after.havePart then Error.multipartMissingFinalBoundary else .multipartMissingPart)
        else none := by
  obtain ⟨lack, place⟩ := lack_waits waits
  rw [← lack, ← lack_shown tidy (place.trans inside), exhausted_shown]
  cases m.reader.expectsMore own with
  | true => simp only [Bool.not_true, Bool.false_eq_true, false_and, if_true, if_false]
  | false => simp only [Bool.not_false, Bool.false_eq_true, true_and, if_false]

theorem within_passed {inner : Cursor} {limit : Option Nat} (ahead : (cur.within limit).Ahead inner) :
    ∃ used : Bytes, inner.position = cur.position + used.length ∧
      (within limit cur.rest).length - inner.rest.length = used.length ∧
      (cur.advance used.length).rest = inner.rest ++ cur.rest.drop (within limit cur.rest).length := by
  obtain ⟨passed, own⟩ := within_place cur limit
  obtain ⟨used, passed', whole⟩ := ahead
  rw [passed] at passed'
  rw [own] at whole
  refine ⟨used, ?_, ?_, Cursor.advance_rest ?_⟩
  · rw [Cursor.position, passed', List.length_append, Cursor.position]
  · rw [whole, List.length_append]
    omega
  · rw [← List.append_assoc, ← whole, within_append_drop]

theorem told_enclose (r : Reader) (own beyond : Bytes) (t : Reader.Turn) :
    (t.enclose r own beyond).told = t.told := by
  cases t with
  | pause told next rest =>
    unfold Reader.Turn.enclose
    dsimp only
    split <;> rfl
  | _ => rfl

theorem met_enclose {ran : Done σ} {t : Reader.Turn} {own beyond used : Bytes}
    (inside : m.phase.inParts = true) (met : Met ran t)
    (stays : t.Keeps (fun _ => True) (Reader.StaysIn m.reader)) (passes : t.Passes m.phase own)
    (counted : own.length - ran.cursor.rest.length = used.length)
    (left : c.rest = ran.cursor.rest ++ beyond) :
    Met
      ⟨{ ran.registers with seen := ran.registers.seen + used.length }, c, ran.state,
        ran.registers.concluded (m.exhaustedBy own) ran.verdict⟩
      (t.enclose m.reader own beyond) := by
  -- Both add the bytes of the turn to what they had counted before it.
  have shown : ∀ next, ran.registers.Shows next → next.seen = m.seen →
      Shows { ran.registers with seen := ran.registers.seen + used.length }
        { next with seen := m.seen + (own.length - ran.cursor.rest.length) } := by
    intro next shows_ unread
    refine ⟨shows_.tidy.recounted _ ran.registers.index, ?_⟩
    rw [counted, ← unread, ← shows_.reader]
    rfl
  cases t with
  | fault told e =>
    rw [show ran.verdict = .failed e from met]
    rfl
  | onward told next rest =>
    obtain ⟨verdict, shows_, rfl⟩ := met
    rw [verdict]
    exact ⟨rfl, shown next shows_ stays.2.seen, left⟩
  | pause told next rest =>
    obtain ⟨verdict, shows_, rfl⟩ := met
    have phase : ran.registers.phase = next.phase := congrArg Reader.phase shows_.reader
    have waits : Reader.Wait m.phase ran.registers.phase := by rwa [phase]
    unfold Reader.Turn.enclose
    rw [verdict, concluded, show m.reader.phase = m.phase from rfl,
      overrun_shown own shows_.tidy inside waits]
    by_cases overrun : m.exhaustedBy own = true ∧ ran.registers.haveEnd = false
    · rw [if_pos overrun, if_pos overrun]
      rfl
    · rw [if_neg overrun, if_neg overrun]
      exact ⟨rfl, shown next shows_ stays.2.seen, left⟩

theorem multipartTurn_agrees {inner : Registers → Handler σ → Cursor → σ → Done σ}
    {before : Phase} (f : Reader → Bytes → Reader.Turn) (begins : m.phase = before)
    (within_parts : before.inParts = true)
    (same : ∀ body : Cursor, (∀ left, m.remaining = some left → body.rest.length ≤ left) →
      Agrees handler s body (f m.reader body.rest) (inner m handler body s))
    (stays : m.phase.inParts = true → ∀ own,
      (f m.reader own).Keeps (fun _ => True) (Reader.StaysIn m.reader))
    (passes : ∀ own, (f m.reader own).Passes before own) :
    Agrees handler s cur (Reader.inBody m.reader f cur.rest) (m.multipartTurn handler cur s inner) := by
  have own := (within_place cur m.remaining).2
  have inside : m.phase.inParts = true := by rw [begins, within_parts]
  have agrees := same (cur.within m.remaining) fun left given => by
    rw [own, given]
    exact List.length_take_le _ _
  rw [Reader.inBody_eq, show m.reader.remaining = m.remaining from rfl]
  unfold multipartTurn
  dsimp only
  rw [own] at agrees ⊢
  generalize inner m handler (cur.within m.remaining) s = ran at agrees
  obtain ⟨used, position, counted, left⟩ := within_passed agrees.ahead
  rw [position, minus, if_pos (Nat.le_add_right _ _), Nat.add_sub_cancel_left]
  refine ⟨Cursor.ahead_advance cur used.length, fun u e refused => ?_, fun u taken => ?_⟩
  · rw [told_enclose] at refused
    obtain ⟨state, verdict⟩ := agrees.refused u e refused
    rw [verdict]
    exact ⟨state, rfl⟩
  · rw [told_enclose] at taken
    obtain ⟨state, met⟩ := agrees.taken u taken
    exact ⟨state, met_enclose inside met (stays inside _) (begins ▸ passes _) counted left⟩

end Bodies

theorem turn_agrees (sound : m.Sound) :
    Agrees handler s cur (Reader.turn m.reader cur.rest) (m.turn handler cur s) := by
  have tidy := sound.toTidy
  have reads := sound.reader
  unfold Reader.turn turn
  rw [show m.reader.phase = m.phase from rfl]
  cases step : m.step with
  | unknown =>
    rw [show m.phase = .start by rw [phase, step]]
    exact unknownTurn_agrees tidy step
  | startLine =>
    rw [show m.phase = .startLine by rw [phase, step]]
    exact startLineTurn_agrees tidy step
  | header =>
    rw [show m.phase = .header m.headerBytes by rw [phase, step]]
    exact headerTurn_agrees tidy step
  | body =>
    rw [show m.phase = .body by rw [phase, step]]
    exact bodyTurn_agrees tidy step
  | chunkStart =>
    rw [show m.phase = .chunkLine by rw [phase, step]]
    exact chunkStartTurn_agrees tidy step
  | chunkData =>
    rw [show m.phase = .chunkData m.chunkRemaining by rw [phase, step]]
    exact chunkDataTurn_agrees tidy step
  | trailer =>
    rw [show m.phase = .trailer m.headerBytes by rw [phase, step]]
    exact trailerTurn_agrees tidy step
  | preamble =>
    have begins : m.phase = .preamble := by rw [phase, step]
    rw [begins]
    exact multipartTurn_agrees _ begins rfl (fun _ _ => preambleTurn_agrees sound step)
      (fun inside own => Reader.preambleTurn_staysIn own reads inside)
      fun own => Reader.preambleTurn_passes _ own begins
  | partHeader =>
    have begins : m.phase = .partHeader m.headerBytes := by rw [phase, step]
    rw [begins]
    exact multipartTurn_agrees _ begins rfl (fun _ _ => partHeaderTurn_agrees tidy step)
      (fun inside own => Reader.partHeaderTurn_staysIn own reads inside _)
      fun own => Reader.partHeaderTurn_passes _ own begins
  | partData =>
    have begins : m.phase = .partData := by rw [phase, step]
    rw [begins]
    exact multipartTurn_agrees _ begins rfl (fun _ _ => partDataTurn_agrees sound step)
      (fun inside own => Reader.partDataTurn_staysIn own reads inside)
      fun own => Reader.partDataTurn_passes _ own begins
  | checkEnd =>
    have begins : m.phase = .partEnd := by rw [phase, step]
    rw [begins]
    exact multipartTurn_agrees _ begins rfl (fun _ _ => checkEndTurn_agrees tidy step)
      (fun inside own => Reader.partEndTurn_staysIn own reads inside)
      fun own => Reader.partEndTurn_passes _ own begins
  | epilogue =>
    have begins : m.phase = .epilogue m.haveEpilogue := by rw [phase, step]
    rw [begins]
    exact multipartTurn_agrees _ begins rfl (fun _ own => epilogueTurn_agrees tidy step own)
      (fun inside own => Reader.epilogueTurn_staysIn own reads inside _)
      fun own => Reader.epilogueTurn_passes _ own begins
  | done =>
    rw [show m.phase = .done by rw [phase, step]]
    exact agrees_wait (.refl cur) ⟨tidy, rfl⟩ rfl

end Registers
end HttpWire
