import HttpWire.Proofs.Registers.Machine
import HttpWire.Proofs.Rounds

-- The registers show a reader at any time, and a turn of the machine is the turn of that reader.
namespace HttpWire

namespace Cursor

def Ahead (c d : Cursor) : Prop := ∃ used, d.passed = c.passed ++ used ∧ c.rest = used ++ d.rest

theorem Ahead.refl (c : Cursor) : c.Ahead c := ⟨[], (List.append_nil _).symm, rfl⟩

theorem Ahead.trans {b c d : Cursor} (first : b.Ahead c) (second : c.Ahead d) : b.Ahead d := by
  obtain ⟨used, passed, rest⟩ := first
  obtain ⟨more, passed', rest'⟩ := second
  refine ⟨used ++ more, ?_, ?_⟩
  · rw [passed', passed, List.append_assoc]
  · rw [rest, rest', List.append_assoc]

theorem ahead_advance (c : Cursor) (n : Nat) : c.Ahead (c.advance n) :=
  ⟨c.rest.take n, rfl, (List.take_append_drop n c.rest).symm⟩

theorem Ahead.advance {c d : Cursor} (ahead : c.Ahead d) (n : Nat) : c.Ahead (d.advance n) :=
  ahead.trans (ahead_advance d n)

theorem advance_rest {c : Cursor} {used rest : Bytes} (whole : c.rest = used ++ rest) :
    (c.advance used.length).rest = rest := by
  rw [advance, whole, List.drop_left]

theorem Ahead.position {c d : Cursor} (ahead : c.Ahead d) :
    c.position ≤ d.position ∧ c.position + c.rest.length = d.position + d.rest.length := by
  obtain ⟨used, passed, rest⟩ := ahead
  rw [Cursor.position, Cursor.position, passed, rest, List.length_append, List.length_append]
  omega

theorem Ahead.rewind {c d : Cursor} (ahead : c.Ahead d) : d.rewind c.position = c := by
  obtain ⟨used, passed, rest⟩ := ahead
  have within : c.position ≤ d.position := by
    rw [Cursor.position, Cursor.position, passed, List.length_append]
    omega
  rw [Cursor.rewind, if_pos within, passed, Cursor.position, List.take_left, List.drop_left, ← rest]

theorem upTo_crlf (c : Cursor) :
    c.upTo? crlf true = (cutMark crlf c.rest).map fun sides => (sides.1, c.advance (sides.1.length + 2)) :=
  rfl

end Cursor

namespace Step

def inSection : Step → Bool
  | .header | .trailer | .partHeader => true
  | _ => false

def inParts : Step → Bool
  | .preamble | .partHeader | .partData | .checkEnd | .epilogue => true
  | _ => false

def havePart : Step → Bool
  | .partHeader | .partData | .checkEnd | .epilogue => true
  | _ => false

end Step

namespace Registers

variable {σ : Type}

def phase (m : Registers) : Phase :=
  match m.step with
  | .unknown => .start
  | .startLine => .startLine
  | .header => .header m.headerBytes
  | .body => .body
  | .chunkStart => .chunkLine
  | .chunkData => .chunkData m.chunkRemaining
  | .trailer => .trailer m.headerBytes
  | .preamble => .preamble
  | .partHeader => .partHeader m.headerBytes
  | .partData => .partData
  | .checkEnd => .partEnd
  | .epilogue => .epilogue m.haveEpilogue
  | .done => .done

def reader (m : Registers) : Reader where
  skipStartLine := m.skipStartLine
  phase := m.phase
  sender := m.sender
  framing := m.framing
  seen := m.seen
  index := m.index
  consumed := m.consumed

-- Once the message is complete the flags do not matter any more.
structure Tidy (m : Registers) : Prop where
  headerBytes : m.step.inSection = false → m.headerBytes = 0
  chunkRemaining : m.step ≠ .chunkData → m.chunkRemaining = 0
  boundary : m.boundary = [] ∨ ∃ boundary, m.boundary = crlf ++ (dashes ++ boundary)
  havePart : m.step ≠ .done → m.havePart = m.step.havePart
  haveEnd : m.step ≠ .done → m.haveEnd = decide (m.step = .epilogue)
  haveEpilogue : m.step ≠ .done → m.step ≠ .epilogue → m.haveEpilogue = false

structure Shows (m : Registers) (r : Reader) : Prop where
  tidy : m.Tidy
  reader : m.reader = r

def Met (d : Done σ) : Reader.Turn → Prop
  | .onward _ next rest => d.verdict = .onward ∧ d.registers.Shows next ∧ d.cursor.rest = rest
  | .pause _ next rest => d.verdict = .wait ∧ d.registers.Shows next ∧ d.cursor.rest = rest
  | .fault _ e => d.verdict = .failed e

-- If an event is refused, the machine fails with that. The cursor never goes back.
structure Agrees (handler : Handler σ) (s : σ) (cur : Cursor) (t : Reader.Turn) (d : Done σ) : Prop where
  ahead : cur.Ahead d.cursor
  refused : ∀ u e, handler.deliver s t.told = (u, some e) → d.state = u ∧ d.verdict = .failed e
  taken : ∀ u, handler.deliver s t.told = (u, none) → d.state = u ∧ Met d t

section Ends

variable {handler : Handler σ} {s : σ} {cur c : Cursor} {m : Registers} {next : Reader} {rest : Bytes}

theorem told_announce (events : List Event) (t : Reader.Turn) :
    (t.announce events).told = events ++ t.told := by
  cases t <;> rfl

theorem met_announce {d : Done σ} {t : Reader.Turn} (events : List Event) (met : Met d t) :
    Met d (t.announce events) := by
  cases t <;> exact met

theorem agrees_silent {t : Reader.Turn} {d : Done σ} (ahead : cur.Ahead d.cursor) (same : d.state = s)
    (silent : t.told = []) (met : Met d t) : Agrees handler s cur t d := by
  refine ⟨ahead, fun u e refused => ?_, fun u taken => ?_⟩
  · rw [silent] at refused
    cases refused
  · rw [silent] at taken
    cases taken
    exact ⟨same, met⟩

theorem agrees_onward (ahead : cur.Ahead c) (shows_ : m.Shows next) (left : c.rest = rest) :
    Agrees handler s cur (.onward [] next rest) ⟨m, c, s, .onward⟩ :=
  agrees_silent ahead rfl rfl ⟨rfl, shows_, left⟩

theorem agrees_wait (ahead : cur.Ahead c) (shows_ : m.Shows next) (left : c.rest = rest) :
    Agrees handler s cur (.pause [] next rest) ⟨m, c, s, .wait⟩ :=
  agrees_silent ahead rfl rfl ⟨rfl, shows_, left⟩

theorem agrees_failed (ahead : cur.Ahead c) (e : Error) :
    Agrees handler s cur (.fault [] e) ⟨m, c, s, .failed e⟩ :=
  agrees_silent ahead rfl rfl rfl

theorem agrees_announce {t : Reader.Turn} {events : List Event} {then_ : σ → Done σ}
    (ahead : cur.Ahead c) (later : ∀ u, Agrees handler u cur t (then_ u)) :
    Agrees handler s cur (t.announce events) (announce handler s events m c then_) := by
  unfold announce
  cases told : handler.deliver s events with
  | mk u refusal =>
    cases refusal with
    | some e =>
      have stopped : handler.deliver s (t.announce events).told = (u, some e) := by
        rw [told_announce, Handler.deliver_append, told]
      refine ⟨ahead, fun v e' refused => ?_, fun v taken => ?_⟩
      · rw [stopped] at refused
        cases refused
        exact ⟨rfl, rfl⟩
      · rw [stopped] at taken
        cases taken
    | none =>
      have goes_on : handler.deliver s (t.announce events).told = handler.deliver u t.told := by
        rw [told_announce, Handler.deliver_append, told]
      have agrees := later u
      refine ⟨agrees.ahead, fun v e refused => ?_, fun v taken => ?_⟩
      · exact agrees.refused v e (goes_on.symm.trans refused)
      · obtain ⟨same, met⟩ := agrees.taken v (goes_on.symm.trans taken)
        exact ⟨same, met_announce events met⟩

theorem announce_append (events later : List Event) (next : σ → Done σ) :
    announce handler s (events ++ later) m c next
      = announce handler s events m c fun u => announce handler u later m c next := by
  unfold announce
  rw [Handler.deliver_append]
  cases handler.deliver s events with
  | mk u refusal => cases refusal <;> rfl

theorem agrees_told {events : List Event} {then_ : σ → Done σ} (ahead : cur.Ahead c)
    (later : ∀ u, Agrees handler u cur (.onward [] next rest) (then_ u)) :
    Agrees handler s cur (.onward events next rest) (announce handler s events m c then_) := by
  have whole : Agrees handler s cur ((Reader.Turn.onward [] next rest).announce events)
      (announce handler s events m c then_) := agrees_announce ahead later
  simpa only [Reader.Turn.announce, List.append_nil] using whole

end Ends

section Moves

variable {m : Registers} {before : Step}

-- A step that leaves no count behind, and no flag that the next one does not expect.
theorem Tidy.moved (tidy : m.Tidy) (step : m.step = before) (after : Step) (header : m.headerBytes = 0)
    (chunk : m.chunkRemaining = 0)
    (plain : before ≠ .done ∧ before ≠ .epilogue ∧ after ≠ .epilogue ∧ before.havePart = after.havePart) :
    Tidy { m with step := after } := by
  obtain ⟨going, inside, last, part⟩ := plain
  rw [← step] at going inside part
  refine ⟨fun _ => header, fun _ => chunk, tidy.boundary, fun _ => ?_, fun _ => ?_, fun _ _ => ?_⟩
  · exact (tidy.havePart going).trans part
  · rw [tidy.haveEnd going, decide_eq_false inside, decide_eq_false last]
  · exact tidy.haveEpilogue going inside

theorem Tidy.recounted (tidy : m.Tidy) (seen index : Nat) : Tidy { m with seen, index } :=
  ⟨tidy.1, tidy.2, tidy.3, tidy.4, tidy.5, tidy.6⟩

theorem Tidy.ended (tidy : m.Tidy) (header : m.headerBytes = 0) (chunk : m.chunkRemaining = 0) :
    Tidy { m with step := .done } :=
  ⟨fun _ => header, fun _ => chunk, tidy.boundary, fun going => absurd rfl going,
    fun going => absurd rfl going, fun going => absurd rfl going⟩

theorem Tidy.plain (tidy : m.Tidy) (step : m.step = before)
    (plain : before.inSection = false ∧ before ≠ .chunkData) :
    m.headerBytes = 0 ∧ m.chunkRemaining = 0 := by
  rw [← step] at plain
  exact ⟨tidy.headerBytes plain.1, tidy.chunkRemaining plain.2⟩

end Moves

section Sections

variable {handler : Handler σ} {s : σ} {cur : Cursor} {m : Registers}

theorem unknownTurn_agrees (tidy : m.Tidy) (step : m.step = .unknown) :
    Agrees handler s cur (Reader.startTurn m.reader cur.rest) (m.unknownTurn cur s) := by
  obtain ⟨header, chunk⟩ := tidy.plain step (by decide)
  have moved := tidy.moved step
  unfold Reader.startTurn unknownTurn
  rw [show m.reader.skipStartLine = m.skipStartLine from rfl]
  by_cases skips : m.skipStartLine = true
  · rw [if_pos skips, if_pos skips]
    refine agrees_onward (.refl cur) ⟨moved _ header chunk (by decide), ?_⟩ rfl
    simp only [reader, phase, header]
    rfl
  · rw [if_neg skips, if_neg skips]
    obtain ⟨used, whole⟩ := Reader.skipEmptyLines_leaves cur.rest
    have skipped : cur.rest.length - (Reader.skipEmptyLines cur.rest).length = used.length := by
      rw [← whole, List.length_append, whole]
      omega
    have left := Cursor.advance_rest whole.symm
    dsimp only
    rw [skipped, left]
    have ahead := Cursor.ahead_advance cur used.length
    have begun : Shows { m with step := .startLine } { m.reader with phase := .startLine } :=
      ⟨moved _ header chunk (by decide), rfl⟩
    cases opening crlf (Reader.skipEmptyLines cur.rest) with
    | undecided => exact agrees_wait ahead ⟨tidy, rfl⟩ left
    | present => exact agrees_onward ahead begun left
    | absent => exact agrees_onward ahead begun left

theorem startLineTurn_agrees (tidy : m.Tidy) (step : m.step = .startLine) :
    Agrees handler s cur (Reader.startLineTurn m.reader cur.rest) (m.startLineTurn handler cur s) := by
  obtain ⟨header, chunk⟩ := tidy.plain step (by decide)
  unfold Reader.startLineTurn startLineTurn
  cases taken : takeLine Reader.startLineRoom cur.rest with
  | tooLong => exact agrees_failed (.refl cur) _
  | unfinished => exact agrees_wait (.refl cur) ⟨tidy, rfl⟩ rfl
  | whole line rest =>
    have whole := (takeLine_whole _ _ _ _ taken).1
    rw [← List.append_assoc] at whole
    have left := Cursor.advance_rest whole
    rw [List.length_append] at left
    have ahead := Cursor.ahead_advance cur (line.length + 2)
    dsimp only
    cases StartLine.ofLine line with
    | error e => exact agrees_failed ahead e
    | ok start =>
      have tidy' : Tidy { m with sender := start.sender } :=
        ⟨tidy.1, tidy.2, tidy.3, tidy.4, tidy.5, tidy.6⟩
      refine agrees_told ahead fun u => agrees_onward ahead
        ⟨tidy'.moved step _ header chunk (by decide), ?_⟩ left
      simp only [reader, phase, header]
      rfl

def withFraming (m : Registers) (framing : Framing) : Registers :=
  { m with
    format := framing.format
    declared := framing.declared
    boundary := match framing.boundary with
      | none => []
      | some boundary => crlf ++ (dashes ++ boundary) }

theorem withFraming_framing (m : Registers) (framing : Framing) :
    (m.withFraming framing).framing = framing := by
  cases framing with
  | mk format declared boundary => cases boundary <;> rfl

theorem reader_withFraming (m : Registers) (framing : Framing) :
    (m.withFraming framing).reader = { m.reader with framing } := by
  rw [reader, withFraming_framing]
  rfl

theorem withFraming_kept (tidy : m.Tidy) (format : BodyFormat) (declared : Option Nat) :
    m.withFraming { m.framing with format, declared } = { m with format, declared } := by
  unfold withFraming framing
  rcases tidy.boundary with none | ⟨boundary, given⟩
  · simp only [none, if_true]
  · have real : crlf ++ (dashes ++ boundary) ≠ [] := List.cons_ne_nil _ _
    have shown : (crlf ++ (dashes ++ boundary)).drop 4 = boundary := rfl
    simp only [given, real, if_false, shown]

theorem withFraming_same (tidy : m.Tidy) : m.withFraming m.framing = m :=
  withFraming_kept tidy m.format m.declared

theorem noteLength_framing (tidy : m.Tidy) (value : Text) :
    m.noteLength value = (m.framing.noteLength value).map m.withFraming := by
  unfold noteLength Framing.noteLength
  rw [show m.framing.format = m.format from rfl, show m.framing.declared = m.declared from rfl]
  by_cases busy : m.format = .chunked ∨ m.declared.isSome = true
  · rw [if_pos busy, if_pos busy]
    rfl
  · rw [if_neg busy, if_neg busy]
    cases Framing.length? value with
    | none => rfl
    | some length =>
      simp only [Except.map, withFraming_kept tidy]
      split
      · rfl
      · by_cases parts : m.format = .multipart
        · simp only [parts, if_true, ne_eq, not_true_eq_false, if_false]
        · simp only [parts, if_false, ne_eq, not_false_eq_true, if_true]

theorem noteCoding_framing (tidy : m.Tidy) (value : Text) :
    m.noteCoding value = (m.framing.noteCoding value).map m.withFraming := by
  unfold noteCoding Framing.noteCoding
  rw [show m.framing.declared = m.declared from rfl]
  split
  · cases declared : m.declared with
    | some length => rfl
    | none =>
      have set := withFraming_kept tidy .chunked none
      simp only [Option.isSome_none, Bool.false_eq_true, if_false, Except.map, ← set]
  · simp only [Except.map, withFraming_same tidy]

theorem noteType_framing (tidy : m.Tidy) (value : Text) :
    m.noteType value = (m.framing.noteType value).map m.withFraming := by
  unfold noteType Framing.noteType
  cases Framing.boundary? value with
  | error e => rfl
  | ok found =>
    cases found with
    | none => simp only [Except.map, withFraming_same tidy]
    | some boundary =>
      have shown : m.framing.format = m.format ∧ m.framing.declared = m.declared := ⟨rfl, rfl⟩
      simp only [Except.map, withFraming, shown.1, shown.2]
      by_cases prevails : m.format = .chunked ∨ m.declared = some 0
      · rw [if_pos prevails, if_neg (by rwa [← not_or, not_not])]
      · rw [if_neg prevails, if_pos (not_or.mp prevails)]

theorem note_framing (tidy : m.Tidy) (f : Field) :
    m.note f = (m.framing.note f).map m.withFraming := by
  unfold note Framing.note
  split
  · exact noteLength_framing tidy f.value
  · split
    · exact noteCoding_framing tidy f.value
    · split
      · exact noteType_framing tidy f.value
      · simp only [Except.map, withFraming_same tidy]

-- The machine adds the length of a line before it looks at the limit, and the reader asks for what is
-- left; they agree in all that follows if they agree behind the line.
theorem section_agrees {place : Section} {ended : Registers → Cursor → σ → Done σ}
    {closes : Bytes → Reader.Turn} {takes : Field → Nat → Bytes → Reader.Turn} (tidy : m.Tidy)
    (closed : ∀ c, cur.Ahead c →
      Agrees handler s cur (closes c.rest) (ended { m with headerBytes := 0 } c s))
    (field : ∀ c f after, cur.Ahead c → Agrees handler s cur (takes f after c.rest)
      (Registers.fieldTurn { m with headerBytes := after } handler c s place f)) :
    Agrees handler s cur
      (match Reader.sectionLine m.headerBytes cur.rest with
        | .fault e => .fault [] e
        | .unfinished => .pause [] m.reader cur.rest
        | .closed rest => closes rest
        | .field f after rest => takes f after rest)
      (m.sectionTurn handler cur s place ended) := by
  unfold Reader.sectionLine takeLine sectionTurn
  rw [Cursor.upTo_crlf]
  cases cut : cutMark crlf cur.rest with
  | none =>
    dsimp only [Option.map_none]
    by_cases fits : openLength cur.rest + 2 ≤ Reader.sectionRoom - m.headerBytes
    · rw [if_pos fits, if_neg (by omega)]
      exact agrees_wait (.refl cur) ⟨tidy, rfl⟩ rfl
    · rw [if_neg fits, if_pos (by omega)]
      exact agrees_failed (.refl cur) _
  | some sides =>
    obtain ⟨line, rest⟩ := sides
    have whole := cutMark_eq _ _ _ _ cut
    rw [← List.append_assoc] at whole
    have left := Cursor.advance_rest whole
    rw [List.length_append] at left
    have ahead := Cursor.ahead_advance cur (line.length + 2)
    dsimp only [Option.map_some]
    by_cases fits : line.length + 2 ≤ Reader.sectionRoom - m.headerBytes
    · rw [if_pos fits, if_neg (by omega)]
      cases line with
      | nil =>
        rw [if_pos rfl]
        exact left ▸ closed _ ahead
      | cons b line =>
        dsimp only
        rw [if_neg (List.cons_ne_nil b line)]
        cases Field.ofLine (b :: line) with
        | error e => exact agrees_failed ahead e
        | ok f => exact left ▸ field _ f _ ahead
    · rw [if_neg fits, if_pos (by omega)]
      exact agrees_failed ahead _

theorem Tidy.counted (tidy : m.Tidy) (inside : m.step.inSection = true) (size : Nat) :
    Tidy { m with headerBytes := size } := by
  refine ⟨fun outside => ?_, tidy.2, tidy.3, tidy.4, tidy.5, tidy.6⟩
  exact Bool.noConfusion (inside.symm.trans outside)

theorem Tidy.framed (tidy : m.Tidy) (framing : Framing) : Tidy (m.withFraming framing) := by
  refine ⟨tidy.1, tidy.2, ?_, tidy.4, tidy.5, tidy.6⟩
  cases given : framing.boundary with
  | none => exact .inl (by simp [withFraming, given])
  | some boundary => exact .inr ⟨boundary, by simp [withFraming, given]⟩

theorem fieldTurn_agrees {c : Cursor} {place : Section} {next : Reader} (f : Field)
    (other : place ≠ .header) (shown : m.Shows next) (ahead : cur.Ahead c) :
    Agrees handler s cur (.onward (Event.ofField place f) next c.rest) (m.fieldTurn handler c s place f) := by
  unfold fieldTurn
  rw [if_neg other]
  exact agrees_told ahead fun u => agrees_onward ahead shown rfl

-- What the end of the fields decides is only the format.
theorem settle_format {fr next : Framing} {sender : Sender} (settled : fr.settle sender = .ok next) :
    next = { fr with format := next.format } := by
  rcases Framing.settle_changes settled with rfl | rfl | ⟨_, rfl⟩ <;> rfl

theorem settled_shows {framing : Framing} (tidy : m.Tidy) (step : m.step = .header)
    (same : framing = { m.framing with format := framing.format }) :
    Shows { m with headerBytes := 0, format := framing.format, step := bodyStep framing.format }
      { m.reader with framing, phase := Reader.bodyPhase framing.format } := by
  have chunk := tidy.chunkRemaining (by rw [step]; nofun)
  have cleared : Tidy { m with headerBytes := 0, format := framing.format } :=
    ⟨fun _ => rfl, tidy.2, tidy.3, tidy.4, tidy.5, tidy.6⟩
  refine ⟨cleared.moved step _ rfl chunk ?_, ?_⟩
  · cases framing.format <;> decide
  · have phase : ∀ format : BodyFormat,
        Registers.phase { m with headerBytes := 0, format, step := bodyStep format }
          = Reader.bodyPhase format := by
      intro format
      cases format <;> rfl
    rw [reader, phase, same]
    rfl

theorem headerTurn_agrees (tidy : m.Tidy) (step : m.step = .header) :
    Agrees handler s cur (Reader.headerTurn m.reader m.headerBytes cur.rest)
      (m.headerTurn handler cur s) := by
  have inside : m.step.inSection = true := by rw [step]; rfl
  refine section_agrees tidy (fun c ahead => ?_) fun c f after ahead => ?_
  · rw [show Registers.framing { m with headerBytes := 0 } = m.framing from rfl,
      show m.reader.framing = m.framing from rfl, show m.reader.sender = m.sender from rfl]
    dsimp only
    cases settled : m.framing.settle m.sender with
    | error e => exact agrees_failed ahead e
    | ok framing =>
      have shown := settled_shows tidy step (settle_format settled)
      exact agrees_told ahead fun u => agrees_onward ahead shown rfl
  · have counted := tidy.counted inside after
    unfold fieldTurn
    rw [if_pos rfl, note_framing counted f,
      show Registers.framing { m with headerBytes := after } = m.framing from rfl,
      show m.reader.framing = m.framing from rfl]
    cases m.framing.note f with
    | error e => exact agrees_failed ahead e
    | ok framing =>
      have shown : Shows (Registers.withFraming { m with headerBytes := after } framing)
          { m.reader with framing, phase := .header after } := by
        refine ⟨counted.framed framing, ?_⟩
        rw [reader_withFraming]
        simp only [reader, phase, step]
      exact agrees_told ahead fun u => agrees_onward ahead shown rfl

theorem trailerTurn_agrees (tidy : m.Tidy) (step : m.step = .trailer) :
    Agrees handler s cur (Reader.trailerTurn m.reader m.headerBytes cur.rest)
      (m.trailerTurn handler cur s) := by
  have inside : m.step.inSection = true := by rw [step]; rfl
  have chunk := tidy.chunkRemaining (by rw [step]; nofun)
  refine section_agrees tidy (fun c ahead => ?_) fun c f after ahead => ?_
  · exact agrees_told ahead fun u =>
      agrees_onward ahead ⟨(tidy.counted inside 0).ended rfl chunk, rfl⟩ rfl
  · refine fieldTurn_agrees f nofun ⟨tidy.counted inside after, ?_⟩ ahead
    simp only [reader, phase, step]
    rfl

theorem partHeaderTurn_agrees (tidy : m.Tidy) (step : m.step = .partHeader) :
    Agrees handler s cur (Reader.partHeaderTurn m.reader m.headerBytes cur.rest)
      (m.partHeaderTurn handler cur s) := by
  have inside : m.step.inSection = true := by rw [step]; rfl
  have chunk := tidy.chunkRemaining (by rw [step]; nofun)
  refine section_agrees tidy (fun c ahead => ?_) fun c f after ahead => ?_
  · have moved := (tidy.counted inside 0).moved step .partData rfl chunk (by decide)
    exact agrees_told ahead fun u => agrees_onward ahead ⟨moved, rfl⟩ rfl
  · refine fieldTurn_agrees f nofun ⟨tidy.counted inside after, ?_⟩ ahead
    simp only [reader, phase, step]
    rfl

end Sections

section Bodies

variable {handler : Handler σ} {s : σ} {cur c : Cursor} {m : Registers}

theorem advance_taken (c : Cursor) (n : Nat) : c.advance (c.rest.take n).length = c.advance n := by
  rw [List.length_take]
  rcases Nat.le_total n c.rest.length with within | beyond
  · rw [Nat.min_eq_left within]
  · rw [Nat.min_eq_right beyond, Cursor.advance, Cursor.advance, List.take_of_length_le beyond,
      List.drop_of_length_le beyond, List.take_length, List.drop_length]

theorem takeWithin_eq (c : Cursor) (limit : Option Nat) :
    c.takeWithin limit = (within limit c.rest, c.advance (within limit c.rest).length) := by
  cases limit with
  | none => rw [Cursor.takeWithin, Cursor.take, List.take_length, within]
  | some left => rw [Cursor.takeWithin, Cursor.take, within, advance_taken]

theorem agrees_waiting {next : Reader} {rest : Bytes} {events : List Event} (ahead : cur.Ahead c)
    (shown : m.Shows next) (left : c.rest = rest) :
    Agrees handler s cur (.pause events next rest)
      (announce handler s events m c fun s => ⟨m, c, s, .wait⟩) := by
  have whole : Agrees handler s cur ((Reader.Turn.pause [] next rest).announce events)
      (announce handler s events m c fun s => ⟨m, c, s, .wait⟩) :=
    agrees_announce ahead fun u => agrees_wait ahead shown left
  simpa only [Reader.Turn.announce, List.append_nil] using whole

theorem agrees_failing {events : List Event} (ahead : cur.Ahead c) (e : Error) :
    Agrees handler s cur (.fault events e)
      (announce handler s events m c fun s => ⟨m, c, s, .failed e⟩) := by
  have whole : Agrees handler s cur ((Reader.Turn.fault [] e).announce events)
      (announce handler s events m c fun s => ⟨m, c, s, .failed e⟩) :=
    agrees_announce ahead fun u => agrees_failed ahead e
  simpa only [Reader.Turn.announce, List.append_nil] using whole

theorem bodyTurn_agrees (tidy : m.Tidy) (step : m.step = .body) :
    Agrees handler s cur (Reader.bodyTurn m.reader cur.rest) (m.bodyTurn handler cur s) := by
  obtain ⟨header, chunk⟩ := tidy.plain step (by decide)
  unfold Reader.bodyTurn bodyTurn
  rw [takeWithin_eq, show m.reader.remaining = m.remaining from rfl]
  dsimp only
  generalize within m.remaining cur.rest = data
  have ahead := Cursor.ahead_advance cur data.length
  have counted : Tidy { m with seen := m.seen + data.length } := tidy.recounted _ m.index
  rw [show Reader.remaining { m.reader with seen := m.reader.seen + data.length }
    = Registers.remaining { m with seen := m.seen + data.length } from rfl]
  by_cases reached : Registers.remaining { m with seen := m.seen + data.length } = some 0
  · simp only [reached, if_true, ne_eq, not_true_eq_false, if_false]
    exact agrees_announce (t := .onward [.dataDone .body] _ _) ahead fun u =>
      agrees_told ahead fun u => agrees_onward ahead ⟨counted.ended header chunk, rfl⟩ rfl
  · simp only [reached, if_false, ne_eq, not_false_eq_true, if_true]
    exact agrees_waiting ahead ⟨counted, rfl⟩ rfl

theorem chunkStartTurn_agrees (tidy : m.Tidy) (step : m.step = .chunkStart) :
    Agrees handler s cur (Reader.chunkLineTurn m.reader cur.rest) (m.chunkStartTurn handler cur s) := by
  obtain ⟨header, chunk⟩ := tidy.plain step (by decide)
  unfold Reader.chunkLineTurn chunkStartTurn
  cases taken : takeLine Reader.chunkLineRoom cur.rest with
  | tooLong => exact agrees_failed (.refl cur) _
  | unfinished => exact agrees_wait (.refl cur) ⟨tidy, rfl⟩ rfl
  | whole line rest =>
    have whole := (takeLine_whole _ _ _ _ taken).1
    rw [← List.append_assoc] at whole
    have left := Cursor.advance_rest whole
    rw [List.length_append] at left
    have ahead := Cursor.ahead_advance cur (line.length + 2)
    dsimp only
    cases ChunkLine.ofLine line with
    | error e => exact agrees_failed ahead e
    | ok line =>
      cases fault : line.fault with
      | some e =>
        simp only [fault]
        exact agrees_failing ahead e
      | none =>
        simp only [fault]
        by_cases last : line.size = 0
        · have cleared : Tidy { m with headerBytes := 0, step := .trailer } :=
            (tidy.moved step .trailer header chunk (by decide)).counted rfl 0
          simp only [last, if_true]
          refine agrees_announce (t := .onward [.extensionsDone m.index, .chunksDone] _ _) ahead fun u => ?_
          rw [← announce_append]
          exact agrees_told ahead fun u => agrees_onward ahead ⟨cleared, rfl⟩ left
        · have sized : Tidy { m with chunkRemaining := line.size, step := .chunkData } := by
            have moved := tidy.moved step .chunkData header chunk (by decide)
            exact ⟨moved.1, fun other => absurd rfl other, moved.3, moved.4, moved.5, moved.6⟩
          simp only [last, if_false]
          refine agrees_announce (t := .onward [.extensionsDone m.index] _ _) ahead fun u => ?_
          exact agrees_told ahead fun u => agrees_onward ahead ⟨sized, rfl⟩ left

def chunkEnd (r : Reader) (index : Nat) (bytes : Bytes) : Reader.Turn :=
  match opening crlf bytes with
  | .undecided => .pause [] r bytes
  | .absent => .fault [] .chunkDataMalformed
  | .present rest => .onward [.dataDone (.chunk index)] { r with index := index + 1, phase := .chunkLine } rest

theorem chunkEndTurn_agrees (tidy : m.Tidy) (step : m.step = .chunkData) (chunk : m.chunkRemaining = 0)
    (ahead : cur.Ahead c) :
    Agrees handler s cur (chunkEnd m.reader m.index c.rest) (m.chunkEndTurn handler c s) := by
  have header := tidy.headerBytes (by rw [step]; rfl)
  unfold chunkEnd chunkEndTurn
  cases begun : opening crlf c.rest with
  | undecided => exact agrees_wait ahead ⟨tidy, rfl⟩ rfl
  | absent => exact agrees_failed ahead _
  | present rest =>
    have left := Cursor.advance_rest (opening_present _ _ _ begun)
    have moved := (tidy.recounted m.seen (m.index + 1)).moved step .chunkStart header chunk (by decide)
    exact agrees_told (ahead.advance 2) fun u => agrees_onward (ahead.advance 2) ⟨moved, rfl⟩ left

theorem chunkDataTurn_eq (r : Reader) (missing : Nat) (bytes : Bytes) :
    Reader.chunkDataTurn r missing bytes =
      let data := bytes.take missing
      let next := { r with seen := r.seen + data.length, phase := .chunkData (missing - data.length) }
      if data.length < missing then .pause (Event.ofData (.chunk r.index) data) next (bytes.drop missing)
      else (chunkEnd next r.index (bytes.drop missing)).announce (Event.ofData (.chunk r.index) data) := by
  unfold Reader.chunkDataTurn chunkEnd
  dsimp only
  split
  · rfl
  · cases opening crlf (bytes.drop missing) <;> simp [Reader.Turn.announce]

theorem chunkDataTurn_agrees (tidy : m.Tidy) (step : m.step = .chunkData) :
    Agrees handler s cur (Reader.chunkDataTurn m.reader m.chunkRemaining cur.rest)
      (m.chunkDataTurn handler cur s) := by
  have taken : (cur.rest.take m.chunkRemaining).length ≤ m.chunkRemaining := List.length_take_le _ _
  have ahead := Cursor.ahead_advance cur m.chunkRemaining
  have shown : ∀ seen left, Registers.reader { m with chunkRemaining := left, seen }
      = { m.reader with seen, phase := .chunkData left } := by
    intro seen left
    simp only [reader, phase, step]
    rfl
  rw [chunkDataTurn_eq]
  unfold chunkDataTurn Cursor.take
  dsimp only
  generalize cur.rest.take m.chunkRemaining = data at taken
  rw [← shown, show m.reader.seen = m.seen from rfl, show m.reader.index = m.index from rfl]
  have counted : Tidy { m with
      chunkRemaining := m.chunkRemaining - data.length, seen := m.seen + data.length } :=
    ⟨tidy.1, fun other => absurd step other, tidy.3, tidy.4, tidy.5, tidy.6⟩
  by_cases ended : m.chunkRemaining = 0
  · -- Only the CRLF behind the data was still to come.
    obtain rfl : data = [] := List.length_eq_zero_iff.mp (by omega)
    have same : Registers.reader { m with chunkRemaining := 0, seen := m.seen } = m.reader := by
      simp only [reader, phase, step, ended]
      rfl
    simp only [ended, List.length_nil, lt_self_iff_false, if_false, Nat.sub_self, Nat.add_zero, same,
      Event.ofData_nil, Reader.Turn.announce_nil, List.drop_zero, ne_eq, not_true_eq_false]
    exact chunkEndTurn_agrees tidy step ended (.refl cur)
  · rw [if_pos ended]
    by_cases empty : data = []
    · subst empty
      have some_left : 0 < m.chunkRemaining := Nat.pos_of_ne_zero ended
      simp only [List.length_nil, some_left, if_true, Event.ofData_nil, Nat.add_zero, Nat.sub_zero]
      exact agrees_wait ahead ⟨tidy, rfl⟩ rfl
    · rw [if_neg empty, minus, if_pos taken]
      by_cases short : data.length < m.chunkRemaining
      · have some_left : m.chunkRemaining - data.length ≠ 0 := by omega
        simp only [short, if_true, some_left, ne_eq, not_false_eq_true]
        exact agrees_waiting ahead ⟨counted, rfl⟩ rfl
      · have none_left : m.chunkRemaining - data.length = 0 := by omega
        rw [if_neg short]
        refine agrees_announce ahead fun u => ?_
        rw [if_neg (not_not.mpr none_left)]
        exact chunkEndTurn_agrees counted step none_left ahead

end Bodies

end Registers
end HttpWire
