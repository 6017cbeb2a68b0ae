import HttpWire.Reader.Turn

-- A turn that goes on leaves fewer bytes, or leaves the first phase, or is the last.
namespace HttpWire.Reader

-- Turns that go on without reading a byte can only lead to a lower rank.
def rank : Phase → Nat
  | .start => 2
  | .done => 0
  | _ => 1

theorem bodyPhase_rank (format : BodyFormat) : rank (bodyPhase format) ≤ 1 := by
  cases format <;> decide

def Descends (r : Reader) (bytes : Bytes) (next : Reader) (rest : Bytes) : Prop :=
  rest.length + rank next.phase < bytes.length + rank r.phase

theorem skipEmptyLines_length (bytes : Bytes) : (skipEmptyLines bytes).length ≤ bytes.length := by
  fun_induction skipEmptyLines bytes with
  | case1 => exact Nat.le_refl _
  | case2 => exact Nat.le_refl _
  | case3 _ _ rest _ ih => exact Nat.le_trans ih (by simp only [List.length_cons]; omega)
  | case4 => exact Nat.le_refl _

theorem takeLine_rest (room : Nat) (bytes line rest : Bytes)
    (taken : takeLine room bytes = .whole line rest) : rest.length + 2 ≤ bytes.length := by
  rw [(takeLine_whole room bytes line rest taken).1]
  simp only [List.length_append, crlf, List.length_cons, List.length_nil]
  omega

theorem sectionLine_field (size : Nat) (bytes : Bytes) (f : Field) (after : Nat) (rest : Bytes)
    (line : sectionLine size bytes = .field f after rest) : rest.length + 2 ≤ bytes.length := by
  unfold sectionLine at line
  split at line
  · cases line
  · cases line
  · cases line
  · rename_i taken
    split at line
    · cases line
    · cases line
      exact takeLine_rest _ _ _ _ taken

theorem sectionLine_closed (size : Nat) (bytes rest : Bytes)
    (line : sectionLine size bytes = .closed rest) : rest.length + 2 ≤ bytes.length := by
  unfold sectionLine at line
  split at line
  · cases line
  · cases line
  · rename_i taken
    cases line
    exact takeLine_rest _ _ _ _ taken
  · split at line <;> cases line

theorem startTurn_descends (r next : Reader) (bytes rest : Bytes) (told : List Event)
    (phase : r.phase = .start) (went : startTurn r bytes = .onward told next rest) :
    Descends r bytes next rest := by
  have shorter := skipEmptyLines_length bytes
  unfold startTurn at went
  unfold Descends
  rw [phase]
  split at went
  · cases went
    simp [rank]
  · dsimp only at went
    split at went
    · cases went
    · cases went
      simp only [rank]
      omega

theorem startLineTurn_descends (r next : Reader) (bytes rest : Bytes) (told : List Event)
    (phase : r.phase = .startLine) (went : startLineTurn r bytes = .onward told next rest) :
    Descends r bytes next rest := by
  unfold startLineTurn at went
  unfold Descends
  rw [phase]
  split at went
  · cases went
  · cases went
  · rename_i taken
    have shorter := takeLine_rest _ _ _ _ taken
    split at went
    · cases went
    · cases went
      simp only [rank]
      omega

theorem headerTurn_descends (r next : Reader) (size : Nat) (bytes rest : Bytes) (told : List Event)
    (phase : r.phase = .header size) (went : headerTurn r size bytes = .onward told next rest) :
    Descends r bytes next rest := by
  unfold headerTurn at went
  unfold Descends
  rw [phase]
  split at went
  · cases went
  · cases went
  · rename_i line
    have shorter := sectionLine_closed _ _ _ line
    split at went
    · cases went
    · rename_i framing _
      cases went
      have low := bodyPhase_rank framing.format
      simp only [rank] at low ⊢
      omega
  · rename_i line
    have shorter := sectionLine_field _ _ _ _ _ line
    split at went
    · cases went
    · cases went
      simp only [rank]
      omega

theorem trailerTurn_descends (r next : Reader) (size : Nat) (bytes rest : Bytes)
    (told : List Event) (phase : r.phase = .trailer size)
    (went : trailerTurn r size bytes = .onward told next rest) : Descends r bytes next rest := by
  unfold trailerTurn at went
  unfold Descends
  rw [phase]
  split at went
  · cases went
  · cases went
  · rename_i line
    have shorter := sectionLine_closed _ _ _ line
    cases went
    simp only [rank]
    omega
  · rename_i line
    have shorter := sectionLine_field _ _ _ _ _ line
    cases went
    simp only [rank]
    omega

theorem bodyTurn_descends (r next : Reader) (bytes rest : Bytes) (told : List Event)
    (phase : r.phase = .body) (went : bodyTurn r bytes = .onward told next rest) :
    Descends r bytes next rest := by
  unfold bodyTurn at went
  unfold Descends
  rw [phase]
  dsimp only at went
  split at went
  · cases went
    simp only [rank, List.length_drop]
    omega
  · cases went

theorem chunkLineTurn_descends (r next : Reader) (bytes rest : Bytes) (told : List Event)
    (phase : r.phase = .chunkLine) (went : chunkLineTurn r bytes = .onward told next rest) :
    Descends r bytes next rest := by
  unfold chunkLineTurn at went
  unfold Descends
  rw [phase]
  split at went
  · cases went
  · cases went
  · rename_i taken
    have shorter := takeLine_rest _ _ _ _ taken
    split at went
    · cases went
    · dsimp only at went
      split at went
      · cases went
      · split at went
        all_goals
          cases went
          simp only [rank]
          omega

theorem chunkDataTurn_descends (r next : Reader) (missing : Nat) (bytes rest : Bytes)
    (told : List Event) (phase : r.phase = .chunkData missing)
    (went : chunkDataTurn r missing bytes = .onward told next rest) :
    Descends r bytes next rest := by
  unfold chunkDataTurn at went
  unfold Descends
  rw [phase]
  dsimp only at went
  split at went
  · cases went
  · split at went
    · cases went
    · cases went
    · rename_i after
      cases went
      have cut := congrArg List.length (opening_present _ _ _ after)
      simp only [List.length_drop, List.length_append, crlf, List.length_cons, List.length_nil] at cut
      simp only [rank]
      omega

theorem closing_part (bytes rest : Bytes) (after : closing bytes = .part rest) :
    bytes = crlf ++ rest := by
  unfold closing at after
  split at after <;> cases after
  rename_i first
  exact opening_present _ _ _ first

theorem closing_last (bytes rest : Bytes) (after : closing bytes = .last rest) :
    bytes = dashes ++ rest := by
  unfold closing at after
  split at after <;> cases after
  rename_i second
  exact opening_present _ _ _ second

theorem inBody_descends (r next : Reader) (turn : Reader → Bytes → Turn) (bytes rest : Bytes)
    (told : List Event) (went : inBody r turn bytes = .onward told next rest)
    (inner : ∀ own mid left, turn r own = .onward told mid left → Descends r own mid left) :
    Descends r bytes next rest := by
  unfold inBody at went
  dsimp only at went
  split at went
  · cases went
  · rename_i mid left ran
    cases went
    have lower := inner _ _ _ ran
    have whole := congrArg List.length (within_append_drop r.remaining bytes)
    simp only [Descends, List.length_append] at lower whole ⊢
    omega
  · split at went <;> cases went

theorem partHeaderTurn_descends (r next : Reader) (size : Nat) (bytes rest : Bytes)
    (told : List Event) (phase : r.phase = .partHeader size)
    (went : partHeaderTurn r size bytes = .onward told next rest) :
    Descends r bytes next rest := by
  unfold partHeaderTurn at went
  unfold Descends
  rw [phase]
  split at went
  · cases went
  · cases went
  · rename_i line
    have shorter := sectionLine_closed _ _ _ line
    cases went
    simp only [rank]
    omega
  · rename_i line
    have shorter := sectionLine_field _ _ _ _ _ line
    cases went
    simp only [rank]
    omega

theorem afterFirst_rest (r next : Reader) (told already : List Event) (back after rest : Bytes)
    (went : afterFirst r already back after = .onward told next rest) :
    rest.length + 2 = after.length ∧ rank next.phase = 1 := by
  unfold afterFirst at went
  split at went
  · rename_i ended
    cases went
    have cut := congrArg List.length (closing_part _ _ ended)
    simp only [List.length_append, crlf, List.length_cons, List.length_nil] at cut
    exact ⟨by omega, rfl⟩
  · cases went
  · cases went
  · cases went

theorem preambleTurn_descends (r next : Reader) (bytes rest : Bytes) (told : List Event)
    (phase : r.phase = .preamble) (went : preambleTurn r bytes = .onward told next rest) :
    Descends r bytes next rest := by
  unfold preambleTurn at went
  unfold Descends
  rw [phase]
  split at went
  · rename_i after here
    obtain ⟨left, low⟩ := afterFirst_rest _ _ _ _ _ _ _ went
    have cut : after.length ≤ bytes.length := by
      split at here
      · rw [opening_present _ _ _ here]
        simp
      · cases here
    rw [low]
    simp only [rank]
    omega
  · cases went
  · split at went
    · cases went
    · rename_i found
      obtain ⟨left, low⟩ := afterFirst_rest _ _ _ _ _ _ _ went
      have cut := congrArg List.length (seek_found _ _ _ _ found)
      simp only [List.length_append] at cut
      rw [low]
      simp only [rank]
      omega

theorem partDataTurn_descends (r next : Reader) (bytes rest : Bytes) (told : List Event)
    (phase : r.phase = .partData) (went : partDataTurn r bytes = .onward told next rest) :
    Descends r bytes next rest := by
  unfold partDataTurn at went
  unfold Descends
  rw [phase]
  split at went
  · cases went
  · rename_i found
    cases went
    have cut := congrArg List.length (seek_found _ _ _ _ found)
    have long := r.framing.delimiter_length
    simp only [List.length_append] at cut
    simp only [rank]
    omega

theorem partEndTurn_descends (r next : Reader) (bytes rest : Bytes) (told : List Event)
    (phase : r.phase = .partEnd) (went : partEndTurn r bytes = .onward told next rest) :
    Descends r bytes next rest := by
  unfold partEndTurn at went
  unfold Descends
  rw [phase]
  split at went
  · rename_i ended
    cases went
    have cut := congrArg List.length (closing_part _ _ ended)
    simp only [List.length_append, crlf, List.length_cons, List.length_nil] at cut
    simp only [rank]
    omega
  · rename_i ended
    cases went
    have cut := congrArg List.length (closing_last _ _ ended)
    simp only [List.length_append, dashes, List.length_cons, List.length_nil] at cut
    simp only [rank]
    omega
  · cases went
  · cases went

theorem drain_onward (r next : Reader) (whole data rest : Bytes) (told : List Event)
    (went : drain r whole data = .onward told next rest) :
    rest = [] ∧ next.phase = .done := by
  unfold drain at went
  split at went
  · cases went
  · cases went
    exact ⟨rfl, rfl⟩

theorem epilogueTurn_descends (r next : Reader) (opened : Bool) (bytes rest : Bytes)
    (told : List Event) (phase : r.phase = .epilogue opened)
    (went : epilogueTurn r opened bytes = .onward told next rest) :
    Descends r bytes next rest := by
  have ended : rest = [] ∧ next.phase = .done := by
    unfold epilogueTurn at went
    split at went
    · exact drain_onward _ _ _ _ _ _ went
    · split at went
      · exact drain_onward _ _ _ _ _ _ went
      · split at went
        · cases went
        · exact drain_onward _ _ _ _ _ _ went
      · exact drain_onward _ _ _ _ _ _ went
  unfold Descends
  rw [phase, ended.1, ended.2]
  simp [rank]

theorem turn_descends (r next : Reader) (bytes rest : Bytes) (told : List Event)
    (went : turn r bytes = .onward told next rest) : Descends r bytes next rest := by
  unfold turn at went
  split at went
  · rename_i phase; exact startTurn_descends r next bytes rest told phase went
  · rename_i phase; exact startLineTurn_descends r next bytes rest told phase went
  · rename_i phase; exact headerTurn_descends r next _ bytes rest told phase went
  · rename_i phase; exact bodyTurn_descends r next bytes rest told phase went
  · rename_i phase; exact chunkLineTurn_descends r next bytes rest told phase went
  · rename_i phase; exact chunkDataTurn_descends r next _ bytes rest told phase went
  · rename_i phase; exact trailerTurn_descends r next _ bytes rest told phase went
  · rename_i phase
    exact inBody_descends r next _ bytes rest told went fun own mid left ran =>
      preambleTurn_descends r mid own left told phase ran
  · rename_i phase
    exact inBody_descends r next _ bytes rest told went fun own mid left ran =>
      partHeaderTurn_descends r mid _ own left told phase ran
  · rename_i phase
    exact inBody_descends r next _ bytes rest told went fun own mid left ran =>
      partDataTurn_descends r mid own left told phase ran
  · rename_i phase
    exact inBody_descends r next _ bytes rest told went fun own mid left ran =>
      partEndTurn_descends r mid own left told phase ran
  · rename_i phase
    exact inBody_descends r next _ bytes rest told went fun own mid left ran =>
      epilogueTurn_descends r mid _ own left told phase ran
  · cases went

structure Reading where
  reader : Reader := {}
  rest : Bytes := []
  deriving DecidableEq

structure Scan where
  events : List Event
  result : Except Error Reading

def scan (r : Reader) (bytes : Bytes) : Scan :=
  match _ran : turn r bytes with
  | .onward told next rest =>
    let more := scan next rest
    { more with events := told ++ more.events }
  | .pause told next rest => ⟨told, .ok ⟨next, rest⟩⟩
  | .fault told e => ⟨told, .error e⟩
termination_by bytes.length + rank r.phase
decreasing_by exact turn_descends r next bytes rest told _ran

theorem scan_onward (r next : Reader) (bytes rest : Bytes) (told : List Event)
    (ran : turn r bytes = .onward told next rest) :
    scan r bytes = ⟨told ++ (scan next rest).events, (scan next rest).result⟩ := by
  rw [scan]
  split <;> rename_i other <;> rw [ran] at other <;> cases other
  rfl

theorem scan_pause (r next : Reader) (bytes rest : Bytes) (told : List Event)
    (ran : turn r bytes = .pause told next rest) : scan r bytes = ⟨told, .ok ⟨next, rest⟩⟩ := by
  rw [scan]
  split <;> rename_i other <;> rw [ran] at other <;> cases other
  rfl

theorem scan_fault (r : Reader) (bytes : Bytes) (told : List Event) (e : Error)
    (ran : turn r bytes = .fault told e) : scan r bytes = ⟨told, .error e⟩ := by
  rw [scan]
  split <;> rename_i other <;> rw [ran] at other <;> cases other
  rfl

namespace Reading

def progress (x : Reading) : Progress := x.reader.progress

def used (x : Reading) (bytes : Bytes) : Nat := bytes.length - x.rest.length

def counted (x : Reading) (bytes : Bytes) : Reading :=
  { x with reader := { x.reader with consumed := x.reader.consumed + x.used bytes } }

end Reading

variable {σ : Type}

-- An event that is refused ends the call, whatever the reader found after it.
def read (r : Reader) (handler : Handler σ) (s : σ) (bytes : Bytes) :
    σ × Except Error Reading :=
  let found := scan r bytes
  match handler.deliver s found.events with
  | (s, some e) => (s, .error e)
  | (s, none) => (s, found.result.map (·.counted bytes))

def Reading.push (x : Reading) (handler : Handler σ) (s : σ) (more : Bytes) :
    σ × Except Error Reading :=
  x.reader.read handler s (x.rest ++ more)

-- The end of input completes a body that runs up to it, and nothing else.
def ending? (r : Reader) : Option (List Event) :=
  match r.phase with
  | .done => some []
  | .body => if r.isOpenEnded then some [.dataDone .body] else none
  | .epilogue _ => if r.isOpenEnded then some [.dataDone .epilogue] else none
  | _ => none

def finish (r : Reader) (handler : Handler σ) (s : σ) : σ × Except Error Reader :=
  match r.ending? with
  | none => (s, .error .moreData)
  | some events =>
    match handler.deliver s events with
    | (s, some e) => (s, .error e)
    | (s, none) => (s, .ok { r with phase := .done })

end HttpWire.Reader
