import HttpWire.Proofs.Joining
import HttpWire.Proofs.Leftover

-- A turn that waits takes up where it is; any other would have done the same with more input.
namespace HttpWire.Reader

def Turn.announce (told : List Event) : Turn → Turn
  | .onward later next rest => .onward (told ++ later) next rest
  | .pause later next rest => .pause (told ++ later) next rest
  | .fault later e => .fault (told ++ later) e

def Turn.joined : Turn → Turn
  | .onward told next rest => .onward (Event.joined told) next rest
  | .pause told next rest => .pause (Event.joined told) next rest
  | .fault told e => .fault (Event.joined told) e

def Turn.resume (more : Bytes) : Turn → Turn
  | .onward told next rest => .onward told next (rest ++ more)
  | .pause told next rest => (turn next (rest ++ more)).announce told
  | .fault told e => .fault told e

@[simp] theorem Turn.announce_nil (t : Turn) : t.announce [] = t := by
  cases t <;> rfl

-- Nothing is announced before a line has ended, so a turn that waits for its end is tried again.
theorem skipEmptyLines_append (bytes more : Bytes) :
    skipEmptyLines (bytes ++ more) = skipEmptyLines (skipEmptyLines bytes ++ more) := by
  fun_induction skipEmptyLines bytes with
  | case1 => rfl
  | case2 => rfl
  | case3 a b rest line ih =>
    rw [← ih]
    simp [skipEmptyLines, line]
  | case4 => rfl

theorem skipEmptyLines_absent (bytes : Bytes) (plain : opening crlf bytes = .absent) :
    skipEmptyLines bytes = bytes := by
  fun_cases skipEmptyLines bytes with
  | case1 => rfl
  | case2 => rfl
  | case3 a b rest line =>
    obtain ⟨rfl, rfl⟩ := line
    exact absurd ((opening_mark crlf rest).symm.trans plain) (by simp)
  | case4 => rfl

theorem skipEmptyLines_present (bytes rest : Bytes) :
    opening crlf (skipEmptyLines bytes) ≠ .present rest := by
  intro here
  have starts := opening_present crlf _ rest here
  fun_induction skipEmptyLines bytes with
  | case1 => cases starts
  | case2 => cases starts
  | case3 _ _ _ _ ih => exact ih here starts
  | case4 a b after line =>
    simp only [crlf, List.cons_append, List.cons.injEq] at starts
    exact line ⟨starts.1, starts.2.1⟩

theorem startTurn_append (r : Reader) (bytes more : Bytes) (phase : r.phase = .start) :
    turn r (bytes ++ more) = (turn r bytes).resume more := by
  have here : ∀ input, turn r input = startTurn r input := fun input => by simp only [turn, phase]
  rw [here, here]
  by_cases skip : r.skipStartLine = true
  · simp only [startTurn, skip, if_true, Turn.resume]
  · simp only [startTurn, if_neg skip]
    cases begun : opening crlf (skipEmptyLines bytes) with
    | present rest => exact absurd begun (skipEmptyLines_present bytes rest)
    | undecided =>
      simp only [Turn.resume, Turn.announce_nil, here, startTurn, if_neg skip]
      rw [skipEmptyLines_append]
    | absent =>
      have longer := opening_append_absent crlf _ more begun
      rw [skipEmptyLines_append, skipEmptyLines_absent _ longer, longer]
      rfl

theorem startLineTurn_append (r : Reader) (bytes more : Bytes) (phase : r.phase = .startLine) :
    turn r (bytes ++ more) = (turn r bytes).resume more := by
  have here : ∀ input, turn r input = startLineTurn r input := fun input => by
    simp only [turn, phase]
  rw [here, here]
  unfold startLineTurn
  cases taken : takeLine startLineRoom bytes with
  | tooLong =>
    rw [takeLine_append_tooLong _ _ more taken]
    rfl
  | unfinished =>
    simp only [Turn.resume, Turn.announce_nil, here]
    rfl
  | whole line rest =>
    rw [takeLine_append_whole _ _ _ _ more taken]
    dsimp only
    split <;> rfl

theorem chunkLineTurn_append (r : Reader) (bytes more : Bytes) (phase : r.phase = .chunkLine) :
    turn r (bytes ++ more) = (turn r bytes).resume more := by
  have here : ∀ input, turn r input = chunkLineTurn r input := fun input => by
    simp only [turn, phase]
  rw [here, here]
  unfold chunkLineTurn
  cases taken : takeLine chunkLineRoom bytes with
  | tooLong =>
    rw [takeLine_append_tooLong _ _ more taken]
    rfl
  | unfinished =>
    simp only [Turn.resume, Turn.announce_nil, here]
    rfl
  | whole line rest =>
    rw [takeLine_append_whole _ _ _ _ more taken]
    dsimp only
    split
    · rfl
    · split
      · rfl
      · split <;> rfl

def SectionLine.resume (more : Bytes) : SectionLine → SectionLine
  | .field f size rest => .field f size (rest ++ more)
  | .closed rest => .closed (rest ++ more)
  | line => line

theorem sectionLine_append (size : Nat) (bytes more : Bytes)
    (ended : sectionLine size bytes ≠ .unfinished) :
    sectionLine size (bytes ++ more) = (sectionLine size bytes).resume more := by
  unfold sectionLine at ended ⊢
  cases taken : takeLine (sectionRoom - size) bytes with
  | tooLong =>
    rw [takeLine_append_tooLong _ _ more taken]
    rfl
  | unfinished => simp [taken] at ended
  | whole line rest =>
    rw [takeLine_append_whole _ _ _ _ more taken]
    cases line with
    | nil => rfl
    | cons b line =>
      dsimp only
      split <;> rfl

theorem headerTurn_append (r : Reader) (size : Nat) (bytes more : Bytes)
    (phase : r.phase = .header size) : turn r (bytes ++ more) = (turn r bytes).resume more := by
  have here : ∀ input, turn r input = headerTurn r size input := fun input => by
    simp only [turn, phase]
  rw [here, here]
  unfold headerTurn
  cases line : sectionLine size bytes with
  | unfinished =>
    simp only [Turn.resume, Turn.announce_nil, here]
    rfl
  | fault e =>
    rw [sectionLine_append size bytes more (by simp [line]), line]
    rfl
  | closed rest =>
    rw [sectionLine_append size bytes more (by simp [line]), line]
    dsimp only [SectionLine.resume]
    split <;> rfl
  | field f after rest =>
    rw [sectionLine_append size bytes more (by simp [line]), line]
    dsimp only [SectionLine.resume]
    split <;> rfl

theorem trailerTurn_append (r : Reader) (size : Nat) (bytes more : Bytes)
    (phase : r.phase = .trailer size) : turn r (bytes ++ more) = (turn r bytes).resume more := by
  have here : ∀ input, turn r input = trailerTurn r size input := fun input => by
    simp only [turn, phase]
  rw [here, here]
  unfold trailerTurn
  cases line : sectionLine size bytes with
  | unfinished =>
    simp only [Turn.resume, Turn.announce_nil, here]
    rfl
  | fault e => rw [sectionLine_append size bytes more (by simp [line]), line]; rfl
  | closed rest => rw [sectionLine_append size bytes more (by simp [line]), line]; rfl
  | field f after rest => rw [sectionLine_append size bytes more (by simp [line]), line]; rfl

-- The part of the data that has not come yet is announced later, under the same place.
theorem bodyTurn_append (r : Reader) (bytes more : Bytes) (phase : r.phase = .body) :
    (turn r (bytes ++ more)).joined = ((turn r bytes).resume more).joined := by
  have here : ∀ (s : Reader) input, s.phase = .body → turn s input = bodyTurn s input :=
    fun s input body => by simp only [turn, body]
  have left : ∀ n, ({ r with seen := r.seen + n } : Reader).remaining = r.remaining.map (· - n) :=
    fun n => by simp [remaining, Function.comp_def, Nat.sub_sub]
  rw [here r _ phase, here r _ phase]
  unfold bodyTurn
  simp only [left]
  by_cases reached : r.remaining.map (· - (within r.remaining bytes).length) = some 0
  · have same := within_reached r.remaining bytes more reached
    rw [same, if_pos reached, if_pos reached,
      List.drop_append_of_le_length (within_length_le r.remaining bytes)]
    rfl
  · have all := within_open r.remaining bytes reached
    rw [if_neg reached]
    rw [all] at reached ⊢
    simp only [Turn.resume, List.drop_length, List.nil_append]
    rw [here { r with seen := r.seen + bytes.length } more phase]
    unfold bodyTurn
    simp only [left, within_append, all, List.length_append, Nat.add_assoc]
    have rest : (bytes ++ more).drop
          (bytes.length + (within (r.remaining.map (· - bytes.length)) more).length)
        = more.drop (within (r.remaining.map (· - bytes.length)) more).length :=
      List.drop_length_add_append _
    have data := Event.joined_ofData_append .body bytes
      (within (r.remaining.map (· - bytes.length)) more)
    rw [rest]
    split
    · simp only [Turn.announce, Turn.joined]
      rw [← List.append_assoc, Event.joined_append_congr data rfl]
    · simp only [Turn.announce, Turn.joined, data]

theorem chunkData_here (r : Reader) (missing : Nat) (input : Bytes)
    (phase : r.phase = .chunkData missing) : turn r input = chunkDataTurn r missing input := by
  simp only [turn, phase]

theorem chunkData_short (r : Reader) (missing : Nat) (bytes more : Bytes)
    (short : bytes.length < missing) :
    (chunkDataTurn r missing (bytes ++ more)).joined
      = ((chunkDataTurn r missing bytes).resume more).joined := by
  have all : bytes.take missing = bytes := List.take_of_length_le (Nat.le_of_lt short)
  have none : bytes.drop missing = [] := List.drop_of_length_le (Nat.le_of_lt short)
  have data := Event.joined_ofData_append (.chunk r.index) bytes
    (more.take (missing - bytes.length))
  unfold chunkDataTurn
  dsimp only
  rw [all, none, if_pos short]
  simp only [Turn.resume, List.nil_append]
  rw [chunkData_here _ (missing - bytes.length) more rfl]
  unfold chunkDataTurn
  dsimp only
  rw [List.take_append, List.drop_append, all, none, List.nil_append, List.length_append,
    ← Nat.add_assoc, ← Nat.sub_sub]
  by_cases fits : (more.take (missing - bytes.length)).length < missing - bytes.length
  · rw [if_pos fits, if_pos (by omega)]
    simp only [Turn.announce, Turn.joined, data]
  · rw [if_neg fits, if_neg (by omega)]
    cases opening crlf (more.drop (missing - bytes.length)) with
    | undecided => simp only [Turn.announce, Turn.joined, data]
    | absent => simp only [Turn.announce, Turn.joined, data]
    | present rest =>
      simp only [Turn.announce, Turn.joined]
      rw [← List.append_assoc, Event.joined_append_congr data rfl]

-- All data of the chunk is there, but perhaps not the CRLF behind it.
theorem chunkData_enough (r : Reader) (missing : Nat) (bytes more : Bytes)
    (enough : missing ≤ bytes.length) :
    (chunkDataTurn r missing (bytes ++ more)).joined
      = ((chunkDataTurn r missing bytes).resume more).joined := by
  have data : (bytes ++ more).take missing = bytes.take missing :=
    List.take_append_of_le_length enough
  have rest : (bytes ++ more).drop missing = bytes.drop missing ++ more :=
    List.drop_append_of_le_length enough
  have full : ¬ (bytes.take missing).length < missing := by
    rw [List.length_take_of_le enough]
    exact Nat.lt_irrefl missing
  unfold chunkDataTurn
  dsimp only
  rw [data, rest, if_neg full, if_neg full]
  cases begun : opening crlf (bytes.drop missing) with
  | present after =>
    rw [opening_append_present _ _ more _ begun]
    rfl
  | absent =>
    rw [opening_append_absent _ _ more begun]
    rfl
  | undecided =>
    simp only [Turn.resume]
    rw [chunkData_here _ 0 _ (by simp only [List.length_take_of_le enough, Nat.sub_self])]
    unfold chunkDataTurn
    simp only [List.take_zero, List.drop_zero, List.length_nil, Nat.lt_irrefl, if_false,
      Event.ofData_nil, List.nil_append, List.length_take_of_le enough, Nat.sub_self,
      Nat.add_zero]
    cases opening crlf (bytes.drop missing ++ more) <;> simp [Turn.announce]

theorem chunkDataTurn_append (r : Reader) (missing : Nat) (bytes more : Bytes)
    (phase : r.phase = .chunkData missing) :
    (turn r (bytes ++ more)).joined = ((turn r bytes).resume more).joined := by
  rw [chunkData_here r missing _ phase, chunkData_here r missing _ phase]
  rcases Nat.lt_or_ge bytes.length missing with short | enough
  · exact chunkData_short r missing bytes more short
  · exact chunkData_enough r missing bytes more enough

end HttpWire.Reader
