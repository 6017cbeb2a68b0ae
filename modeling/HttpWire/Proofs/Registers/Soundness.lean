import HttpWire.Proofs.Registers.Parts

-- No subtraction goes below zero, and the boundary is there where it is cut.
namespace HttpWire.Registers

variable {σ : Type} {handler : Handler σ} {s : σ} {cur : Cursor} {m : Registers}

section Loops

structure Ends (cur : Cursor) (out : σ × Except Halt (Registers × Cursor)) (run : Reader.Run σ) :
    Prop where
  state : out.1 = run.state
  failed : ∀ e, run.result = .error e → out.2 = .error (.failed e)
  ended : ∀ y, run.result = .ok y → ∃ next c, out.2 = .ok (next, c) ∧
    next.Sound ∧ next.reader = y.reader ∧ c.rest = y.rest ∧ cur.Ahead c

theorem Ends.before {c : Cursor} {out : σ × Except Halt (Registers × Cursor)} {run : Reader.Run σ}
    {laps : List Reader.Lap} (ahead : cur.Ahead c) (ends : Ends c out run) :
    Ends cur out (run.behind laps) := by
  refine ⟨ends.state, ends.failed, fun y same => ?_⟩
  obtain ⟨next, d, out_, sound, shown, left, further⟩ := ends.ended y same
  exact ⟨next, d, out_, sound, shown, left, ahead.trans further⟩

theorem ends_failed {out : σ × Except Halt (Registers × Cursor)} {e : Error}
    (same : out = (s, .error (.failed e))) : Ends cur out ⟨[], s, .error e⟩ := by
  refine ⟨congrArg Prod.fst same, fun e' given => ?_, fun y given => ?_⟩
  · cases given
    exact congrArg Prod.snd same
  · cases given

-- Turn by turn. A turn that is not the last one leaves registers that show the next reader.
theorem loop_ends {rounds : Nat} {run : Reader.Run σ} (sound : m.Sound)
    (ran : Reader.loop handler rounds s ⟨m.reader, cur.rest⟩ = some run) :
    Ends cur (loop handler rounds m cur s) run := by
  -- The registers change from turn to turn, the reader they show along with them.
  induction rounds generalizing m cur s run with
  | zero => cases ran
  | succ rounds ih =>
    have agrees := @turn_agrees _ handler s cur m sound
    have kept := Reader.turn_sound m.reader cur.rest sound.reader
    rw [Reader.loop] at ran
    rw [loop]
    dsimp only at ran ⊢
    generalize m.turn handler cur s = d at agrees
    cases told : handler.deliver s (Reader.turn m.reader cur.rest).told with
    | mk t refused =>
      rw [told] at ran
      cases refused with
      | some e =>
        obtain ⟨state, verdict⟩ := agrees.refused t e told
        cases ran
        rw [verdict, ← state]
        exact ends_failed rfl
      | none =>
        obtain ⟨state, met⟩ := agrees.taken t told
        cases went : Reader.turn m.reader cur.rest with
        | fault told e =>
          rw [went] at ran met
          cases ran
          rw [show d.verdict = .failed e from met, ← state]
          exact ends_failed rfl
        | pause told next rest =>
          rw [went] at ran met kept
          obtain ⟨verdict, shows_, left⟩ := met
          cases ran
          rw [verdict]
          refine ⟨state, fun e given => ?_, fun y given => ?_⟩
          · cases given
          · cases given
            exact ⟨_, _, rfl, ⟨shows_.tidy, shows_.reader ▸ kept.2⟩, shows_.reader, left, agrees.ahead⟩
        | onward told next rest =>
          rw [went] at ran met kept
          obtain ⟨verdict, shows_, rfl⟩ := met
          obtain ⟨later, more, rfl⟩ := Option.map_eq_some_iff.mp ran
          rw [verdict]
          rw [← shows_.reader, ← state] at more
          exact (ih ⟨shows_.tidy, shows_.reader ▸ kept.2⟩ more).before agrees.ahead

end Loops

section Calls

def shown (left : Registers × Bytes) : Reader.Reading := ⟨left.1.reader, left.2⟩

-- The machine has no other way to fail than with an error of the reader.
inductive Same : σ × Except Halt (Registers × Bytes) → σ × Except Error Reader.Reading → Prop
  | failed (t : σ) (e : Error) : Same (t, .error (.failed e)) (t, .error e)
  | ended (t : σ) (left : Registers × Bytes) : Same (t, .ok left) (t, .ok (shown left))

theorem Same.of_ok {out : σ × Except Halt (Registers × Bytes)} {read : σ × Except Error Reader.Reading}
    {x : Reader.Reading} (same : Same out read) (ended : read.2 = .ok x) :
    ∃ left, out.2 = .ok left ∧ shown left = x := by
  cases same with
  | failed => cases ended
  | ended t left => exact ⟨left, rfl, Except.ok.inj ended⟩

theorem Same.not_trapped {out : σ × Except Halt (Registers × Bytes)}
    {read : σ × Except Error Reader.Reading} (same : Same out read) : out.2 ≠ .error .trapped := by
  intro trapped
  cases same <;> cases trapped

theorem read_agrees (sound : m.Sound) (handler : Handler σ) (s : σ) (bytes : Bytes) :
    Same (m.read handler s bytes) (m.reader.read handler s bytes) ∧
    ∀ left, (m.read handler s bytes).2 = .ok left → left.1.Sound := by
  have enough : bytes.length + Reader.rank m.reader.phase < bytes.length + 3 := by
    have bound := Reader.rank_le m.reader.phase
    omega
  obtain ⟨run, ran⟩ := Reader.loop_ends handler _ s ⟨m.reader, bytes⟩ enough
  have ends := @loop_ends _ handler s (Cursor.ofBytes bytes) m _ _ sound ran
  rw [Reader.loop_read ran, read]
  generalize loop handler (bytes.length + 3) m (Cursor.ofBytes bytes) s = out at ends
  obtain ⟨t, result⟩ := out
  obtain rfl : t = run.state := ends.state
  cases told : run.result with
  | error e =>
    obtain rfl : result = .error (.failed e) := ends.failed e told
    refine ⟨.failed _ e, fun left given => ?_⟩
    cases given
  | ok y =>
    obtain ⟨next, c, same, sound', reader_, left, ahead⟩ := ends.ended y told
    obtain rfl : result = .ok (next, c) := same
    -- The place of the cursor is what the buffer has lost.
    have used : c.position = bytes.length - y.rest.length := by
      have place := ahead.position.2
      rw [left] at place
      change 0 + bytes.length = _ at place
      omega
    have counted : y.counted bytes
        = shown ({ next with consumed := next.consumed + c.position }, c.rest) := by
      rw [Reader.Reading.counted, Reader.Reading.used, ← used, ← reader_, ← left]
      rfl
    refine ⟨?_, fun left given => ?_⟩
    · rw [Except.map, counted]
      exact .ended _ _
    · cases given
      have moved : Registers.reader { next with consumed := next.consumed + c.position }
        = (y.counted bytes).reader := congrArg Reader.Reading.reader counted.symm
      exact ⟨⟨sound'.1.1, sound'.1.2, sound'.1.3, sound'.1.4, sound'.1.5, sound'.1.6⟩,
        moved ▸ (reader_ ▸ sound'.reader).counting _⟩

theorem ending_agrees (m : Registers) (handler : Handler σ) (s : σ) (place : Place) :
    Prod.map id (·.map reader) (m.ending handler s place) =
      match handler.deliver s [.dataDone place] with
      | (t, some e) => (t, .error e)
      | (t, none) => (t, .ok { m.reader with phase := .done }) := by
  unfold ending Handler.deliver
  cases handler s (.dataDone place) with
  | mk t refused => cases refused <;> rfl

theorem finish_agrees (m : Registers) (handler : Handler σ) (s : σ) :
    Prod.map id (·.map reader) (m.finish handler s) = m.reader.finish handler s := by
  unfold finish Reader.finish Reader.ending? Reader.isOpenEnded
  rw [show m.reader.phase = m.phase from rfl, show m.reader.framing.declared = m.declared from rfl]
  cases step : m.step with
  | body =>
    rw [show m.phase = .body by rw [phase, step]]
    by_cases open_ : m.declared.isNone = true
    · simp only [open_, if_true]
      exact ending_agrees m handler s .body
    · simp only [open_, Bool.false_eq_true, if_false]
      rfl
  | epilogue =>
    rw [show m.phase = .epilogue m.haveEpilogue by rw [phase, step]]
    by_cases open_ : m.declared.isNone = true
    · simp only [open_, if_true]
      exact ending_agrees m handler s .epilogue
    · simp only [open_, Bool.false_eq_true, if_false]
      rfl
  | done =>
    have done : m.phase = .done := by rw [phase, step]
    rw [done]
    exact congrArg (fun phase => (s, Except.ok { m.reader with phase })) done
  | _ =>
    simp only [phase, step]
    rfl

theorem ending_step {next : Registers} {place : Place} (ran : (m.ending handler s place).2 = .ok next) :
    next = { m with step := .done } := by
  unfold ending at ran
  split at ran <;> cases ran
  rfl

theorem finish_step {next : Registers} (ran : (m.finish handler s).2 = .ok next) :
    next = { m with step := .done } ∧ (m.step = .done ∨ m.step = .body ∨ m.step = .epilogue) := by
  unfold finish at ran
  cases step : m.step <;> simp only [step] at ran
  case done =>
    cases ran
    exact ⟨by rw [← step], .inl rfl⟩
  case body =>
    split at ran
    · exact ⟨ending_step ran, .inr (.inl rfl)⟩
    · cases ran
  case epilogue =>
    split at ran
    · exact ⟨ending_step ran, .inr (.inr rfl)⟩
    · cases ran
  all_goals cases ran

theorem finish_sound {next : Registers} (sound : m.Sound) (ran : (m.finish handler s).2 = .ok next) :
    next.Sound := by
  obtain ⟨rfl, complete⟩ := finish_step ran
  have spent : m.headerBytes = 0 ∧ m.chunkRemaining = 0 := by
    rcases complete with step | step | step <;> exact sound.plain step (by decide)
  exact ⟨sound.ended spent.1 spent.2, sound.reader.ended⟩

end Calls

section Invariants

-- What a step does not use is as it was at first, and of a body no more is seen than there is.
structure InOrder (m : Registers) : Prop where
  headerBytes : m.headerBytes ≤ Reader.sectionRoom
  noSection : m.step ≠ .header → m.step ≠ .trailer → m.step ≠ .partHeader → m.headerBytes = 0
  noChunk : m.step ≠ .chunkData → m.chunkRemaining = 0
  body : m.step = .body → ∀ length, m.declared = some length → m.seen < length
  parts : m.step.inParts = true → ∀ length, m.declared = some length → m.seen ≤ length
  boundary : m.step.inParts = true → ∃ boundary : Bytes, m.boundary = crlf ++ (dashes ++ boundary) ∧
    1 ≤ boundary.length ∧ boundary.length ≤ Framing.boundaryLimit
  havePart : m.step.inParts = true → (m.havePart = false ↔ m.step = .preamble)
  haveEnd : m.step.inParts = true → (m.haveEnd = true ↔ m.step = .epilogue)

theorem phase_inParts (m : Registers) : m.phase.inParts = m.step.inParts := by
  unfold phase
  cases m.step <;> rfl

theorem Sound.headerBytes_le (sound : m.Sound) : m.headerBytes ≤ Reader.sectionRoom := by
  have fits : m.phase.sectionSize ≤ Reader.sectionRoom := sound.reader.size
  cases inside : m.step.inSection with
  | false => rw [sound.headerBytes inside]; exact Nat.zero_le _
  | true =>
    have size : m.phase.sectionSize = m.headerBytes := by
      unfold phase
      cases step : m.step <;> first | rfl | rw [step] at inside; cases inside
    rwa [size] at fits

theorem Sound.inOrder (sound : m.Sound) : m.InOrder := by
  have going : m.step.inParts = true → m.step ≠ .done := by
    intro inside done
    rw [done] at inside
    cases inside
  refine ⟨sound.headerBytes_le, fun first last part => sound.headerBytes ?_, sound.chunkRemaining,
    fun here => (sound.reader.body ?_).2, fun inside => (sound.reader.parts ?_).2, fun inside => ?_,
    fun inside => ?_, fun inside => ?_⟩
  · cases step : m.step <;> first | rfl | contradiction
  · show m.phase = .body
    rw [phase, here]
  · exact (phase_inParts m).trans inside
  · obtain ⟨boundary, _, whole, real, short⟩ :=
      sound.boundary_whole ((phase_inParts m).trans inside)
    exact ⟨boundary, whole, List.length_pos_iff.mpr real, short⟩
  · rw [sound.havePart (going inside)]
    cases step : m.step <;> rw [step] at inside <;> first | decide | cases inside
  · rw [sound.haveEnd (going inside), decide_eq_true_eq]

inductive Reached : Registers → Prop
  | fresh (skip : Bool) : Reached { skipStartLine := skip }
  | read {σ : Type} {m next : Registers} {handler : Handler σ} {s : σ} {bytes rest : Bytes} :
    Reached m → (m.read handler s bytes).2 = .ok (next, rest) → Reached next
  | finish {σ : Type} {m next : Registers} {handler : Handler σ} {s : σ} :
    Reached m → (m.finish handler s).2 = .ok next → Reached next

theorem fresh_sound (skip : Bool) : Sound { skipStartLine := skip } :=
  ⟨⟨fun _ => rfl, fun _ => rfl, .inl rfl, fun _ => rfl, fun _ => rfl, fun _ _ => rfl⟩,
    Reader.fresh_sound skip⟩

theorem reached_sound (reached : Reached m) : m.Sound := by
  induction reached with
  | fresh skip => exact fresh_sound skip
  | read _ ran sound => exact (read_agrees sound _ _ _).2 _ ran
  | finish _ ran sound => exact finish_sound sound ran

-- Every reader that there is can be shown, so that nothing below is said of too few of them.
theorem reached_shown (r : Reader) (reached : Reader.Reached r) : ∃ m, Reached m ∧ m.reader = r := by
  induction reached with
  | fresh skip => exact ⟨_, .fresh skip, rfl⟩
  | @call _ _ x handler s bytes _ ran ih =>
    obtain ⟨m, before, rfl⟩ := ih
    obtain ⟨left, given, rfl⟩ := (read_agrees (reached_sound before) handler s bytes).1.of_ok ran
    exact ⟨left.1, .read before given, rfl⟩
  | @finish _ _ next handler s _ ran ih =>
    obtain ⟨m, before, rfl⟩ := ih
    rw [← finish_agrees] at ran
    cases given : (m.finish handler s).2 with
    | error e =>
      rw [Prod.map_snd, given] at ran
      cases ran
    | ok after =>
      rw [Prod.map_snd, given] at ran
      cases ran
      exact ⟨_, .finish before given, rfl⟩

theorem calls_keep_order (m : Registers) (reached : Reached m) : m.InOrder ∧
    ∀ {σ : Type} (handler : Handler σ) (s : σ),
      Prod.map id (·.map reader) (m.finish handler s) = m.reader.finish handler s ∧
      ∀ bytes, (m.read handler s bytes).2 ≠ .error .trapped ∧
        Same (m.read handler s bytes) (m.reader.read handler s bytes) := by
  have sound := reached_sound reached
  refine ⟨sound.inOrder, fun handler s => ⟨finish_agrees m handler s, fun bytes => ?_⟩⟩
  have same := (read_agrees sound handler s bytes).1
  exact ⟨same.not_trapped, same⟩

theorem calls_keep_order_within_part :
    let message := ascii
      ("POST / HTTP/1.1\r\nContent-Type: multipart/mixed; boundary=q\r\nContent-Length: 20\r\n\r\n"
        ++ "--q\r\n\r\nhi")
    let m : Registers :=
      { step := .partData, sender := .client .post, format := .multipart, declared := some 20,
        seen := 9, boundary := ascii "\r\n--q", havePart := true, consumed := message.length }
    Reached m ∧ m.InOrder ∧ ∀ bytes, (m.read Handler.record #[] bytes).2 ≠ .error .trapped := by
  intro message m
  have ran : (Registers.read {} Handler.record #[] message).2 = .ok (m, []) := by decide +kernel
  have reached : Reached m := .read (.fresh false) ran
  obtain ⟨order, calls⟩ := calls_keep_order m reached
  exact ⟨reached, order, fun bytes => ((calls Handler.record #[]).2 bytes).1⟩

end Invariants

end HttpWire.Registers
