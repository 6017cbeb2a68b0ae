import HttpWire.Proofs.EventWords
import HttpWire.Proofs.Fragments

-- What a reader announces is the beginning of a word of events, and a whole one when it is done.
namespace HttpWire.Reader
open Event
open scoped Computability

def awaited (r : Reader) : Language Event :=
  match r.phase with
  | .start => messageWord r.skipStartLine r.index
  | .startLine => startWord * headerWord r.index
  | .header _ => headerWord r.index
  | .body => bodyWord r.index .raw
  | .chunkLine => chunksWord r.index
  | .chunkData missing => chunkDataWord r.index missing
  | .trailer _ => trailerWord
  | .preamble => bodyWord r.index .multipart
  | .partHeader _ => partWord r.index * behindPart (r.index + 1)
  | .partData => partDataWord r.index * behindPart (r.index + 1)
  | .partEnd => behindPart r.index
  | .epilogue _ => epilogueWord
  | .done => 1

def Conforms (r : Reader) (told : List Event) : Except Error Reader → Prop
  | .ok next => (∀ w ∈ next.awaited, told ++ w ∈ r.awaited) ∧ (next.phase = .done ∨ Open told)
  | .error _ => (∃ w, told ++ w ∈ r.awaited) ∧ Open told

def Turn.Conforms (r : Reader) : Turn → Prop
  | .onward told next _ => Reader.Conforms r told (.ok next)
  | .pause told next _ => (∀ w ∈ next.awaited, told ++ w ∈ r.awaited) ∧ Open told
  | .fault told e => Reader.Conforms r told (.error e)

section Awaited

variable (index : Nat)

theorem trailerWord_nonempty : [.trailerDone] ∈ trailerWord := star_none (one_last _)

theorem epilogueWord_nonempty : [.dataDone .epilogue] ∈ epilogueWord := star_none (one_last _)

theorem chunksWord_nonempty : ∃ w, w ∈ chunksWord index :=
  ⟨_, chunks_last (star_none (one_then _ (one_then _ trailerWord_nonempty)))⟩

theorem chunkDataWord_nonempty (missing : Nat) : ∃ w, w ∈ chunkDataWord index missing := by
  obtain ⟨w, later⟩ := chunksWord_nonempty (index + 1)
  cases missing with
  | zero => exact ⟨_, one_then _ later⟩
  | succ n =>
    have data : ofData (.chunk index) [0] ∈ dataAt (.chunk index) := ofData_mem _ _ (by simp)
    exact ⟨_, Language.append_mem_mul data (star_none (one_then _ later))⟩

theorem behindPart_nonempty : ∃ w, w ∈ behindPart index :=
  ⟨_, .inl (one_then _ epilogueWord_nonempty)⟩

theorem partDataWord_nonempty : ∃ w, w ∈ partDataWord index * behindPart (index + 1) := by
  obtain ⟨w, later⟩ := behindPart_nonempty (index + 1)
  exact ⟨_, Language.append_mem_mul (star_none (one_last _)) later⟩

theorem partWord_nonempty : ∃ w, w ∈ partWord index * behindPart (index + 1) := by
  obtain ⟨w, later⟩ := behindPart_nonempty (index + 1)
  exact ⟨_, Language.append_mem_mul (star_none (one_then _ (star_none (one_last _)))) later⟩

theorem partsWord_nonempty : ∃ w, w ∈ partsWord index := by
  obtain ⟨w, parts⟩ := partWord_nonempty index
  exact ⟨w, parts_next parts⟩

theorem headerWord_nonempty : [.headerDone .empty] ∈ headerWord index :=
  ⟨.empty, star_none (one_then _ rfl)⟩

-- A reader is never in a state that no events could complete.
theorem awaited_nonempty (r : Reader) : ∃ w, w ∈ r.awaited := by
  have line : [.start (.response .v11 200 [])] ∈ startWord := ⟨_, rfl⟩
  unfold awaited
  split
  · unfold messageWord
    split
    · exact ⟨_, headerWord_nonempty r.index⟩
    · exact ⟨_, Language.append_mem_mul line (headerWord_nonempty r.index)⟩
  · exact ⟨_, Language.append_mem_mul line (headerWord_nonempty r.index)⟩
  · exact ⟨_, headerWord_nonempty r.index⟩
  · exact ⟨_, star_none (one_last _)⟩
  · exact chunksWord_nonempty r.index
  · exact chunkDataWord_nonempty r.index _
  · exact ⟨_, trailerWord_nonempty⟩
  · obtain ⟨w, parts⟩ := partsWord_nonempty r.index
    exact ⟨_, star_none (one_then _ parts)⟩
  · exact partWord_nonempty r.index
  · exact partDataWord_nonempty r.index
  · exact behindPart_nonempty r.index
  · exact ⟨_, epilogueWord_nonempty⟩
  · exact ⟨[], rfl⟩

end Awaited

section Turns

variable (r : Reader) (bytes : Bytes)

theorem conforms_wait : (Turn.pause [] r bytes).Conforms r := ⟨fun _ rest => rest, open_nil⟩

theorem conforms_fail (e : Error) : (Turn.fault [] e).Conforms r := ⟨awaited_nonempty r, open_nil⟩

theorem startTurn_conforms (phase : r.phase = .start) : (startTurn r bytes).Conforms r := by
  have awaits : r.awaited = messageWord r.skipStartLine r.index := by simp only [awaited, phase]
  unfold startTurn
  split
  · rename_i skips
    refine ⟨fun w rest => ?_, .inr open_nil⟩
    rw [awaits, messageWord, if_pos skips]
    exact rest
  · rename_i reads
    dsimp only
    split
    · exact conforms_wait r _
    · refine ⟨fun w rest => ?_, .inr open_nil⟩
      rw [awaits, messageWord, if_neg reads]
      exact rest

theorem startLineTurn_conforms (phase : r.phase = .startLine) :
    (startLineTurn r bytes).Conforms r := by
  have awaits : r.awaited = startWord * headerWord r.index := by simp only [awaited, phase]
  unfold startLineTurn
  split
  · exact conforms_fail r _
  · exact conforms_wait r bytes
  · split
    · exact conforms_fail r _
    · refine ⟨fun w rest => ?_, .inr (open_one (by simp [IsLast]))⟩
      rw [awaits]
      exact Language.append_mem_mul ⟨_, rfl⟩ rest

theorem bodyPhase_awaited (framing : Framing) (format : BodyFormat) :
    awaited { r with framing, phase := bodyPhase format } = bodyWord r.index format := by
  cases format <;> rfl

theorem headerTurn_conforms (size : Nat) (phase : r.phase = .header size) :
    (headerTurn r size bytes).Conforms r := by
  have awaits : r.awaited = headerWord r.index := by simp only [awaited, phase]
  unfold headerTurn
  split
  · exact conforms_fail r _
  · exact conforms_wait r bytes
  · split
    · exact conforms_fail r _
    · rename_i framing _
      refine ⟨fun w rest => ?_, ?_⟩
      · rw [awaits]
        rw [bodyPhase_awaited] at rest
        exact ⟨framing.format, star_none (one_then _ rest)⟩
      · cases format : framing.format with
        | empty => exact .inl rfl
        | _ => exact .inr (open_one (by simp [IsLast]))
  · split
    · exact conforms_fail r _
    · refine ⟨fun w rest => ?_, .inr (open_field _ _)⟩
      rw [awaits]
      obtain ⟨format, later⟩ := rest
      exact ⟨format, star_more (ofField_mem _ _) later⟩

theorem bodyTurn_conforms (phase : r.phase = .body) : (bodyTurn r bytes).Conforms r := by
  have awaits : r.awaited = bodyWord r.index .raw := by simp only [awaited, phase]
  unfold bodyTurn
  dsimp only
  split
  · refine ⟨fun w rest => ?_, .inl rfl⟩
    cases rest
    rw [awaits, List.append_nil]
    exact ofData_star _ _ (star_none (one_last _))
  · refine ⟨fun w rest => ?_, open_data _ _⟩
    have same : w ∈ bodyWord r.index .raw := by simpa only [awaited, phase] using rest
    rw [awaits]
    exact ofData_star _ _ same

theorem chunkLineTurn_conforms (phase : r.phase = .chunkLine) :
    (chunkLineTurn r bytes).Conforms r := by
  have awaits : r.awaited = chunksWord r.index := by simp only [awaited, phase]
  unfold chunkLineTurn
  split
  · exact conforms_fail r _
  · exact conforms_wait r bytes
  · split
    · exact conforms_fail r _
    · rename_i chunk _
      dsimp only
      split
      · -- Extensions in front of a malformed one: the others would have followed.
        refine ⟨⟨[.extensionsDone r.index, .chunksDone, .trailerDone], ?_⟩, open_extensions _ _⟩
        rw [awaits]
        exact chunks_last (extensions_star _ _
          (star_none (one_then _ (one_then _ trailerWord_nonempty))))
      · split
        · refine ⟨fun w rest => ?_, .inr ((open_extensions _ _).append ?_)⟩
          · rw [awaits, List.append_assoc]
            exact chunks_last (extensions_star _ _ (star_none (one_then _ (one_then _ rest))))
          · have done : Open [.extensionsDone r.index] := open_one (by simp [IsLast])
            exact done.append (open_one (by simp [IsLast]))
        · rename_i real
          refine ⟨fun w rest => ?_, .inr ((open_extensions _ _).append (open_one (by simp [IsLast])))⟩
          rw [awaits, List.append_assoc]
          exact chunks_begun real _ rest

theorem chunkDataTurn_conforms (missing : Nat) (phase : r.phase = .chunkData missing) :
    (chunkDataTurn r missing bytes).Conforms r := by
  have awaits : r.awaited = chunkDataWord r.index missing := by simp only [awaited, phase]
  have short : (bytes.take missing).length ≤ missing := List.length_take_le missing bytes
  have told : ∀ w ∈ chunkDataWord r.index (missing - (bytes.take missing).length),
      ofData (.chunk r.index) (bytes.take missing) ++ w ∈ r.awaited := by
    intro w rest
    rw [awaits]
    exact chunkDataWord_data _ short rest
  unfold chunkDataTurn
  dsimp only
  split
  · exact ⟨told, open_data _ _⟩
  · rename_i full
    have none : missing - (bytes.take missing).length = 0 := by omega
    split
    · exact ⟨told, open_data _ _⟩
    · obtain ⟨w, later⟩ := chunkDataWord_nonempty r.index (missing - (bytes.take missing).length)
      exact ⟨⟨w, told w later⟩, open_data _ _⟩
    · refine ⟨fun w rest => ?_, .inr ((open_data _ _).append (open_one (by simp [IsLast])))⟩
      rw [List.append_assoc]
      apply told
      rw [none]
      exact one_then _ rest

theorem trailerTurn_conforms (size : Nat) (phase : r.phase = .trailer size) :
    (trailerTurn r size bytes).Conforms r := by
  have awaits : r.awaited = trailerWord := by simp only [awaited, phase]
  unfold trailerTurn
  split
  · exact conforms_fail r _
  · exact conforms_wait r bytes
  · refine ⟨fun w rest => ?_, .inl rfl⟩
    cases rest
    rw [awaits]
    exact trailerWord_nonempty
  · refine ⟨fun w rest => ?_, .inr (open_field _ _)⟩
    rw [awaits]
    exact star_more (ofField_mem _ _) rest

theorem partHeaderTurn_conforms (size : Nat) (phase : r.phase = .partHeader size) :
    (partHeaderTurn r size bytes).Conforms r := by
  have awaits : r.awaited = partWord r.index * behindPart (r.index + 1) := by
    simp only [awaited, phase]
  unfold partHeaderTurn
  split
  · exact conforms_fail r _
  · exact conforms_wait r bytes
  · refine ⟨fun w rest => ?_, .inr (open_one (by simp [IsLast]))⟩
    obtain ⟨data, here, back, later, rfl⟩ := Language.mem_mul.mp rest
    rw [awaits, ← List.append_assoc]
    exact Language.append_mem_mul (star_none (one_then _ here)) later
  · refine ⟨fun w rest => ?_, .inr (open_field _ _)⟩
    obtain ⟨part, here, back, later, rfl⟩ := Language.mem_mul.mp rest
    rw [awaits, ← List.append_assoc]
    exact Language.append_mem_mul (star_more (ofField_mem _ _) here) later

theorem afterFirst_conforms (data back : Bytes) (phase : r.phase = .preamble) :
    (afterFirst r (ofData .preamble data) back bytes).Conforms r := by
  have awaits : r.awaited = bodyWord r.index .multipart := by simp only [awaited, phase]
  have begun : ∃ w, ofData .preamble data ++ w ∈ r.awaited := by
    obtain ⟨w, later⟩ := awaited_nonempty r
    rw [awaits] at later ⊢
    exact ⟨w, ofData_star _ _ later⟩
  unfold afterFirst
  split
  · refine ⟨fun w rest => ?_, .inr ((open_data _ _).append (open_one (by simp [IsLast])))⟩
    rw [awaits, List.append_assoc]
    exact ofData_star _ _ (star_none (one_then _ (parts_next rest)))
  · exact ⟨begun, open_data _ _⟩
  · refine ⟨fun w rest => ?_, open_data _ _⟩
    rw [awaits] at rest ⊢
    exact ofData_star _ _ rest
  · exact ⟨begun, open_data _ _⟩

theorem preambleTurn_conforms (phase : r.phase = .preamble) :
    (preambleTurn r bytes).Conforms r := by
  have awaits : r.awaited = bodyWord r.index .multipart := by simp only [awaited, phase]
  rw [preambleTurn_eq]
  split
  · exact afterFirst_conforms r _ [] _ phase
  · exact conforms_wait r _
  · split
    · refine ⟨fun w rest => ?_, open_data _ _⟩
      rw [awaits] at rest ⊢
      exact ofData_star _ _ rest
    · exact afterFirst_conforms r _ _ _ phase

theorem partDataTurn_conforms (phase : r.phase = .partData) : (partDataTurn r bytes).Conforms r := by
  have awaits : r.awaited = partDataWord r.index * behindPart (r.index + 1) := by
    simp only [awaited, phase]
  unfold partDataTurn
  split
  · refine ⟨fun w rest => ?_, open_data _ _⟩
    rw [awaits] at rest ⊢
    obtain ⟨data, here, back, later, rfl⟩ := Language.mem_mul.mp rest
    rw [← List.append_assoc]
    exact Language.append_mem_mul (ofData_star _ _ here) later
  · refine ⟨fun w rest => ?_, .inr ((open_data _ _).append (open_one (by simp [IsLast])))⟩
    rw [awaits]
    exact Language.append_mem_mul (ofData_star _ _ (star_none (one_last _))) rest

theorem partEndTurn_conforms (phase : r.phase = .partEnd) : (partEndTurn r bytes).Conforms r := by
  have awaits : r.awaited = behindPart r.index := by simp only [awaited, phase]
  unfold partEndTurn
  split
  · refine ⟨fun w rest => ?_, .inr open_nil⟩
    rw [awaits]
    exact .inr (parts_next rest)
  · refine ⟨fun w rest => ?_, .inr (open_one (by simp [IsLast]))⟩
    rw [awaits]
    exact .inl (one_then _ rest)
  · exact conforms_wait r bytes
  · exact conforms_fail r _

theorem drain_conforms (opened : Bool) (whole : Bytes) (phase : r.phase = .epilogue opened) :
    (drain r whole bytes).Conforms r := by
  have awaits : r.awaited = epilogueWord := by simp only [awaited, phase]
  unfold drain
  split
  · refine ⟨fun w rest => ?_, open_data _ _⟩
    rw [awaits]
    exact ofData_star _ _ rest
  · refine ⟨fun w rest => ?_, .inl rfl⟩
    cases rest
    rw [awaits, List.append_nil]
    exact ofData_star _ _ (star_none (one_last _))

theorem epilogueTurn_conforms (opened : Bool) (phase : r.phase = .epilogue opened) :
    (epilogueTurn r opened bytes).Conforms r := by
  unfold epilogueTurn
  split
  · exact drain_conforms r bytes opened _ phase
  · split
    · exact drain_conforms r _ opened _ phase
    · split
      · exact conforms_wait r bytes
      · exact drain_conforms r bytes opened _ phase
    · exact drain_conforms r bytes opened _ phase

-- What is awaited does not depend on the count of body bytes, so the turns within a body are as
-- good as their inner ones.
theorem inBody_conforms (f : Reader → Bytes → Turn) (inner : ∀ own, (f r own).Conforms r) :
    (inBody r f bytes).Conforms r := by
  have within := inner (within r.remaining bytes)
  rw [inBody_eq]
  cases ran : f r (HttpWire.within r.remaining bytes) with
  | onward told next rest =>
    rw [ran] at within
    exact within
  | fault told e =>
    rw [ran] at within
    exact within
  | pause told next rest =>
    rw [ran] at within
    unfold Turn.enclose
    dsimp only
    split
    · obtain ⟨w, later⟩ := awaited_nonempty next
      exact ⟨⟨w, within.1 w later⟩, within.2⟩
    · exact within

theorem turn_conforms : (turn r bytes).Conforms r := by
  cases phase : r.phase with
  | start => simpa only [turn, phase] using startTurn_conforms r bytes phase
  | startLine => simpa only [turn, phase] using startLineTurn_conforms r bytes phase
  | header size => simpa only [turn, phase] using headerTurn_conforms r bytes size phase
  | body => simpa only [turn, phase] using bodyTurn_conforms r bytes phase
  | chunkLine => simpa only [turn, phase] using chunkLineTurn_conforms r bytes phase
  | chunkData missing => simpa only [turn, phase] using chunkDataTurn_conforms r bytes missing phase
  | trailer size => simpa only [turn, phase] using trailerTurn_conforms r bytes size phase
  | preamble =>
    simpa only [turn, phase] using inBody_conforms r bytes _ fun own =>
      preambleTurn_conforms r own phase
  | partHeader size =>
    simpa only [turn, phase] using inBody_conforms r bytes _ fun own =>
      partHeaderTurn_conforms r own size phase
  | partData =>
    simpa only [turn, phase] using inBody_conforms r bytes _ fun own =>
      partDataTurn_conforms r own phase
  | partEnd =>
    simpa only [turn, phase] using inBody_conforms r bytes _ fun own =>
      partEndTurn_conforms r own phase
  | epilogue opened =>
    simpa only [turn, phase] using inBody_conforms r bytes _ fun own =>
      epilogueTurn_conforms r own opened phase
  | done => simpa only [turn, phase] using conforms_wait r bytes

end Turns

section Calls

variable {r next : Reader} {told later : List Event} {result : Except Error Reader}

-- A reader that is done stays as it is, so nothing can follow one of the last events.
theorem Conforms.append (first : Conforms r told (.ok next)) (second : Conforms next later result)
    (stays : next.phase = .done → result = .ok next ∧ later = []) :
    Conforms r (told ++ later) result := by
  obtain ⟨leads, ended | early⟩ := first
  · obtain ⟨rfl, rfl⟩ := stays ended
    rw [List.append_nil]
    exact ⟨leads, .inl ended⟩
  · cases result with
    | ok last =>
      refine ⟨fun w rest => ?_, second.2.imp id early.append⟩
      rw [List.append_assoc]
      exact leads _ (second.1 w rest)
    | error e =>
      obtain ⟨⟨w, rest⟩, open_later⟩ := second
      refine ⟨⟨w, ?_⟩, early.append open_later⟩
      rw [List.append_assoc]
      exact leads _ rest

theorem scan_conforms (r : Reader) (bytes : Bytes) :
    Conforms r (scan r bytes).events ((scan r bytes).result.map (·.reader)) := by
  fun_induction scan r bytes with
  | case1 r bytes told next rest went more ih =>
    have first := turn_conforms r bytes
    rw [went] at first
    refine Conforms.append first ih fun ended => ?_
    have silent : more = ⟨[], .ok ⟨next, rest⟩⟩ := scan_done ended rest
    rw [silent]
    exact ⟨rfl, rfl⟩
  | case2 r bytes told next rest went =>
    have last := turn_conforms r bytes
    rw [went] at last
    exact ⟨last.1, .inr last.2⟩
  | case3 r bytes told e went =>
    have last := turn_conforms r bytes
    rw [went] at last
    exact last

theorem ending_conforms (r : Reader) (events : List Event) (ends : r.ending? = some events) :
    Conforms r events (.ok { r with phase := .done }) := by
  refine ⟨fun w rest => ?_, .inl rfl⟩
  cases rest
  unfold ending? at ends
  rw [List.append_nil]
  split at ends
  · rename_i phase
    cases ends
    simp only [awaited, phase]
    rfl
  · rename_i phase
    split at ends
    · cases ends
      simp only [awaited, phase]
      exact star_none (one_last _)
    · cases ends
  · rename_i phase
    split at ends
    · cases ends
      simp only [awaited, phase]
      exact epilogueWord_nonempty
    · cases ends
  · cases ends

theorem finish_conforms (r : Reader) (seen : Array Event) :
    ∃ told, (r.finish Handler.record seen).1 = seen ++ told.toArray ∧
      Conforms r told (r.finish Handler.record seen).2 := by
  unfold finish
  cases ends : r.ending? with
  | none => exact ⟨[], by simp, awaited_nonempty r, open_nil⟩
  | some events =>
    simp only [Handler.deliver_record]
    exact ⟨events, rfl, ending_conforms r events ends⟩

variable {σ : Type}

def session (handler : Handler σ) (pieces : List Bytes) (ends : Bool) (s : σ) (x : Reading) :
    σ × Except Error Reading :=
  match feed handler pieces s x with
  | (s, .error e) => (s, .error e)
  | (s, .ok x) =>
    if ends then
      let closed := x.reader.finish handler s
      (closed.1, closed.2.map fun r => { x with reader := r })
    else (s, .ok x)

theorem feed_conforms (pieces : List Bytes) (seen : Array Event) (x : Reading) :
    ∃ told, (feed Handler.record pieces seen x).1 = seen ++ told.toArray ∧
      Conforms x.reader told ((feed Handler.record pieces seen x).2.map (·.reader)) := by
  induction pieces generalizing seen x with
  | nil => exact ⟨[], by simp [feed], fun _ rest => rest, .inr open_nil⟩
  | cons piece pieces ih =>
    have call := scan_conforms x.reader (x.rest ++ piece)
    rw [feed, push_record]
    cases ended : (scan x.reader (x.rest ++ piece)).result with
    | error e =>
      rw [ended] at call
      exact ⟨_, rfl, call⟩
    | ok y =>
      rw [ended] at call
      let z := y.counted (x.rest ++ piece)
      obtain ⟨later, grown, rest⟩ :=
        ih (seen ++ (scan x.reader (x.rest ++ piece)).events.toArray) z
      refine ⟨(scan x.reader (x.rest ++ piece)).events ++ later, ?_, ?_⟩
      · simpa [Except.map] using grown
      · refine Conforms.append (show Conforms x.reader _ (.ok z.reader) from call) rest fun ended => ?_
        have still := feed_done Handler.record pieces
          (seen ++ (scan x.reader (x.rest ++ piece)).events.toArray) z ended
        rw [still] at grown
        have silent : later.toArray = #[] := Array.append_right_eq_self.mp grown.symm
        exact ⟨congrArg (fun run => run.2.map (·.reader)) still, by simpa using silent⟩

-- The readings that no call changes any more, whatever input is offered to them.
def Reading.Idle (x : Reading) : Prop :=
  ∀ {σ : Type} (handler : Handler σ) (s : σ) (more : Bytes),
    x.push handler s more = (s, .ok ⟨x.reader, x.rest ++ more⟩) ∧
      x.reader.finish handler s = (s, .ok x.reader)

theorem session_conforms (pieces : List Bytes) (ends : Bool) (x : Reading) :
    let run := session Handler.record pieces ends #[] x
    Conforms x.reader run.1.toList (run.2.map (·.reader)) := by
  obtain ⟨told, seen, conforms⟩ := feed_conforms pieces #[] x
  unfold session
  cases fed : feed Handler.record pieces #[] x with
  | mk events result =>
    rw [fed] at seen conforms
    simp only [Array.empty_append] at seen
    subst seen
    cases result with
    | error e => exact conforms
    | ok y =>
      cases ends with
      | false => exact conforms
      | true =>
        obtain ⟨last, grown, closing⟩ := finish_conforms y.reader told.toArray
        have whole : Conforms x.reader (told ++ last) (y.reader.finish Handler.record told.toArray).2 := by
          refine Conforms.append conforms closing fun ended => ?_
          have still := done_finish Handler.record told.toArray ended
          rw [still] at grown ⊢
          exact ⟨rfl, by simpa using grown⟩
        simp only [if_true, grown, Array.toList_append]
        cases closed : (y.reader.finish Handler.record told.toArray).2 with
        | error e =>
          rw [closed] at whole
          exact whole
        | ok r =>
          rw [closed] at whole
          exact whole

theorem events_follow_protocol (skip : Bool) (pieces : List Bytes) (ends : Bool) :
    let run := session Handler.record pieces ends #[] { reader := { skipStartLine := skip } }
    (∃ word ∈ messageWord skip 0, run.1.toList <+: word) ∧
      (run.1.toList ∈ messageWord skip 0 ↔ ∃ x, run.2 = .ok x ∧ x.reader.isDone = true) ∧
      ∀ x, run.2 = .ok x → x.reader.isDone = true → x.Idle := by
  intro run
  have conforms : Conforms { skipStartLine := skip } run.1.toList (run.2.map (·.reader)) :=
    session_conforms pieces ends { reader := { skipStartLine := skip } }
  have awaits : awaited { skipStartLine := skip } = messageWord skip 0 := rfl
  -- A complete word holds an event that ends it, so nothing is still open.
  have unfinished : run.1.toList ∈ messageWord skip 0 → ¬ Open run.1.toList := by
    intro complete early
    obtain ⟨e, member, last⟩ := message_ends skip 0 _ complete
    exact early e member last
  refine ⟨?_, ?_, ?_⟩
  · cases ended : run.2 with
    | error e =>
      rw [ended] at conforms
      obtain ⟨⟨w, complete⟩, _⟩ := conforms
      exact ⟨_, complete, List.prefix_append _ w⟩
    | ok x =>
      rw [ended] at conforms
      obtain ⟨w, rest⟩ := awaited_nonempty x.reader
      exact ⟨_, conforms.1 w rest, List.prefix_append _ w⟩
  · constructor
    · intro complete
      cases ended : run.2 with
      | error e =>
        rw [ended] at conforms
        exact absurd conforms.2 (unfinished complete)
      | ok x =>
        rw [ended] at conforms
        rcases conforms.2 with done | early
        · exact ⟨x, rfl, beq_iff_eq.mpr done⟩
        · exact absurd early (unfinished complete)
    · intro holds
      obtain ⟨x, ended, done⟩ := holds
      have phase : x.reader.phase = .done := beq_iff_eq.mp done
      rw [ended] at conforms
      have rest : [] ∈ x.reader.awaited := by
        simp only [awaited, phase]
        rfl
      have complete := conforms.1 [] rest
      rwa [List.append_nil] at complete
  · intro x _ done σ handler s more
    have phase : x.reader.phase = .done := beq_iff_eq.mp done
    exact ⟨done_read handler s phase _, done_finish handler s phase⟩

end Calls

end HttpWire.Reader
