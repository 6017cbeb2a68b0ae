import HttpWire.Proofs.Recasting
import HttpWire.Proofs.Resumption.Turns

-- A reader that is given fragments, each behind what it left of the ones before, ends as if it had
-- been given all of the input in one call.
namespace HttpWire.Reader

theorem turn_append (r : Reader) (bytes more : Bytes) :
    (turn r (bytes ++ more)).joined = ((turn r bytes).resume more).joined := by
  cases phase : r.phase with
  | start => rw [startTurn_append r bytes more phase]
  | startLine => rw [startLineTurn_append r bytes more phase]
  | header size => rw [headerTurn_append r size bytes more phase]
  | body => exact bodyTurn_append r bytes more phase
  | chunkLine => rw [chunkLineTurn_append r bytes more phase]
  | chunkData missing => exact chunkDataTurn_append r missing bytes more phase
  | trailer size => rw [trailerTurn_append r size bytes more phase]
  | preamble => exact preambleTurn_append r bytes more phase
  | partHeader size => exact partHeaderTurn_append r size bytes more phase
  | partData => exact partDataTurn_append r bytes more phase
  | partEnd => exact partEndTurn_append r bytes more phase
  | epilogue opened => exact epilogueTurn_append r opened bytes more phase
  | done => simp only [turn, phase, Turn.resume, Turn.announce_nil]

section Calls

def Turn.run : Turn → Scan
  | .onward told next rest => ⟨told ++ (scan next rest).events, (scan next rest).result⟩
  | .pause told next rest => ⟨told, .ok ⟨next, rest⟩⟩
  | .fault told e => ⟨told, .error e⟩

theorem scan_eq_run (r : Reader) (bytes : Bytes) : scan r bytes = (turn r bytes).run := by
  cases ran : turn r bytes with
  | onward told next rest => exact scan_onward r next bytes rest told ran
  | pause told next rest => exact scan_pause r next bytes rest told ran
  | fault told e => exact scan_fault r bytes told e ran

def Scan.announce (told : List Event) (s : Scan) : Scan := { s with events := told ++ s.events }

def Scan.joined (s : Scan) : Scan := { s with events := Event.joined s.events }

def Scan.resume (more : Bytes) (s : Scan) : Scan :=
  match s.result with
  | .error e => ⟨s.events, .error e⟩
  | .ok x => (scan x.reader (x.rest ++ more)).announce s.events

theorem run_announce (told : List Event) (t : Turn) : (t.announce told).run = t.run.announce told := by
  cases t <;> simp [Turn.announce, Turn.run, Scan.announce]

theorem run_joined (t u : Turn) (same : t.joined = u.joined) : t.run.joined = u.run.joined := by
  cases t <;> cases u <;>
    simp only [Turn.joined, Turn.onward.injEq, Turn.pause.injEq, Turn.fault.injEq,
      reduceCtorEq] at same <;>
    obtain ⟨events, rest⟩ := same
  · obtain ⟨rfl, rfl⟩ := rest
    simp only [Turn.run, Scan.joined, Event.joined_append_congr events rfl]
  · obtain ⟨rfl, rfl⟩ := rest
    simp only [Turn.run, Scan.joined, events]
  · subst rest
    simp only [Turn.run, Scan.joined, events]

theorem Scan.announce_joined (told : List Event) (s t : Scan) (same : s.joined = t.joined) :
    (s.announce told).joined = (t.announce told).joined := by
  simp only [Scan.joined, Scan.mk.injEq] at same
  simp only [Scan.announce, Scan.joined, Event.joined_append_congr rfl same.1, same.2]

theorem Scan.resume_announce (told : List Event) (more : Bytes) (s : Scan) :
    (s.announce told).resume more = (s.resume more).announce told := by
  unfold Scan.resume Scan.announce
  dsimp only
  cases s.result with
  | error e => rfl
  | ok x => simp

theorem scan_append (r : Reader) (bytes more : Bytes) :
    (scan r (bytes ++ more)).joined = ((scan r bytes).resume more).joined := by
  fun_induction scan r bytes with
  | case1 r bytes told next rest went later ih =>
    calc (scan r (bytes ++ more)).joined
        = ((turn r bytes).resume more).run.joined := by
          rw [scan_eq_run]
          exact run_joined _ _ (turn_append r bytes more)
      _ = ((scan next (rest ++ more)).announce told).joined := by
          rw [went]
          rfl
      _ = ((later.resume more).announce told).joined := Scan.announce_joined told _ _ ih
      _ = ((later.announce told).resume more).joined := by rw [Scan.resume_announce]
  | case2 r bytes told next rest went =>
    rw [scan_eq_run, run_joined _ _ (turn_append r bytes more), went]
    simp only [Turn.resume, run_announce, ← scan_eq_run, Scan.resume]
  | case3 r bytes told e went =>
    rw [scan_eq_run, run_joined _ _ (turn_append r bytes more), went]
    rfl

theorem scan_done {r : Reader} (ended : r.phase = .done) (bytes : Bytes) :
    scan r bytes = ⟨[], .ok ⟨r, bytes⟩⟩ := by
  have ran : turn r bytes = .pause [] r bytes := by simp only [turn, ended]
  exact scan_pause _ _ _ _ _ ran

theorem progress_complete (r : Reader) : r.progress = .complete ↔ r.phase = .done := by
  unfold progress isDone
  by_cases done : r.phase = .done
  · simp [done]
  · have other : (r.phase == .done) = false := beq_false_of_ne done
    rw [other]
    simp only [Bool.false_eq_true, if_false, done, iff_false]
    split <;> nofun

end Calls

section Feeding

variable {σ : Type}

theorem read_taken {r : Reader} {handler : Handler σ} {s t : σ} {bytes : Bytes} {x : Reading}
    (ran : r.read handler s bytes = (t, .ok x)) :
    handler.deliver s (scan r bytes).events = (t, none) ∧
      ∃ y, (scan r bytes).result = .ok y ∧ x = y.counted bytes := by
  unfold read at ran
  dsimp only at ran
  cases taken : handler.deliver s (scan r bytes).events with
  | mk u refused =>
    rw [taken] at ran
    cases refused with
    | some e => cases ran
    | none =>
      cases ended : (scan r bytes).result with
      | error e =>
        rw [ended] at ran
        cases ran
      | ok y =>
        rw [ended] at ran
        cases ran
        exact ⟨rfl, y, rfl, rfl⟩

theorem read_consumed {r : Reader} {handler : Handler σ} {s t : σ} {bytes : Bytes} {x : Reading}
    (ran : r.read handler s bytes = (t, .ok x)) :
    x.reader.consumed = r.consumed + x.used bytes := by
  obtain ⟨_, y, scanned, rfl⟩ := read_taken ran
  exact congrArg (· + y.used bytes) (scan_consumed r bytes y scanned)

section Idle

variable {r : Reader} (handler : Handler σ) (s : σ)

theorem done_read (ended : r.phase = .done) (bytes : Bytes) :
    r.read handler s bytes = (s, .ok ⟨r, bytes⟩) := by
  rw [read, scan_done ended]
  simp [Handler.deliver, Except.map, Reading.counted, Reading.used]

theorem done_finish (ended : r.phase = .done) : r.finish handler s = (s, .ok r) := by
  have same : { r with phase := .done } = r := by rw [← ended]
  have none : r.ending? = some [] := by simp only [ending?, ended]
  simp only [finish, none, Handler.deliver, same]

end Idle

def feed (handler : Handler σ) : List Bytes → σ → Reading → σ × Except Error Reading
  | [], s, x => (s, .ok x)
  | piece :: pieces, s, x =>
    match x.push handler s piece with
    | (s, .error e) => (s, .error e)
    | (s, .ok x) => feed handler pieces s x

theorem feed_done (handler : Handler σ) (pieces : List Bytes) (s : σ) (x : Reading)
    (ended : x.reader.phase = .done) :
    feed handler pieces s x = (s, .ok ⟨x.reader, x.rest ++ pieces.flatten⟩) := by
  induction pieces generalizing x with
  | nil => simp [feed]
  | cons piece pieces ih =>
    have call := done_read handler s ended (x.rest ++ piece)
    rw [feed, Reading.push, call, List.flatten_cons, ← List.append_assoc]
    exact ih ⟨x.reader, x.rest ++ piece⟩ ended

theorem push_record (x : Reading) (seen : Array Event) (more : Bytes) :
    x.push Handler.record seen more =
      (seen ++ (scan x.reader (x.rest ++ more)).events.toArray,
        (scan x.reader (x.rest ++ more)).result.map (·.counted (x.rest ++ more))) := by
  simp only [Reading.push, read, Handler.deliver_record]

theorem counted_counted (x z w : Reading) (first more : Bytes)
    (left : z.rest <:+ x.rest ++ first) (left' : w.rest <:+ z.rest ++ more)
    (same : z.reader.consumed = x.reader.consumed) (same' : w.reader.consumed = z.reader.consumed) :
    w.counted (x.rest ++ (first ++ more)) =
      Reading.counted { w with reader := w.reader.counting (z.counted (x.rest ++ first)).reader.consumed }
        (z.rest ++ more) := by
  have short := left.length_le
  have short' := left'.length_le
  have total : w.reader.consumed + w.used (x.rest ++ (first ++ more))
      = z.reader.consumed + z.used (x.rest ++ first) + w.used (z.rest ++ more) := by
    simp only [Reading.used, List.length_append] at short short' ⊢
    omega
  simp only [Reading.counted, Reader.counting]
  rw [total]
  rfl

theorem scan_push (x z : Reading) (first more : Bytes)
    (ran : (scan x.reader (x.rest ++ first)).result = .ok z) :
    let y := z.counted (x.rest ++ first)
    Event.joined (scan x.reader (x.rest ++ (first ++ more))).events
        = Event.joined ((scan x.reader (x.rest ++ first)).events
            ++ (scan y.reader (y.rest ++ more)).events) ∧
      (scan x.reader (x.rest ++ (first ++ more))).result.map (·.counted (x.rest ++ (first ++ more)))
        = (scan y.reader (y.rest ++ more)).result.map (·.counted (y.rest ++ more)) := by
  intro y
  have law := scan_append x.reader (x.rest ++ first) more
  rw [List.append_assoc, Scan.resume, ran] at law
  simp only [Scan.joined, Scan.announce, Scan.mk.injEq] at law
  obtain ⟨events, result⟩ := law
  have later : scan y.reader (y.rest ++ more) = _ :=
    scan_counting z.reader y.reader.consumed (z.rest ++ more)
  rw [later]
  refine ⟨events, ?_⟩
  rw [result]
  cases ended : (scan z.reader (z.rest ++ more)).result with
  | error e => rfl
  | ok w =>
    simp only [Except.map]
    rw [counted_counted x z w first more (scan_leaves _ _ _ ran) (scan_leaves _ _ _ ended)
      (scan_consumed _ _ _ ran) (scan_consumed _ _ _ ended)]
    rfl

theorem scan_push_error (x : Reading) (first more : Bytes) (e : Error)
    (ran : (scan x.reader (x.rest ++ first)).result = .error e) :
    Event.joined (scan x.reader (x.rest ++ (first ++ more))).events
        = Event.joined (scan x.reader (x.rest ++ first)).events ∧
      (scan x.reader (x.rest ++ (first ++ more))).result = .error e := by
  have law := scan_append x.reader (x.rest ++ first) more
  rw [List.append_assoc, Scan.resume, ran] at law
  simp only [Scan.joined, Scan.mk.injEq] at law
  exact law

theorem push_append (x y : Reading) (seen : Array Event) (first more : Bytes)
    (pushed : (x.push Handler.record seen first).2 = .ok y) :
    Event.joined (x.push Handler.record seen (first ++ more)).1.toList
        = Event.joined (y.push Handler.record (x.push Handler.record seen first).1 more).1.toList ∧
      (x.push Handler.record seen (first ++ more)).2
        = (y.push Handler.record (x.push Handler.record seen first).1 more).2 := by
  simp only [push_record] at pushed ⊢
  cases ran : (scan x.reader (x.rest ++ first)).result with
  | error e =>
    rw [ran] at pushed
    cases pushed
  | ok z =>
    rw [ran] at pushed
    cases pushed
    obtain ⟨events, result⟩ := scan_push x z first more ran
    refine ⟨?_, result⟩
    simp only [Array.toList_append, List.append_assoc]
    exact Event.joined_append_congr rfl events

theorem push_error (x : Reading) (seen : Array Event) (first more : Bytes) (e : Error)
    (failed : (x.push Handler.record seen first).2 = .error e) :
    Event.joined (x.push Handler.record seen (first ++ more)).1.toList
        = Event.joined (x.push Handler.record seen first).1.toList ∧
      (x.push Handler.record seen (first ++ more)).2 = .error e := by
  simp only [push_record] at failed ⊢
  cases ran : (scan x.reader (x.rest ++ first)).result with
  | ok z =>
    rw [ran] at failed
    cases failed
  | error e' =>
    rw [ran] at failed
    cases failed
    obtain ⟨events, result⟩ := scan_push_error x first more e ran
    refine ⟨?_, by rw [result]; rfl⟩
    simp only [Array.toList_append]
    exact Event.joined_append_congr rfl events

theorem feed_record (x : Reading) (seen : Array Event) (first : Bytes) (later : List Bytes) :
    Event.joined (feed Handler.record (first :: later) seen x).1.toList
        = Event.joined (x.push Handler.record seen (first ++ later.flatten)).1.toList ∧
      (feed Handler.record (first :: later) seen x).2
        = (x.push Handler.record seen (first ++ later.flatten)).2 := by
  induction later generalizing x seen first with
  | nil =>
    rw [List.flatten_nil, List.append_nil, feed]
    cases pushed : x.push Handler.record seen first with
    | mk told result => cases result <;> exact ⟨rfl, rfl⟩
  | cons second later ih =>
    rw [feed, List.flatten_cons]
    cases pushed : x.push Handler.record seen first with
    | mk told result =>
      cases result with
      | ok y =>
        have law := push_append x y seen first (second ++ later.flatten) (by rw [pushed])
        rw [pushed] at law
        obtain ⟨events, ended⟩ := ih y told second
        exact ⟨events.trans law.1.symm, ended.trans law.2.symm⟩
      | error e =>
        have law := push_error x seen first (second ++ later.flatten) e (by rw [pushed])
        rw [pushed] at law
        exact ⟨law.1.symm, law.2.symm⟩

-- A fresh reader fed in fragments, empty ones included, ends with the same reader and the same bytes
-- left, or with the same error. What was told is the same up to how data was divided.
theorem fragments_read_as_whole (skip : Bool) (first : Bytes) (later : List Bytes) :
    let fresh : Reader := { skipStartLine := skip }
    let whole := fresh.read Handler.record #[] (first :: later).flatten
    let cut := feed Handler.record (first :: later) #[] { reader := fresh }
    Event.joined cut.1.toList = Event.joined whole.1.toList ∧ cut.2 = whole.2 :=
  feed_record { reader := { skipStartLine := skip } } #[] first later

end Feeding

end HttpWire.Reader
