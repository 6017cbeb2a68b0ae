import HttpWire.Proofs.Fragments
import HttpWire.Stream

-- The messages are those that would be read if all of the input had been there.
namespace HttpWire

namespace Reader

variable {a b : Array Event × Except Error Reading}

-- A message that is not complete when there is no more input may be ended.
def conclude (failure : Option Text) :
    Array Event × Except Error Reading → List Event × Except ReceiveError Reading
  | (told, .error e) => (Event.joined told.toList, .error (.http e))
  | (told, .ok x) =>
    if x.progress = .complete then (Event.joined told.toList, .ok x)
    else
      match failure with
      | some text => (Event.joined told.toList, .error (.io text))
      | none =>
        match x.reader.finish Handler.record told with
        | (told, .ok r) => (Event.joined told.toList, .ok { x with reader := r })
        | (told, .error _) => (Event.joined told.toList, .error .ended)

def messages (failure : Option Text) :
    List Bool → Bytes → List (List Event × Except ReceiveError Reading)
  | [], _ => []
  | skip :: later, input =>
    let fresh : Reader := { skipStartLine := skip }
    let last := conclude failure (fresh.read Handler.record #[] input)
    last :: match last.2 with
      | .ok x => messages failure later x.rest
      | .error _ => []

theorem finish_record (r : Reader) (told : Array Event) :
    r.finish Handler.record told = match r.ending? with
      | none => (told, .error .moreData)
      | some events => (told ++ events.toArray, .ok { r with phase := .done }) := by
  unfold finish
  cases r.ending? with
  | none => rfl
  | some events => simp only [Handler.deliver_record]

theorem conclude_congr (failure : Option Text)
    (events : Event.joined a.1.toList = Event.joined b.1.toList) (same : a.2 = b.2) :
    conclude failure a = conclude failure b := by
  obtain ⟨told, result⟩ := a
  obtain ⟨told', result'⟩ := b
  dsimp only at events same
  subst same
  cases result with
  | error e => simp only [conclude, events]
  | ok x =>
    simp only [conclude, events, finish_record]
    cases x.reader.ending? with
    | none => simp only [events]
    | some last =>
      have behind : Event.joined (told ++ last.toArray).toList
          = Event.joined (told' ++ last.toArray).toList := by
        simp only [Array.toList_append]
        exact Event.joined_append_congr events rfl
      simp only [behind]

theorem conclude_left (skip : Bool) (failure : Option Text) (input : Bytes) (x : Reading)
    (ended : (conclude failure (Reader.read { skipStartLine := skip } Handler.record #[] input)).2
      = .ok x) : x.rest = input.drop x.reader.consumed := by
  cases ran : Reader.read { skipStartLine := skip } Handler.record #[] input with
  | mk told result =>
    rw [ran] at ended
    cases result with
    | error e => cases ended
    | ok y =>
      have left : y.rest = input.drop y.reader.consumed := by
        have count := read_consumed ran
        obtain ⟨_, z, scanned, rfl⟩ := read_taken ran
        obtain ⟨front, whole⟩ := scan_leaves _ _ _ scanned
        rw [count]
        simp only [Reading.counted, Reading.used, ← whole, List.length_append,
          Nat.add_sub_cancel, Nat.zero_add, List.drop_left]
      unfold conclude at ended
      dsimp only at ended
      split at ended
      · cases ended
        exact left
      · rw [finish_record] at ended
        split at ended
        · cases ended
        · split at ended
          · rename_i closed
            split at closed <;> cases closed
            cases ended
            exact left
          · cases ended

end Reader

namespace Source

open Reader (Reading conclude)

-- What is left to be read counts the same in the buffer and in the source.
def outcome (call : Array Event × Except ReceiveError Received) :
    List Event × Except ReceiveError Reading :=
  (Event.joined call.1.toList,
    call.2.map fun x => ⟨x.reading.reader, x.reading.rest ++ x.source.pieces.flatten⟩)

def calls : List Bool → Source → Bytes → List (Array Event × Except ReceiveError Received)
  | [], _, _ => []
  | skip :: later, source, buffer =>
    let call := source.readMessage Handler.record #[] buffer { skipStartLine := skip }
    call :: match call.2 with
      | .ok x => calls later x.source x.reading.rest
      | .error _ => []

def consumedBy : List (Array Event × Except ReceiveError Received) → Nat
  | [] => 0
  | (_, .ok x) :: later => x.reading.reader.consumed + consumedBy later
  | (_, .error _) :: later => consumedBy later

variable (failure : Option Text)

theorem receive_last (seen : Array Event) (x : Reading) (more : Bytes) :
    outcome (receive Handler.record failure [] seen x more)
      = conclude failure (x.push Handler.record seen more) := by
  rw [receive]
  cases pushed : x.push Handler.record seen more with
  | mk told result =>
    cases result with
    | error e => rfl
    | ok y =>
      unfold conclude
      dsimp only
      split
      · simp [outcome, Except.map]
      · cases failure with
        | some text => rfl
        | none =>
          simp only [close, Reader.finish_record]
          cases y.reader.ending? with
          | none => rfl
          | some last => simp [outcome, Except.map]

theorem receive_outcome (pieces : List Bytes) (seen : Array Event) (x : Reading) (more : Bytes) :
    outcome (receive Handler.record failure pieces seen x more)
      = conclude failure (x.push Handler.record seen (more ++ pieces.flatten)) := by
  induction pieces generalizing seen x more with
  | nil => rw [receive_last, List.flatten_nil, List.append_nil]
  | cons piece later ih =>
    rw [receive]
    cases pushed : x.push Handler.record seen more with
    | mk told result =>
      cases result with
      | error e =>
        obtain ⟨events, failed⟩ :=
          Reader.push_error x seen more (piece :: later).flatten e (by rw [pushed])
        rw [pushed] at events
        exact (Reader.conclude_congr failure events failed).symm
      | ok y =>
        obtain ⟨events, same⟩ :=
          Reader.push_append x y seen more (piece :: later).flatten (by rw [pushed])
        rw [pushed] at events same
        rw [Reader.conclude_congr failure events same]
        dsimp only
        split
        · rename_i complete
          have ended := (Reader.progress_complete y.reader).mp complete
          have still : y.push Handler.record told (piece :: later).flatten
              = (told, .ok ⟨y.reader, y.rest ++ (piece :: later).flatten⟩) :=
            Reader.done_read Handler.record told ended _
          rw [still]
          exact (if_pos complete).symm
        · rw [ih, List.flatten_cons]

theorem receive_failure (pieces : List Bytes) (seen told : Array Event) (x : Reading) (more : Bytes)
    (y : Received) (ran : receive Handler.record failure pieces seen x more = (told, .ok y)) :
    y.source.failure = failure := by
  induction pieces generalizing seen x more with
  | nil =>
    rw [receive] at ran
    split at ran
    · cases ran
    · split at ran
      · cases ran
        rfl
      · cases failure with
        | some text => cases ran
        | none =>
          simp only [close, Reader.finish_record] at ran
          split at ran <;> cases ran
          rfl
  | cons piece later ih =>
    rw [receive] at ran
    split at ran
    · cases ran
    · split at ran
      · cases ran
        rfl
      · exact ih _ _ _ ran

theorem readMessage_outcome (source : Source) (skip : Bool) (buffer : Bytes) :
    outcome (source.readMessage Handler.record #[] buffer { skipStartLine := skip })
      = conclude source.failure (Reader.read { skipStartLine := skip } Handler.record #[]
          (buffer ++ source.pieces.flatten)) :=
  receive_outcome source.failure source.pieces #[] { reader := { skipStartLine := skip } } buffer

theorem readMessage_leaves {source : Source} {skip : Bool} {buffer : Bytes} {told : Array Event}
    {y : Received}
    (ran : source.readMessage Handler.record #[] buffer { skipStartLine := skip } = (told, .ok y)) :
    y.reading.rest ++ y.source.pieces.flatten
        = (buffer ++ source.pieces.flatten).drop y.reading.reader.consumed ∧
      y.source.failure = source.failure := by
  refine ⟨?_, receive_failure _ _ _ _ _ _ _ ran⟩
  have call := readMessage_outcome source skip buffer
  rw [ran] at call
  exact Reader.conclude_left skip source.failure (buffer ++ source.pieces.flatten)
    ⟨y.reading.reader, y.reading.rest ++ y.source.pieces.flatten⟩ (by rw [← call]; rfl)

-- A message that the input does not complete fails as the source did, or is ended with the input.
-- What a call leaves in the buffer and in the source is the input without the bytes used so far.
theorem messages_read_as_whole (skips : List Bool) (source : Source) (buffer : Bytes) :
    let whole := buffer ++ source.pieces.flatten
    let made := calls skips source buffer
    made.map outcome = Reader.messages source.failure skips whole ∧
      ∀ k told x, made[k]? = some (told, .ok x) →
        x.reading.rest ++ x.source.pieces.flatten
          = whole.drop (consumedBy (made.take (k + 1))) := by
  -- Call by call: each begins with what the one before has left.
  induction skips generalizing source buffer with
  | nil =>
    refine ⟨rfl, ?_⟩
    intro k told x call
    rw [calls, List.getElem?_nil] at call
    cases call
  | cons skip skips ih =>
    intro whole made
    have first := readMessage_outcome source skip buffer
    cases ran : source.readMessage Handler.record #[] buffer { skipStartLine := skip } with
    | mk told result =>
      rw [ran] at first
      cases result with
      | error e =>
        have alone : made = [(told, .error e)] := by simp only [made, calls, ran]
        refine ⟨?_, ?_⟩
        · rw [alone, Reader.messages, ← first]
          rfl
        · intro k told' x call
          rw [alone, List.getElem?_singleton] at call
          split at call <;> cases call
      | ok y =>
        have more : made = (told, .ok y) :: calls skips y.source y.reading.rest := by
          simp only [made, calls, ran]
        obtain ⟨left, kept⟩ := readMessage_leaves ran
        obtain ⟨same, drops⟩ := ih y.source y.reading.rest
        refine ⟨?_, ?_⟩
        · rw [more, List.map_cons, Reader.messages, ← first, same, kept]
          rfl
        · intro k told' x call
          rw [more] at call ⊢
          rw [List.take_succ_cons, consumedBy]
          cases k with
          | zero =>
            cases call
            exact left
          | succ k => rw [drops k told' x call, left, List.drop_drop]

end Source
end HttpWire
