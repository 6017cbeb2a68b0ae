import HttpWire.Proofs.Fragments

-- Handlers that do not mind how data was divided.
namespace HttpWire

namespace Handler

variable {σ : Type} (handler : Handler σ)

def Blends : Prop :=
  ∀ s place a b, handler.deliver s [.data place a, .data place b]
    = handler.deliver s [.data place (a ++ b)]

theorem deliver_append (s : σ) (first later : List Event) :
    handler.deliver s (first ++ later) = match handler.deliver s first with
      | (t, none) => handler.deliver t later
      | (t, some e) => (t, some e) := by
  induction first generalizing s with
  | nil => rfl
  | cons event first ih =>
    rw [List.cons_append, deliver, deliver]
    cases handler s event with
    | mk t refused =>
      cases refused with
      | none => exact ih t
      | some e => rfl

variable {handler} (blends : handler.Blends)
include blends

theorem deliver_joinOnto (s : σ) (event : Event) (later : List Event) :
    handler.deliver s (Event.joinOnto event later) = handler.deliver s (event :: later) := by
  unfold Event.joinOnto
  split
  · rename_i place a other b later
    split
    · rename_i same
      subst same
      have both := blends s place a b
      have one := handler.deliver_append s [.data place (a ++ b)] later
      have two := handler.deliver_append s [.data place a, .data place b] later
      rw [both] at two
      exact one.trans two.symm
    · rfl
  · rfl

theorem deliver_joined (s : σ) (events : List Event) :
    handler.deliver s (Event.joined events) = handler.deliver s events := by
  induction events generalizing s with
  | nil => rfl
  | cons event events ih =>
    rw [Event.joined_cons, deliver_joinOnto blends, deliver, deliver]
    cases handler s event with
    | mk t refused =>
      cases refused with
      | none => exact ih t
      | some e => rfl

theorem deliver_congr {events events' : List Event} (s : σ)
    (same : Event.joined events = Event.joined events') :
    handler.deliver s events = handler.deliver s events' := by
  rw [← deliver_joined blends, same, deliver_joined blends]

end Handler

namespace Reader

variable {σ : Type} {handler : Handler σ}

def pour (handler : Handler σ) : List Bytes → σ → Reading → σ × Except Error Reading
  | [], s, x => (s, .ok x)
  | piece :: pieces, s, x =>
    match x.push handler s piece with
    | (s, .error e) => (s, .error e)
    | (s, .ok x) => if x.progress = .complete then (s, .ok x) else pour handler pieces s x

section Pushes

variable (blends : handler.Blends)
include blends

theorem push_through {s t : σ} {x y : Reading} {first : Bytes} (more : Bytes)
    (pushed : x.push handler s first = (t, .ok y)) :
    x.push handler s (first ++ more) = y.push handler t more := by
  obtain ⟨taken, z, ran, rfl⟩ := read_taken pushed
  obtain ⟨events, result⟩ := scan_push x z first more ran
  have told := Handler.deliver_congr blends s events
  rw [Handler.deliver_append, taken] at told
  unfold Reading.push read
  dsimp only at told result ⊢
  rw [told, result]

theorem push_stopped {s t : σ} {x : Reading} {first : Bytes} {e : Error} (more : Bytes)
    (pushed : x.push handler s first = (t, .error e)) :
    x.push handler s (first ++ more) = (t, .error e) := by
  unfold Reading.push read at pushed ⊢
  dsimp only at pushed ⊢
  cases ran : (scan x.reader (x.rest ++ first)).result with
  | error e' =>
    obtain ⟨events, result⟩ := scan_push_error x first more e' ran
    rw [ran] at pushed
    rw [Handler.deliver_congr blends s events, result]
    exact pushed
  | ok z =>
    obtain ⟨events, _⟩ := scan_push x z first more ran
    have told := Handler.deliver_congr blends s events
    rw [Handler.deliver_append] at told
    rw [told]
    cases taken : handler.deliver s (scan x.reader (x.rest ++ first)).events with
    | mk u refused =>
      rw [taken] at pushed
      cases refused with
      | some e' => exact pushed
      | none =>
        rw [ran] at pushed
        cases pushed

-- What lies behind the message may have been left in later fragments.
theorem pour_pushed (first : Bytes) (later : List Bytes) (s : σ) (x : Reading) :
    let cut := pour handler (first :: later) s x
    let whole := x.push handler s (first ++ later.flatten)
    cut.1 = whole.1 ∧ cut.2.map (·.reader) = whole.2.map (·.reader) := by
  induction later generalizing first s x with
  | nil =>
    dsimp only
    rw [List.flatten_nil, List.append_nil, pour]
    cases x.push handler s first with
    | mk t result =>
      cases result with
      | error e => exact ⟨rfl, rfl⟩
      | ok y =>
        dsimp only
        split <;> exact ⟨rfl, rfl⟩
  | cons second later ih =>
    dsimp only
    rw [pour, List.flatten_cons]
    cases pushed : x.push handler s first with
    | mk t result =>
      cases result with
      | error e =>
        rw [push_stopped blends _ pushed]
        exact ⟨rfl, rfl⟩
      | ok y =>
        rw [push_through blends _ pushed]
        dsimp only
        split
        · -- The message is complete, and what comes behind it is left alone.
          rename_i complete
          have ended := (progress_complete y.reader).mp complete
          have still := done_read handler t ended (y.rest ++ (second ++ later.flatten))
          rw [Reading.push, still]
          exact ⟨rfl, rfl⟩
        · exact ih second t y

theorem pour_whole {s : σ} {x : Reading} (idle : x.push handler s [] = (s, .ok x))
    (pieces : List Bytes) :
    let cut := pour handler pieces s x
    let whole := x.push handler s pieces.flatten
    cut.1 = whole.1 ∧ cut.2.map (·.reader) = whole.2.map (·.reader) := by
  cases pieces with
  | nil =>
    rw [List.flatten_nil, idle]
    exact ⟨rfl, rfl⟩
  | cons first later => exact pour_pushed blends first later s x

end Pushes

theorem fresh_idle (handler : Handler σ) (s : σ) :
    Reading.push {} handler s [] = (s, .ok {}) := by
  have waits : scan {} [] = ⟨[], .ok {}⟩ := scan_pause _ _ _ _ _ rfl
  rw [Reading.push, List.append_nil, read, waits]
  rfl

end Reader
end HttpWire
