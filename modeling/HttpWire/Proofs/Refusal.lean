import HttpWire.Proofs.Registers.Soundness

-- A reader hands over the events of a call in a row; the machine of registers hands over each where
-- it arises, and comes to the same.
namespace HttpWire

namespace Handler

def admitted (n : Nat) (seen : Array Event) : Nat × Array Event :=
  if seen.size ≤ n then (seen.size, seen) else (n + 1, seen.take n)

theorem admitted_all {n : Nat} {seen : Array Event} (few : seen.size ≤ n) :
    admitted n seen = (seen.size, seen) := if_pos few

theorem admitted_some {n : Nat} {seen : Array Event} (many : n < seen.size) :
    admitted n seen = (n + 1, seen.take n) := if_neg (Nat.not_le_of_lt many)

theorem take_behind {n : Nat} (seen more : Array Event) (within : n ≤ seen.size) :
    (seen ++ more).take n = seen.take n := by
  apply Array.toList_inj.mp
  simp only [Array.take_eq_extract, Array.toList_extract, Array.toList_append, List.extract_eq_take_drop,
    List.drop_zero, Nat.sub_zero]
  exact List.take_append_of_le_length within

theorem deliver_refuseAt {n : Nat} (e : Error) {seen : Array Event} (events : List Event)
    (few : seen.size ≤ n) :
    deliver (record.refuseAt n e) (seen.size, seen) events =
      (admitted n (seen ++ events.toArray), if (seen ++ events.toArray).size ≤ n then none else some e) := by
  induction events generalizing seen with
  | nil => simp [deliver, admitted, few]
  | cons event events ih =>
    rw [deliver]
    by_cases last : seen.size = n
    · have refused : record.refuseAt n e (seen.size, seen) event = ((seen.size + 1, seen), some e) :=
        if_pos last
      have many : n < (seen ++ (event :: events).toArray).size := by
        rw [Array.size_append, ← last]
        simp
      rw [refused, admitted_some many, take_behind _ _ last.ge, if_neg (Nat.not_le_of_lt many), ← last]
      simp
    · have taken : record.refuseAt n e (seen.size, seen) event
          = (((seen.push event).size, seen.push event), none) := by
        simp [refuseAt, last, record]
      have grown : seen.push event ++ events.toArray = seen ++ (event :: events).toArray :=
        Array.toList_inj.mp (by simp)
      rw [taken, ← grown]
      refine ih ?_
      rw [Array.size_push]
      omega

end Handler

namespace Reader

variable {σ : Type}

def Call.make (handler : Handler σ) (s : σ) (x : Reading) : Call → σ × Except Error Reading
  | .input piece => x.push handler s piece
  | .ended =>
    match x.reader.finish handler s with
    | (t, .error e) => (t, .error e)
    | (t, .ok next) => (t, .ok { x with reader := next })

def outcomes (handler : Handler σ) : List Call → σ → Reading → List (σ × Except Error Reading)
  | [], _, _ => []
  | call :: calls, s, x =>
    let made := call.make handler s x
    made :: match made.2 with
      | .error _ => []
      | .ok y => outcomes handler calls made.1 y

def handOver (handler : Handler σ) (s : σ) (events : List Event) (result : Except Error Reading) :
    σ × Except Error Reading :=
  match handler.deliver s events with
  | (t, some e) => (t, .error e)
  | (t, none) => (t, result)

theorem Call.make_handOver (call : Call) (x : Reading) :
    ∃ events result, ∀ {σ : Type} (handler : Handler σ) (s : σ),
      call.make handler s x = handOver handler s events result := by
  cases call with
  | input piece => exact ⟨_, _, fun handler s => rfl⟩
  | ended =>
    cases ending : x.reader.ending? with
    | none =>
      refine ⟨[], .error .moreData, fun handler s => ?_⟩
      simp only [make, finish, ending, handOver, Handler.deliver]
    | some events =>
      refine ⟨events, .ok { x with reader := { x.reader with phase := .done } }, fun handler s => ?_⟩
      simp only [make, finish, ending, handOver]
      cases handler.deliver s events with
      | mk t refused => cases refused <;> rfl

def refused (n : Nat) (e : Error) (made : Array Event × Except Error Reading) :
    (Nat × Array Event) × Except Error Reading :=
  (Handler.admitted n made.1, if made.1.size ≤ n then made.2 else .error e)

section Calls

variable {n : Nat} {seen : Array Event}

theorem handOver_record (events : List Event) (result : Except Error Reading) :
    handOver Handler.record seen events result = (seen ++ events.toArray, result) := by
  rw [handOver, Handler.deliver_record]

theorem Call.make_refused (e : Error) (call : Call) (x : Reading) (few : seen.size ≤ n) :
    call.make (Handler.record.refuseAt n e) (seen.size, seen) x
      = refused n e (call.make Handler.record seen x) := by
  obtain ⟨events, result, same⟩ := call.make_handOver x
  rw [same, same, handOver_record, handOver, Handler.deliver_refuseAt e events few, refused]
  by_cases within : (seen ++ events.toArray).size ≤ n
  · rw [if_pos within, if_pos within]
  · rw [if_neg within, if_neg within]

end Calls

def recorded (seen : Array Event) : List (Array Event × Except Error Reading) → Array Event
  | [] => seen
  | made :: later => recorded made.1 later

def numbered (made : Array Event × Except Error Reading) : (Nat × Array Event) × Except Error Reading :=
  ((made.1.size, made.1), made.2)

-- The calls before the one in which the event occurs come to what they came to, and this one fails
-- after the first `n` events and the refused one.
structure Stopped (n : Nat) (e : Error) (all : Array Event)
    (recording : List (Array Event × Except Error Reading))
    (refusing : List ((Nat × Array Event) × Except Error Reading)) : Prop where
  never : all.size ≤ n → refusing = recording.map numbered
  there : n < all.size → ∃ before made after, recording = before ++ made :: after ∧
    (∀ earlier ∈ before, earlier.1.size ≤ n) ∧ n < made.1.size ∧
    refusing = before.map numbered ++ [((n + 1, all.take n), .error e)]

section Runs

variable {n : Nat} {e : Error} {seen : Array Event}

theorem recorded_grows (calls : List Call) (x : Reading) :
    ∃ more, recorded seen (outcomes Handler.record calls seen x) = seen ++ more := by
  induction calls generalizing seen x with
  | nil => exact ⟨#[], by simp [outcomes, recorded]⟩
  | cons call calls ih =>
    obtain ⟨events, result, same⟩ := call.make_handOver x
    rw [outcomes, recorded, same, handOver_record]
    cases result with
    | error e => exact ⟨_, rfl⟩
    | ok y =>
      obtain ⟨more, grown⟩ := @ih (seen ++ events.toArray) y
      exact ⟨events.toArray ++ more, by rw [← Array.append_assoc]; exact grown⟩

theorem Stopped.after {all : Array Event} {made : Array Event × Except Error Reading}
    {recording : List (Array Event × Except Error Reading)}
    {refusing : List ((Nat × Array Event) × Except Error Reading)}
    (few : made.1.size ≤ n) (later : Stopped n e all recording refusing) :
    Stopped n e all (made :: recording) (numbered made :: refusing) := by
  refine ⟨fun all_few => by rw [later.never all_few, List.map_cons], fun many => ?_⟩
  obtain ⟨before, last, after, rfl, earlier, here, rfl⟩ := later.there many
  refine ⟨made :: before, last, after, rfl, fun other member => ?_, here, rfl⟩
  rcases List.mem_cons.mp member with rfl | among
  · exact few
  · exact earlier other among

theorem Stopped.here {made : Array Event × Except Error Reading} (more : Array Event)
    (later : List (Array Event × Except Error Reading)) (many : n < made.1.size) :
    Stopped n e (made.1 ++ more) (made :: later) [((n + 1, made.1.take n), .error e)] := by
  refine ⟨fun few => ?_, fun _ => ⟨[], made, later, rfl,
    fun _ none => absurd none List.not_mem_nil, many, ?_⟩⟩
  · rw [Array.size_append] at few
    omega
  · rw [Handler.take_behind _ _ many.le]
    rfl

theorem outcomes_stopped (n : Nat) (e : Error) (calls : List Call) (x : Reading) (few : seen.size ≤ n) :
    let recording := outcomes Handler.record calls seen x
    Stopped n e (recorded seen recording) recording
      (outcomes (Handler.record.refuseAt n e) calls (seen.size, seen) x) := by
  induction calls generalizing seen x with
  | nil => exact ⟨fun _ => rfl, fun many => absurd few (Nat.not_le_of_lt many)⟩
  | cons call calls ih =>
    dsimp only
    rw [outcomes, outcomes, Call.make_refused e call x few, recorded]
    cases call.make Handler.record seen x with
    | mk told result =>
      unfold refused
      dsimp only
      by_cases within : told.size ≤ n
      · rw [if_pos within, Handler.admitted_all within]
        refine Stopped.after within ?_
        cases result with
        | error e' => exact ⟨fun _ => rfl, fun many => absurd within (Nat.not_le_of_lt many)⟩
        | ok y => exact ih y within
      · have many := Nat.lt_of_not_le within
        rw [if_neg within, Handler.admitted_some many]
        cases result with
        | error e' =>
          have stopped := @Stopped.here n e (told, .error e') #[] [] many
          rwa [Array.append_empty] at stopped
        | ok y =>
          obtain ⟨more, grown⟩ := @recorded_grows told calls y
          dsimp only
          rw [grown]
          exact @Stopped.here n e (told, .ok y) more _ many

end Runs

end Reader

namespace Registers

variable {σ : Type}

def make (handler : Handler σ) (s : σ) (x : Registers × Bytes) :
    Reader.Call → σ × Except Halt (Registers × Bytes)
  | .input piece => x.1.read handler s (x.2 ++ piece)
  | .ended =>
    match x.1.finish handler s with
    | (t, .error e) => (t, .error (.failed e))
    | (t, .ok next) => (t, .ok (next, x.2))

def outcomes (handler : Handler σ) :
    List Reader.Call → σ → Registers × Bytes → List (σ × Except Halt (Registers × Bytes))
  | [], _, _ => []
  | call :: calls, s, x =>
    let made := make handler s x call
    made :: match made.2 with
      | .error _ => []
      | .ok y => outcomes handler calls made.1 y

theorem make_same {x : Registers × Bytes} (sound : x.1.Sound) (handler : Handler σ) (s : σ)
    (call : Reader.Call) :
    Same (make handler s x call) (call.make handler s (shown x)) ∧
    ∀ y, (make handler s x call).2 = .ok y → y.1.Sound := by
  cases call with
  | input piece => exact read_agrees sound handler s (x.2 ++ piece)
  | ended =>
    have same := finish_agrees x.1 handler s
    have kept := fun next => @finish_sound _ handler s x.1 next sound
    rw [make, Reader.Call.make, show (shown x).reader = x.1.reader from rfl, ← same]
    generalize x.1.finish handler s = finished at kept
    obtain ⟨t, result⟩ := finished
    cases result with
    | error e =>
      refine ⟨.failed t e, fun y given => ?_⟩
      cases given
    | ok next =>
      refine ⟨.ended t (next, x.2), fun y given => ?_⟩
      cases given
      exact kept next rfl

theorem outcomes_same (handler : Handler σ) (calls : List Reader.Call) (s : σ) {x : Registers × Bytes}
    (sound : x.1.Sound) :
    List.Forall₂ Same (outcomes handler calls s x) (Reader.outcomes handler calls s (shown x)) := by
  induction calls generalizing s x with
  | nil => exact .nil
  | cons call calls ih =>
    obtain ⟨same, kept⟩ := make_same sound handler s call
    rw [outcomes, Reader.outcomes]
    generalize make handler s x call = made at same kept
    generalize call.make handler s (shown x) = read at same
    refine .cons same ?_
    cases same with
    | failed t e => exact .nil
    | ended t left => exact ih t (kept left rfl)

end Registers

namespace Reader

-- A refused event stops its call at once; an event that does not occur stops none.
theorem refusal_stops_call (skip : Bool) (calls : List Call) (n : Nat) (e : Error) :
    let fresh : Reading := { reader := { skipStartLine := skip } }
    let recording := outcomes Handler.record calls #[] fresh
    Stopped n e (recorded #[] recording) recording
      (outcomes (Handler.record.refuseAt n e) calls (0, #[]) fresh) ∧
    ∀ {σ : Type} (handler : Handler σ) (s : σ), List.Forall₂ Registers.Same
      (Registers.outcomes handler calls s ({ skipStartLine := skip }, []))
      (outcomes handler calls s fresh) :=
  ⟨@outcomes_stopped #[] n e calls _ (Nat.zero_le n),
    fun handler s => Registers.outcomes_same handler calls s (Registers.fresh_sound skip)⟩

end Reader
end HttpWire
