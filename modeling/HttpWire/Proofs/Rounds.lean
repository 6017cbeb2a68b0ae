import HttpWire.Proofs.Blending
import HttpWire.Proofs.Passages

-- Each turn that goes on is a lap and uses bytes, so a call comes to an end whatever it is given.
namespace HttpWire.Reader

structure Lap where
  before : Phase
  after : Phase
  used : Bytes

namespace Lap

def begins (lap : Lap) : Bool := lap.before == .start

def closes (lap : Lap) : Bool :=
  match lap.before, lap.after with
  | .epilogue _, .done => true
  | _, _ => false

end Lap

def spent (laps : List Lap) : Bytes := laps.flatMap (·.used)

variable {σ : Type}

structure Run (σ : Type) where
  laps : List Lap
  state : σ
  result : Except Error Reading

def Run.behind (laps : List Lap) (run : Run σ) : Run σ := { run with laps := laps ++ run.laps }

def Turn.told : Turn → List Event
  | .onward told _ _ => told
  | .pause told _ _ => told
  | .fault told _ => told

-- The events of a turn are handed over before the next turn is taken. There is no outcome if the loop
-- has not come to an end after so many rounds.
def loop (handler : Handler σ) : Nat → σ → Reading → Option (Run σ)
  | 0, _, _ => none
  | rounds + 1, s, x =>
    match handler.deliver s (turn x.reader x.rest).told, turn x.reader x.rest with
    | (t, some e), _ => some ⟨[], t, .error e⟩
    | (t, none), .fault _ e => some ⟨[], t, .error e⟩
    | (t, none), .pause _ next rest => some ⟨[], t, .ok ⟨next, rest⟩⟩
    | (t, none), .onward _ next rest =>
      (loop handler rounds t ⟨next, rest⟩).map
        (Run.behind [⟨x.reader.phase, next.phase, x.rest.take (x.rest.length - rest.length)⟩])

inductive Call where
  | input (piece : Bytes)
  | ended

-- `present` is the buffer of a call: the new input alone, or behind what was left, or anything else.
-- A failed attempt to finish changes nothing.
def serve (handler : Handler σ) (present : Reading → Bytes → Bytes) :
    List Call → σ → Reading → Option (Run σ)
  | [], s, x => some ⟨[], s, .ok x⟩
  | .ended :: calls, s, x =>
    match x.reader.finish handler s with
    | (t, .error _) => serve handler present calls t x
    | (t, .ok next) => serve handler present calls t { x with reader := next }
  | .input piece :: calls, s, x =>
    (loop handler ((present x piece).length + 3) s ⟨x.reader, present x piece⟩).bind fun first =>
      match first.result with
      | .error _ => some first
      | .ok y =>
        (serve handler present calls first.state (y.counted (present x piece))).map
          (Run.behind first.laps)

def supply (handler : Handler σ) (present : Reading → Bytes → Bytes) :
    List Call → σ → Reading → σ × Except Error Reading
  | [], s, x => (s, .ok x)
  | .ended :: calls, s, x =>
    match x.reader.finish handler s with
    | (t, .error _) => supply handler present calls t x
    | (t, .ok next) => supply handler present calls t { x with reader := next }
  | .input piece :: calls, s, x =>
    match x.reader.read handler s (present x piece) with
    | (t, .error e) => (t, .error e)
    | (t, .ok y) => supply handler present calls t y

theorem supply_feed (handler : Handler σ) (pieces : List Bytes) (s : σ) (x : Reading) :
    supply handler (fun x piece => x.rest ++ piece) (pieces.map .input) s x
      = feed handler pieces s x := by
  induction pieces generalizing s x with
  | nil => rfl
  | cons piece pieces ih =>
    rw [List.map_cons, supply, feed, Reading.push]
    cases x.reader.read handler s (x.rest ++ piece) with
    | mk t result =>
      cases result with
      | error e => rfl
      | ok y => exact ih t y

theorem rank_le (phase : Phase) : rank phase ≤ 2 := by
  cases phase <;> simp [rank]

section Loops

variable {handler : Handler σ} {rounds : Nat} {s : σ} {x : Reading} {run : Run σ}

-- Every turn that goes on leaves less to do, so there is a number of rounds that suffices.
theorem loop_ends (handler : Handler σ) (rounds : Nat) (s : σ) (x : Reading)
    (enough : x.rest.length + rank x.reader.phase < rounds) :
    ∃ run, loop handler rounds s x = some run := by
  induction rounds generalizing s x with
  | zero => exact absurd enough (Nat.not_lt_zero _)
  | succ rounds ih =>
    rw [loop]
    cases handler.deliver s (turn x.reader x.rest).told with
    | mk t refused =>
      cases refused with
      | some e => exact ⟨_, rfl⟩
      | none =>
        cases went : turn x.reader x.rest with
        | fault told e => exact ⟨_, rfl⟩
        | pause told next rest => exact ⟨_, rfl⟩
        | onward told next rest =>
          have lower := turn_descends _ _ _ _ _ went
          unfold Descends at lower
          obtain ⟨later, ran⟩ := ih t ⟨next, rest⟩ (by dsimp only; omega)
          exact ⟨_, congrArg (Option.map _) ran⟩

theorem loop_scan (ran : loop handler rounds s x = some run) :
    (run.state, run.result) = match handler.deliver s (scan x.reader x.rest).events with
      | (t, some e) => (t, .error e)
      | (t, none) => (t, (scan x.reader x.rest).result) := by
  induction rounds generalizing s x run with
  | zero => cases ran
  | succ rounds ih =>
    rw [loop] at ran
    cases went : turn x.reader x.rest with
    | fault told e =>
      rw [went] at ran
      rw [scan_fault _ _ _ _ went]
      cases taken : handler.deliver s told with
      | mk t refused =>
        simp only [Turn.told, taken] at ran
        cases refused <;> cases ran <;> rfl
    | pause told next rest =>
      rw [went] at ran
      rw [scan_pause _ _ _ _ _ went]
      cases taken : handler.deliver s told with
      | mk t refused =>
        simp only [Turn.told, taken] at ran
        cases refused <;> cases ran <;> rfl
    | onward told next rest =>
      rw [went] at ran
      rw [scan_onward _ _ _ _ _ went, Handler.deliver_append]
      cases taken : handler.deliver s told with
      | mk t refused =>
        simp only [Turn.told, taken] at ran
        cases refused with
        | some e =>
          cases ran
          rfl
        | none =>
          obtain ⟨later, more, rfl⟩ := Option.map_eq_some_iff.mp ran
          exact ih more

theorem loop_read {r : Reader} {bytes : Bytes} (ran : loop handler rounds s ⟨r, bytes⟩ = some run) :
    r.read handler s bytes = (run.state, run.result.map (·.counted bytes)) := by
  have same := loop_scan ran
  dsimp only at same
  unfold read
  dsimp only
  cases taken : handler.deliver s (scan r bytes).events with
  | mk t refused =>
    rw [taken] at same
    cases refused with
    | some e =>
      obtain ⟨rfl, failed⟩ := Prod.mk.inj same
      rw [failed]
      rfl
    | none =>
      obtain ⟨rfl, ended⟩ := Prod.mk.inj same
      rw [ended]

theorem serve_supply (handler : Handler σ) (present : Reading → Bytes → Bytes) (calls : List Call)
    (s : σ) (x : Reading) :
    ∃ run, serve handler present calls s x = some run ∧
      (run.state, run.result) = supply handler present calls s x := by
  induction calls generalizing s x with
  | nil => exact ⟨_, rfl, rfl⟩
  | cons call calls ih =>
    cases call with
    | ended =>
      rw [serve, supply]
      cases x.reader.finish handler s with
      | mk t result =>
        cases result with
        | error e => exact ih t x
        | ok next => exact ih t _
    | input piece =>
      have enough : (present x piece).length + rank x.reader.phase < (present x piece).length + 3 := by
        have bound := rank_le x.reader.phase
        omega
      obtain ⟨first, ran⟩ := loop_ends handler _ s ⟨x.reader, present x piece⟩ enough
      have read := loop_read ran
      rw [serve, supply, ran, read, Option.bind_some]
      cases ended : first.result with
      | error e => exact ⟨first, rfl, by rw [ended]; rfl⟩
      | ok y =>
        obtain ⟨later, more, same⟩ := ih first.state (y.counted (present x piece))
        exact ⟨later.behind first.laps, congrArg (Option.map _) more, same⟩

end Loops

inductive Way : Phase → List Lap → Phase → Prop
  | stay (phase : Phase) : Way phase [] phase
  | lap {before after last : Phase} {used : Bytes} {laps : List Lap} :
    Passage before used after → Way after laps last → Way before (⟨before, after, used⟩ :: laps) last
  | wait {before after last : Phase} {laps : List Lap} :
    Wait before after → Way after laps last → Way before laps last

section Ways

variable {phase last : Phase} {laps : List Lap}

theorem Way.append {middle : Phase} {later : List Lap} (first : Way phase laps middle)
    (second : Way middle later last) : Way phase (laps ++ later) last := by
  induction first with
  | stay => exact second
  | lap passage _ ih => exact .lap passage (ih second)
  | wait waits _ ih => exact .wait waits (ih second)

theorem Way.passage (way : Way phase laps last) :
    ∀ lap ∈ laps, Passage lap.before lap.used lap.after := by
  induction way with
  | stay => nofun
  | lap passage _ ih =>
    intro lap member
    rcases List.mem_cons.mp member with rfl | later
    · exact passage
    · exact ih lap later
  | wait _ _ ih => exact ih

theorem Way.begins_later (way : Way phase laps last) (begun : phase ≠ .start) :
    laps.countP Lap.begins = 0 := by
  induction way with
  | stay => rfl
  | lap passage _ ih =>
    rw [List.countP_cons_of_neg, ih passage.ahead.2]
    simpa [Lap.begins] using begun
  | wait waits _ ih =>
    refine ih ?_
    cases waits with
    | same same => rwa [same]
    | chunkData | epilogue => nofun

theorem Way.begins_once (way : Way phase laps last) : laps.countP Lap.begins ≤ 1 := by
  induction way with
  | stay => exact Nat.zero_le 1
  | @lap before _ _ used _ passage later =>
    rw [List.countP_cons, later.begins_later passage.ahead.2]
    split <;> decide
  | wait _ _ ih => exact ih

theorem Way.done (way : Way phase laps last) (ended : phase = .done) : laps = [] := by
  induction way with
  | stay => rfl
  | lap passage => exact absurd ended passage.ahead.1
  | wait waits _ ih =>
    refine ih ?_
    cases waits with
    | same same => rw [same, ended]
    | chunkData | epilogue => cases ended

theorem Way.closes_once (way : Way phase laps last) : laps.countP Lap.closes ≤ 1 := by
  induction way with
  | stay => exact Nat.zero_le 1
  | @lap before after _ used laps passage later ih =>
    by_cases ended : after = .done
    · rw [later.done ended]
      exact List.countP_le_length
    · rw [List.countP_cons_of_neg]
      · exact ih
      · unfold Lap.closes
        split
        · rename_i closed
          exact absurd closed ended
        · nofun
  | wait _ _ ih => exact ih

theorem Way.idle (way : Way phase laps last) :
    ∀ lap ∈ laps, lap.used = [] → lap.begins = true ∨ lap.closes = true := by
  intro lap member idle
  rcases (way.passage lap member).spends with some_used | begins | ⟨⟨opened, before⟩, after⟩
  · exact absurd idle some_used
  · exact .inl (by simp [Lap.begins, begins])
  · exact .inr (by simp [Lap.closes, before, after])

theorem spent_cons (lap : Lap) (laps : List Lap) : spent (lap :: laps) = lap.used ++ spent laps := rfl

theorem spent_append (laps later : List Lap) : spent (laps ++ later) = spent laps ++ spent later :=
  List.flatMap_append

theorem laps_length (laps : List Lap)
    (idle : ∀ lap ∈ laps, lap.used = [] → lap.begins = true ∨ lap.closes = true) :
    laps.length ≤ (spent laps).length + laps.countP Lap.begins + laps.countP Lap.closes := by
  induction laps with
  | nil => exact Nat.le_refl 0
  | cons lap laps ih =>
    have shorter := ih fun other member => idle other (List.mem_cons_of_mem lap member)
    have first : 1 ≤ lap.used.length + (if lap.begins then 1 else 0) + if lap.closes then 1 else 0 := by
      cases used : lap.used with
      | cons b rest =>
        rw [List.length_cons]
        omega
      | nil => rcases idle lap List.mem_cons_self used with begins | closes <;> simp [*]
    rw [List.length_cons, spent_cons, List.length_append, List.countP_cons, List.countP_cons]
    omega

theorem Way.length_le (way : Way phase laps last) : laps.length ≤ (spent laps).length + 2 := by
  have bound := laps_length laps way.idle
  have begins := way.begins_once
  have closes := way.closes_once
  omega

end Ways

section Calls

variable {handler : Handler σ} {s : σ} {x : Reading} {run : Run σ}

theorem take_used (used rest : Bytes) :
    (used ++ rest).take ((used ++ rest).length - rest.length) = used := by
  rw [List.length_append, Nat.add_sub_cancel, List.take_left]

theorem loop_way {rounds : Nat} (sound : Sound x.reader) (ran : loop handler rounds s x = some run) :
    ∃ last, Way x.reader.phase run.laps last ∧ ∀ y, run.result = .ok y →
      y.reader.phase = last ∧ Sound y.reader ∧
        (spent run.laps).length + y.rest.length ≤ x.rest.length := by
  induction rounds generalizing s x run with
  | zero => cases ran
  | succ rounds ih =>
    rw [loop] at ran
    cases taken : handler.deliver s (turn x.reader x.rest).told with
    | mk t refused =>
      rw [taken] at ran
      cases refused with
      | some e =>
        cases ran
        refine ⟨_, .stay _, fun y ended => ?_⟩
        cases ended
      | none =>
        have left := turn_leaves x.reader x.rest
        have passes := turn_passes x.reader x.rest fun _ => sound
        have kept := turn_sound x.reader x.rest sound
        cases went : turn x.reader x.rest with
        | fault told e =>
          rw [went] at ran
          cases ran
          refine ⟨_, .stay _, fun y ended => ?_⟩
          cases ended
        | pause told next rest =>
          rw [went] at ran left passes kept
          obtain rfl := Option.some.inj ran
          -- Only the last turn of a call waits.
          refine ⟨_, .wait passes (.stay _), fun y ended => ?_⟩
          obtain rfl := Except.ok.inj ended
          refine ⟨rfl, kept.2, ?_⟩
          rw [show spent [] = [] from rfl, List.length_nil, Nat.zero_add]
          exact left.length_le
        | onward told next rest =>
          rw [went] at ran passes kept
          obtain ⟨later, more, rfl⟩ := Option.map_eq_some_iff.mp ran
          obtain ⟨used, whole, passage⟩ := passes
          obtain ⟨last, way, bounded⟩ := ih kept.2 more
          simp only [Run.behind, whole, take_used, List.singleton_append]
          refine ⟨last, .lap passage way, fun y ended => ?_⟩
          obtain ⟨same, sound', fits⟩ := bounded y ended
          refine ⟨same, sound', ?_⟩
          rw [spent_cons, List.length_append, List.length_append]
          dsimp only at fits ⊢
          omega

theorem finish_sound {t : σ} {r next : Reader} (sound : Sound r)
    (ran : r.finish handler s = (t, .ok next)) : Sound next ∧ next.phase = .done ∧
      next.consumed = r.consumed := by
  unfold finish at ran
  split at ran
  · cases ran
  · split at ran <;> cases ran
    exact ⟨sound.ended, rfl, rfl⟩

theorem call_way {rounds : Nat} {r : Reader} {bytes : Bytes} (sound : Sound r)
    (ran : loop handler rounds s ⟨r, bytes⟩ = some run) :
    ∃ last, Way r.phase run.laps last ∧ ∀ y, run.result = .ok y →
      y.reader.phase = last ∧ Sound (y.counted bytes).reader ∧
        r.consumed + (spent run.laps).length ≤ (y.counted bytes).reader.consumed := by
  obtain ⟨last, way, bounded⟩ := loop_way (x := ⟨r, bytes⟩) sound ran
  refine ⟨last, way, fun y ended => ?_⟩
  obtain ⟨same, sound', fits⟩ := bounded y ended
  have read := loop_read ran
  rw [ended] at read
  have used : (y.counted bytes).reader.consumed = r.consumed + (bytes.length - y.rest.length) :=
    read_consumed read
  refine ⟨same, sound'.counting _, ?_⟩
  dsimp only at fits
  omega

theorem serve_way {present : Reading → Bytes → Bytes} {calls : List Call} (sound : Sound x.reader)
    (ran : serve handler present calls s x = some run) :
    ∃ last, Way x.reader.phase run.laps last ∧ ∀ y, run.result = .ok y →
      Sound y.reader ∧ x.reader.consumed + (spent run.laps).length ≤ y.reader.consumed := by
  induction calls generalizing s x run with
  | nil =>
    cases ran
    refine ⟨_, .stay _, fun y ended => ?_⟩
    cases ended
    exact ⟨sound, Nat.le_refl _⟩
  | cons call calls ih =>
    cases call with
    | ended =>
      rw [serve] at ran
      cases finished : x.reader.finish handler s with
      | mk t result =>
        rw [finished] at ran
        cases result with
        | error e => exact ih sound ran
        | ok next =>
          obtain ⟨sound', done, same⟩ := finish_sound sound finished
          obtain ⟨last, way, counted⟩ := ih sound' ran
          have none_left := way.done done
          -- Once it has ended, a reader takes no more laps.
          rw [none_left] at way counted ⊢
          exact ⟨_, .stay _, same ▸ counted⟩
    | input piece =>
      rw [serve] at ran
      obtain ⟨first, call, rest⟩ := Option.bind_eq_some_iff.mp ran
      obtain ⟨middle, way, counted⟩ := call_way sound call
      cases ended : first.result with
      | error e =>
        simp only [ended, Option.some.injEq] at rest
        subst rest
        refine ⟨middle, way, fun y ok => ?_⟩
        rw [ended] at ok
        cases ok
      | ok y =>
        simp only [ended] at rest
        obtain ⟨later, more, rfl⟩ := Option.map_eq_some_iff.mp rest
        obtain ⟨rfl, sound', used⟩ := counted y ended
        obtain ⟨last, way', counted'⟩ := ih (x := y.counted (present x piece)) sound' more
        refine ⟨last, way.append way', fun z done => ?_⟩
        obtain ⟨sound'', used'⟩ := counted' z done
        refine ⟨sound'', ?_⟩
        simp only [Run.behind, spent_append, List.length_append]
        omega

end Calls

-- The laps are at most two more than the bytes they used: the one that leaves the first phase and the
-- one that ends an epilogue may use none.
theorem laps_bounded (skip : Bool) (handler : Handler σ) (s : σ) (present : Reading → Bytes → Bytes)
    (calls : List Call) :
    let fresh : Reading := { reader := { skipStartLine := skip } }
    ∃ run, serve handler present calls s fresh = some run ∧
      (run.state, run.result) = supply handler present calls s fresh ∧
      run.laps.length ≤ (spent run.laps).length + 2 ∧
      (∀ lap ∈ run.laps, lap.used = [] → lap.begins = true ∨ lap.closes = true) ∧
      run.laps.countP Lap.begins ≤ 1 ∧ run.laps.countP Lap.closes ≤ 1 ∧
      ∀ x, run.result = .ok x → (spent run.laps).length ≤ x.reader.consumed := by
  intro fresh
  obtain ⟨run, ran, same⟩ := serve_supply handler present calls s fresh
  obtain ⟨last, way, counted⟩ := serve_way (fresh_sound skip) ran
  refine ⟨run, ran, same, way.length_le, way.idle, way.begins_once, way.closes_once, fun x ended => ?_⟩
  have total := (counted x ended).2
  rwa [show fresh.reader.consumed = 0 from rfl, Nat.zero_add] at total

end HttpWire.Reader
