import HttpWire.Proofs.AfterHeader
import HttpWire.Proofs.Recasting
import HttpWire.Proofs.Refusal

-- A reader that skips the start line and one that has read that of a POST request decide on the body
-- in the same way, and nothing behind the header asks who sent the message.
namespace HttpWire.Reader

def postLine : Bytes := ascii "POST / HTTP/1.1\r\n"

def posting : Recast where
  skip := fun _ => false
  sender := fun _ => .client .post
  consumed := fun n => n + postLine.length

def Unopened (r : Reader) : Prop := r.Past ∨ (∃ size, r.phase = .header size) ∧ r.sender = .unknown

section Turns

variable {r : Reader}

theorem Unopened.unseen (unopened : r.Unopened) : Unseen posting r := by
  unfold Unseen
  rcases unopened with past | ⟨⟨size, phase⟩, sender⟩
  · cases phase : r.phase with
    | start => rw [Past, phase] at past; cases past
    | startLine => rw [Past, phase] at past; cases past
    | header size => rw [Past, phase] at past; cases past
    | _ => trivial
  · rw [phase, sender]
    rfl

theorem turn_unopened (r : Reader) (bytes : Bytes) (unopened : r.Unopened) :
    (turn r bytes).Keeps (fun _ => True) Unopened := by
  rcases unopened with past | ⟨⟨size, phase⟩, sender⟩
  · have kept := turn_follows r bytes past
    cases ran : turn r bytes with
    | onward told next rest =>
      rw [ran] at kept
      exact ⟨fun _ _ => trivial, .inl kept.2.past⟩
    | pause told next rest =>
      rw [ran] at kept
      exact ⟨fun _ _ => trivial, .inl kept.2.past⟩
    | fault told e => exact fun _ _ => trivial
  · simp only [turn, phase, headerTurn]
    split
    · exact fun _ _ => trivial
    · exact ⟨fun _ _ => trivial, .inr ⟨⟨size, phase⟩, sender⟩⟩
    · split
      · exact fun _ _ => trivial
      · rename_i framing _
        refine ⟨fun _ _ => trivial, .inl ?_⟩
        unfold Past
        cases framing.format <;> rfl
    · split
      · exact fun _ _ => trivial
      · exact ⟨fun _ _ => trivial, .inr ⟨⟨_, rfl⟩, sender⟩⟩

theorem scan_posting (bytes : Bytes) (unopened : r.Unopened) :
    scan (r.recast posting) bytes = (scan r bytes).recast posting ∧
      ∀ x, (scan r bytes).result = .ok x → x.reader.Unopened :=
  ⟨scan_recast (fun _ => Unopened.unseen) turn_unopened r bytes unopened,
    (scan_keeps turn_unopened r bytes unopened).2⟩

end Turns

section Calls

variable {σ : Type}

def Reading.seen (before : Nat) (x : Reading) : Progress × Nat × Bytes :=
  (x.progress, x.reader.consumed - before, x.rest)

-- There is no next call behind input that failed, and a failed attempt to finish changes nothing.
def Call.onward (x : Reading) : Call → Except Error Reading → Option Reading
  | _, .ok y => some y
  | .ended, .error _ => some x
  | .input _, .error _ => none

def observed (handler : Handler σ) :
    List Call → σ → Reading → List (σ × Except Error (Progress × Nat × Bytes))
  | [], _, _ => []
  | call :: calls, s, x =>
    let made := call.make handler s x
    (made.1, made.2.map (Reading.seen x.reader.consumed)) ::
      match call.onward x made.2 with
      | none => []
      | some y => observed handler calls made.1 y

def Reading.posted (x : Reading) : Reading := { x with reader := x.reader.recast posting }

def skipped : Reader := { skipStartLine := true, phase := .header 0 }

theorem skipped_unopened : Unopened skipped := .inr ⟨⟨0, rfl⟩, rfl⟩

theorem skipped_read (handler : Handler σ) (s : σ) (bytes : Bytes) :
    ({ skipStartLine := true } : Reader).read handler s bytes = skipped.read handler s bytes := by
  have ran : turn { skipStartLine := true } bytes = .onward [] skipped bytes := rfl
  have begun : scan { skipStartLine := true } bytes = scan skipped bytes := scan_onward _ _ _ _ _ ran
  unfold read
  rw [begun]

inductive Posted : Reading → Reading → Prop
  | fresh (rest : Bytes) : Posted ⟨{ skipStartLine := true }, rest⟩ (Reading.posted ⟨skipped, rest⟩)
  | behind (x : Reading) (unopened : x.reader.Unopened) : Posted x x.posted

inductive Matches (before before' : Nat) : Except Error Reading → Except Error Reading → Prop
  | failed (e : Error) : Matches before before' (.error e) (.error e)
  | passed (y y' : Reading) (seen : y'.seen before' = y.seen before) (posted : Posted y y') :
    Matches before before' (.ok y) (.ok y')

variable {r : Reader} {x x' : Reading}

theorem posted_counted (x : Reading) (bytes : Bytes) :
    x.posted.counted bytes = (x.counted bytes).posted := by
  simp only [Reading.posted, Reading.counted, Reading.used, recast, posting, Nat.add_right_comm]

theorem posted_seen (before : Nat) (x : Reading) :
    x.posted.seen (before + postLine.length) = x.seen before := by
  have used : x.reader.consumed + postLine.length - (before + postLine.length)
      = x.reader.consumed - before := Nat.add_sub_add_right ..
  exact congrArg (fun n => (x.progress, n, x.rest)) used

theorem read_posting (unopened : r.Unopened) (handler : Handler σ) (s : σ) (bytes : Bytes) :
    (r.recast posting).read handler s bytes
      = ((r.read handler s bytes).1, (r.read handler s bytes).2.map Reading.posted) := by
  unfold read
  rw [(scan_posting bytes unopened).1]
  dsimp only [Scan.recast]
  cases handler.deliver s (scan r bytes).events with
  | mk t refused =>
    cases refused with
    | some e => rfl
    | none =>
      cases (scan r bytes).result with
      | error e => rfl
      | ok y => exact congrArg (fun z => (t, Except.ok z)) (posted_counted y bytes)

theorem read_unopened (unopened : r.Unopened) (handler : Handler σ) (s : σ) (bytes : Bytes) (y : Reading)
    (ran : (r.read handler s bytes).2 = .ok y) : y.reader.Unopened := by
  obtain ⟨_, z, scanned, rfl⟩ := read_taken (Prod.ext rfl ran)
  exact (scan_posting bytes unopened).2 z scanned

theorem matches_posted (before : Nat) (result : Except Error Reading)
    (kept : ∀ y, result = .ok y → y.reader.Unopened) :
    Matches before (before + postLine.length) result (result.map Reading.posted) := by
  cases result with
  | error e => exact .failed e
  | ok y => exact .passed y y.posted (posted_seen before y) (.behind y (kept y rfl))

theorem behind_matches (unopened : x.reader.Unopened) (handler : Handler σ) (s : σ) (call : Call) :
    (call.make handler s x.posted).1 = (call.make handler s x).1 ∧
      Matches x.reader.consumed x.posted.reader.consumed (call.make handler s x).2
        (call.make handler s x.posted).2 := by
  cases call with
  | input piece =>
    have same : Call.make handler s x.posted (.input piece) = _ :=
      read_posting unopened handler s (x.rest ++ piece)
    rw [same]
    exact ⟨rfl, matches_posted _ _ (read_unopened unopened handler s (x.rest ++ piece))⟩
  | ended =>
    have same : x.posted.reader.finish handler s = _ := recast_finish posting x.reader handler s
    simp only [Call.make, same]
    cases ran : x.reader.finish handler s with
    | mk t result =>
      cases result with
      | error e => exact ⟨rfl, .failed e⟩
      | ok next =>
        have ended := finish_reader x.reader next handler s (congrArg Prod.snd ran)
        refine ⟨rfl, matches_posted _ (.ok { x with reader := next }) fun y given => ?_⟩
        cases given
        rw [ended]
        exact .inl rfl

theorem make_matches (posted : Posted x x') (handler : Handler σ) (s : σ) (call : Call) :
    (call.make handler s x').1 = (call.make handler s x).1 ∧
      Matches x.reader.consumed x'.reader.consumed (call.make handler s x).2 (call.make handler s x').2 := by
  cases posted with
  | behind x unopened => exact behind_matches unopened handler s call
  | fresh rest =>
    have matched := behind_matches (x := ⟨skipped, rest⟩) skipped_unopened handler s call
    cases call with
    | input piece =>
      have begun : Call.make handler s ⟨{ skipStartLine := true }, rest⟩ (.input piece)
          = Call.make handler s ⟨skipped, rest⟩ (.input piece) := skipped_read handler s (rest ++ piece)
      rw [begun]
      exact matched
    | ended => exact matched

theorem observed_posted (posted : Posted x x') (handler : Handler σ) (s : σ) (calls : List Call) :
    observed handler calls s x' = observed handler calls s x := by
  induction calls generalizing x x' s with
  | nil => rfl
  | cons call calls ih =>
    obtain ⟨told, matched⟩ := make_matches posted handler s call
    rw [observed, observed]
    generalize call.make handler s x = made at told matched
    generalize call.make handler s x' = made' at told matched
    obtain ⟨t, result⟩ := made
    obtain ⟨t', result'⟩ := made'
    obtain rfl : t = t' := told.symm
    cases matched with
    | failed e =>
      cases call with
      | input piece => rfl
      | ended => exact congrArg _ (ih posted t)
    | passed y y' seen later =>
      have same : observed handler calls t y' = observed handler calls t y := ih later t
      simp only [Except.map, Call.onward, seen, same]

theorem skipped_start_reads_as_post :
    ∃ begun : Reading,
      ({} : Reader).read Handler.record #[] postLine
          = (#[.start (.request .post "/".toList .v11)], .ok begun) ∧
        begun.progress = .incomplete ∧ begun.rest = [] ∧ begun.reader.consumed = postLine.length ∧
        ∀ {σ : Type} (handler : Handler σ) (s : σ) (calls : List Call),
          observed handler calls s begun = observed handler calls s { reader := { skipStartLine := true } } := by
  refine ⟨Reading.posted ⟨skipped, []⟩, Prod.ext ?_ ?_, rfl, rfl, by decide, fun handler s calls => ?_⟩
  · decide +kernel
  · decide +kernel
  · exact observed_posted (.fresh []) handler s calls

end Calls

end HttpWire.Reader
