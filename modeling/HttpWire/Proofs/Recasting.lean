import HttpWire.Proofs.Resumption.Parts

-- What every turn keeps, a call keeps, and so does any number of calls on any input.
namespace HttpWire.Reader

def Turn.Keeps (tells : Event → Prop) (holds : Reader → Prop) : Turn → Prop
  | .onward told next _ => (∀ e ∈ told, tells e) ∧ holds next
  | .pause told next _ => (∀ e ∈ told, tells e) ∧ holds next
  | .fault told _ => ∀ e ∈ told, tells e

theorem scan_keeps {tells : Event → Prop} {holds : Reader → Prop}
    (step : ∀ r bytes, holds r → (turn r bytes).Keeps tells holds) (r : Reader) (bytes : Bytes)
    (start : holds r) :
    (∀ e ∈ (scan r bytes).events, tells e) ∧
      ∀ x, (scan r bytes).result = .ok x → holds x.reader := by
  fun_induction scan r bytes with
  | case1 r bytes told next rest went later ih =>
    have kept := step r bytes start
    rw [went] at kept
    obtain ⟨events, ended⟩ := ih kept.2
    refine ⟨fun e member => ?_, ended⟩
    rcases List.mem_append.mp member with now | after
    · exact kept.1 e now
    · exact events e after
  | case2 r bytes told next rest went =>
    have kept := step r bytes start
    rw [went] at kept
    refine ⟨kept.1, fun x ended => ?_⟩
    cases ended
    exact kept.2
  | case3 r bytes told e went =>
    have kept := step r bytes start
    rw [went] at kept
    exact ⟨kept, fun x ended => by cases ended⟩

theorem inBody_keeps {tells : Event → Prop} {holds : Reader → Prop} (r : Reader)
    (f : Reader → Bytes → Turn) (bytes : Bytes)
    (recounted : ∀ next n, holds next → holds { next with seen := n })
    (inner : ∀ own, (f r own).Keeps tells holds) : (inBody r f bytes).Keeps tells holds := by
  have kept := inner (within r.remaining bytes)
  rw [inBody_eq]
  cases ran : f r (within r.remaining bytes) with
  | onward told next rest =>
    rw [ran] at kept
    exact ⟨kept.1, recounted next _ kept.2⟩
  | fault told e =>
    rw [ran] at kept
    exact kept
  | pause told next rest =>
    rw [ran] at kept
    unfold Turn.enclose
    dsimp only
    split
    · exact kept.1
    · exact ⟨kept.1, recounted next _ kept.2⟩

-- Readers that differ only in what their turns do not look at take the same turns.
structure Recast where
  skip : Bool → Bool := id
  sender : Sender → Sender := id
  consumed : Nat → Nat := id

def recast (c : Recast) (r : Reader) : Reader :=
  { r with
    skipStartLine := c.skip r.skipStartLine
    sender := c.sender r.sender
    consumed := c.consumed r.consumed }

def Turn.recast (c : Recast) : Turn → Turn
  | .onward told next rest => .onward told (next.recast c) rest
  | .pause told next rest => .pause told (next.recast c) rest
  | .fault told e => .fault told e

def Scan.recast (c : Recast) (s : Scan) : Scan :=
  ⟨s.events, s.result.map fun x => { x with reader := x.reader.recast c }⟩

def Unseen (c : Recast) (r : Reader) : Prop :=
  match r.phase with
  | .start => c.skip r.skipStartLine = r.skipStartLine
  | .startLine => ∀ start : StartLine, c.sender start.sender = start.sender
  | .header _ => r.framing.settle (c.sender r.sender) = r.framing.settle r.sender
  | _ => True

section Turns

variable (c : Recast) (r : Reader) (bytes : Bytes)

theorem startTurn_recast (same : c.skip r.skipStartLine = r.skipStartLine) :
    startTurn (r.recast c) bytes = (startTurn r bytes).recast c := by
  unfold startTurn Reader.recast
  dsimp only
  rw [same]
  split
  · simp only [Turn.recast, Reader.recast, same]
  · split <;> simp only [Turn.recast, Reader.recast, same]

theorem startLineTurn_recast (same : ∀ start : StartLine, c.sender start.sender = start.sender) :
    startLineTurn (r.recast c) bytes = (startLineTurn r bytes).recast c := by
  unfold startLineTurn
  split
  · rfl
  · rfl
  · split
    · rfl
    · simp only [Turn.recast, Reader.recast, same]

theorem headerTurn_recast (size : Nat)
    (same : r.framing.settle (c.sender r.sender) = r.framing.settle r.sender) :
    headerTurn (r.recast c) size bytes = (headerTurn r size bytes).recast c := by
  have settled : (r.recast c).framing.settle (r.recast c).sender = r.framing.settle r.sender := same
  have noted : (r.recast c).framing = r.framing := rfl
  unfold headerTurn
  rw [settled, noted]
  split
  · rfl
  · rfl
  · split <;> rfl
  · split <;> rfl

theorem bodyTurn_recast : bodyTurn (r.recast c) bytes = (bodyTurn r bytes).recast c := by
  cases r
  unfold bodyTurn Reader.recast remaining
  dsimp only
  split <;> rfl

theorem chunkLineTurn_recast : chunkLineTurn (r.recast c) bytes = (chunkLineTurn r bytes).recast c := by
  cases r
  unfold chunkLineTurn Reader.recast
  dsimp only
  split
  · rfl
  · rfl
  · split
    · rfl
    · split
      · rfl
      · split <;> rfl

theorem chunkDataTurn_recast (missing : Nat) :
    chunkDataTurn (r.recast c) missing bytes = (chunkDataTurn r missing bytes).recast c := by
  cases r
  unfold chunkDataTurn Reader.recast
  dsimp only
  split
  · rfl
  · split <;> rfl

theorem trailerTurn_recast (size : Nat) :
    trailerTurn (r.recast c) size bytes = (trailerTurn r size bytes).recast c := by
  cases r
  unfold trailerTurn Reader.recast
  dsimp only
  split <;> rfl

theorem afterFirst_recast (told : List Event) (back : Bytes) :
    afterFirst (r.recast c) told back bytes = (afterFirst r told back bytes).recast c := by
  cases r
  unfold afterFirst Reader.recast
  dsimp only
  split <;> rfl

theorem preambleTurn_recast : preambleTurn (r.recast c) bytes = (preambleTurn r bytes).recast c := by
  rw [preambleTurn_eq, preambleTurn_eq]
  have same : beginning (r.recast c) bytes = beginning r bytes := rfl
  have mark : (r.recast c).framing = r.framing := rfl
  rw [same, mark]
  split
  · exact afterFirst_recast c r _ _ _
  · rfl
  · split
    · rfl
    · exact afterFirst_recast c r _ _ _

theorem partHeaderTurn_recast (size : Nat) :
    partHeaderTurn (r.recast c) size bytes = (partHeaderTurn r size bytes).recast c := by
  cases r
  unfold partHeaderTurn Reader.recast
  dsimp only
  split <;> rfl

theorem partDataTurn_recast : partDataTurn (r.recast c) bytes = (partDataTurn r bytes).recast c := by
  cases r
  unfold partDataTurn Reader.recast
  dsimp only
  split <;> rfl

theorem partEndTurn_recast : partEndTurn (r.recast c) bytes = (partEndTurn r bytes).recast c := by
  cases r
  unfold partEndTurn Reader.recast
  dsimp only
  split <;> rfl

theorem drain_recast (whole data : Bytes) :
    drain (r.recast c) whole data = (drain r whole data).recast c := by
  have same : (r.recast c).expectsMore whole = r.expectsMore whole := rfl
  unfold drain
  rw [same]
  split <;> rfl

theorem epilogueTurn_recast (opened : Bool) :
    epilogueTurn (r.recast c) opened bytes = (epilogueTurn r opened bytes).recast c := by
  have same : (r.recast c).expectsMore bytes = r.expectsMore bytes := rfl
  unfold epilogueTurn
  simp only [drain_recast, same]
  split
  · rfl
  · split
    · rfl
    · split <;> rfl
    · rfl

theorem inBody_recast (f : Reader → Bytes → Turn)
    (inner : ∀ own, f (r.recast c) own = (f r own).recast c) :
    inBody (r.recast c) f bytes = (inBody r f bytes).recast c := by
  have same : (r.recast c).remaining = r.remaining := rfl
  rw [inBody_eq, inBody_eq, same, inner]
  cases f r (within r.remaining bytes) with
  | onward told next rest => rfl
  | fault told e => rfl
  | pause told next rest =>
    have ends : (r.recast c).expectsMore = r.expectsMore := rfl
    have phase : (r.recast c).phase = r.phase := rfl
    simp only [Turn.recast, Turn.enclose, ends, phase]
    split <;> rfl

theorem turn_recast (unseen : Unseen c r) : turn (r.recast c) bytes = (turn r bytes).recast c := by
  have same : (r.recast c).phase = r.phase := rfl
  unfold turn
  unfold Unseen at unseen
  rw [same]
  cases phase : r.phase with
  | start => rw [phase] at unseen; exact startTurn_recast c r bytes unseen
  | startLine => rw [phase] at unseen; exact startLineTurn_recast c r bytes unseen
  | header size => rw [phase] at unseen; exact headerTurn_recast c r bytes size unseen
  | body => exact bodyTurn_recast c r bytes
  | chunkLine => exact chunkLineTurn_recast c r bytes
  | chunkData missing => exact chunkDataTurn_recast c r bytes missing
  | trailer size => exact trailerTurn_recast c r bytes size
  | preamble => exact inBody_recast c r bytes _ (preambleTurn_recast c r)
  | partHeader size => exact inBody_recast c r bytes _ fun own => partHeaderTurn_recast c r own size
  | partData => exact inBody_recast c r bytes _ (partDataTurn_recast c r)
  | partEnd => exact inBody_recast c r bytes _ (partEndTurn_recast c r)
  | epilogue opened => exact inBody_recast c r bytes _ fun own => epilogueTurn_recast c r own opened
  | done => rfl

end Turns

section Calls

variable {c : Recast} {holds : Reader → Prop}

-- A call does not see the difference if none of its turns does.
theorem scan_recast (unseen : ∀ r, holds r → Unseen c r)
    (kept : ∀ r bytes, holds r → (turn r bytes).Keeps (fun _ => True) holds) (r : Reader) (bytes : Bytes)
    (start : holds r) : scan (r.recast c) bytes = (scan r bytes).recast c := by
  fun_induction scan r bytes with
  | case1 r bytes told next rest went later ih =>
    have same := turn_recast c r bytes (unseen r start)
    have onward := kept r bytes start
    rw [went] at same onward
    rw [scan_onward _ _ _ _ _ same, ih onward.2]
    rfl
  | case2 r bytes told next rest went =>
    have same := turn_recast c r bytes (unseen r start)
    rw [went] at same
    exact scan_pause _ _ _ _ _ same
  | case3 r bytes told e went =>
    have same := turn_recast c r bytes (unseen r start)
    rw [went] at same
    exact scan_fault _ _ _ _ same

theorem recast_finish {σ : Type} (c : Recast) (r : Reader) (handler : Handler σ) (s : σ) :
    (r.recast c).finish handler s
      = ((r.finish handler s).1, (r.finish handler s).2.map (recast c)) := by
  have same : (r.recast c).ending? = r.ending? := rfl
  unfold finish
  rw [same]
  split
  · rfl
  · split <;> rfl

end Calls

def counting (r : Reader) (n : Nat) : Reader := { r with consumed := n }

def Turn.counting (n : Nat) : Turn → Turn
  | .onward told next rest => .onward told (next.counting n) rest
  | .pause told next rest => .pause told (next.counting n) rest
  | .fault told e => .fault told e

variable (r : Reader) (n : Nat) (bytes : Bytes)

theorem turn_counting : turn (r.counting n) bytes = (turn r bytes).counting n := by
  have unseen : Unseen { consumed := fun _ => n } r := by
    unfold Unseen
    split
    · rfl
    · exact fun _ => rfl
    · rfl
    · trivial
  have same : turn (r.counting n) bytes = (turn r bytes).recast { consumed := fun _ => n } :=
    turn_recast _ r bytes unseen
  rw [same]
  cases turn r bytes <;> rfl

theorem scan_counting (r : Reader) (n : Nat) (bytes : Bytes) :
    scan (r.counting n) bytes = ⟨(scan r bytes).events,
      (scan r bytes).result.map fun x => { x with reader := x.reader.counting n }⟩ := by
  fun_induction scan r bytes with
  | case1 r bytes told next rest went later ih =>
    have same := turn_counting r n bytes
    rw [went] at same
    rw [scan_onward _ _ _ _ _ same, ih]
  | case2 r bytes told next rest went =>
    have same := turn_counting r n bytes
    rw [went] at same
    rw [scan_pause _ _ _ _ _ same]
    rfl
  | case3 r bytes told e went =>
    have same := turn_counting r n bytes
    rw [went] at same
    rw [scan_fault _ _ _ _ same]
    rfl

theorem scan_consumed (r : Reader) (bytes : Bytes) (x : Reading)
    (ran : (scan r bytes).result = .ok x) : x.reader.consumed = r.consumed := by
  have same := congrArg Scan.result (scan_counting r r.consumed bytes)
  have itself : r.counting r.consumed = r := rfl
  rw [itself, ran] at same
  simp only [Except.map, Except.ok.injEq] at same
  rw [same]
  rfl

end HttpWire.Reader
