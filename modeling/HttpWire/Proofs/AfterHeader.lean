import HttpWire.Proofs.Recasting

-- Behind the header no turn leads back, announces its end again or changes what it decided.
namespace HttpWire.Reader

def afterHeader : Phase → Bool
  | .start | .startLine | .header _ => false
  | _ => true

def Past (r : Reader) : Prop := afterHeader r.phase = true

structure Follows (r next : Reader) : Prop where
  past : next.Past
  framing : next.framing = r.framing
  preamble : next.phase = .preamble → r.phase = .preamble ∧ next.index = r.index

theorem Follows.refl {r : Reader} (past : r.Past) : Follows r r :=
  ⟨past, rfl, fun here => ⟨here, rfl⟩⟩

theorem Follows.trans {r s t : Reader} (first : Follows r s) (second : Follows s t) : Follows r t := by
  refine ⟨second.past, second.framing.trans first.framing, fun here => ?_⟩
  obtain ⟨still, index⟩ := second.preamble here
  obtain ⟨before, index'⟩ := first.preamble still
  exact ⟨before, index.trans index'⟩

def Behind : Event → Prop
  | .start _ | .field .header _ | .element .header _ | .headerDone _ => False
  | _ => True

def NotHeaderDone (e : Event) : Prop := ∀ format, e ≠ .headerDone format

theorem Behind.notHeaderDone {e : Event} (behind : Behind e) : NotHeaderDone e := by
  rintro format rfl
  exact behind

theorem notHeaderDone_ofField (s : Section) (f : Field) :
    ∀ e ∈ Event.ofField s f, NotHeaderDone e := by
  simp [Event.ofField, NotHeaderDone]

theorem behind_ofField (s : Section) (f : Field) (other : s ≠ .header) :
    ∀ e ∈ Event.ofField s f, Behind e := by
  cases s with
  | header => exact absurd rfl other
  | part index => simp [Event.ofField, Behind]
  | trailer => simp [Event.ofField, Behind]

theorem behind_ofData (place : Place) (bytes : Bytes) : ∀ e ∈ Event.ofData place bytes, Behind e := by
  intro e member
  unfold Event.ofData at member
  split at member
  · cases member
  · rw [List.mem_singleton.mp member]
    trivial

-- Data and one event more, as most turns announce it.
theorem behind_data_end (place : Place) (bytes : Bytes) (last : Event) (behind : Behind last) :
    ∀ e ∈ Event.ofData place bytes ++ [last], Behind e := by
  intro e member
  rcases List.mem_append.mp member with data | ended
  · exact behind_ofData place bytes e data
  · rw [List.mem_singleton.mp ended]
    exact behind

variable (r : Reader) (bytes : Bytes)

theorem bodyTurn_follows (past : r.Past) : (bodyTurn r bytes).Keeps Behind (Follows r) := by
  unfold bodyTurn
  dsimp only
  split
  · exact ⟨behind_data_end _ _ _ trivial, rfl, rfl, nofun⟩
  · exact ⟨behind_ofData _ _, past, rfl, fun here => ⟨here, rfl⟩⟩

theorem chunkLineTurn_follows (past : r.Past) :
    (chunkLineTurn r bytes).Keeps Behind (Follows r) := by
  unfold chunkLineTurn
  split
  · exact nofun
  · exact ⟨nofun, .refl past⟩
  · split
    · exact nofun
    · rename_i chunk _
      have told : ∀ e ∈ chunk.extensions.map (Event.extension r.index), Behind e := by
        intro e member
        obtain ⟨extension, _, rfl⟩ := List.mem_map.mp member
        trivial
      have more : ∀ later : List Event, (∀ e ∈ later, Behind e) →
          ∀ e ∈ chunk.extensions.map (Event.extension r.index) ++ later, Behind e := by
        intro later fine e member
        rcases List.mem_append.mp member with now | after
        · exact told e now
        · exact fine e after
      dsimp only
      split
      · exact told
      · split
        · exact ⟨more _ (by simp [Behind]), rfl, rfl, nofun⟩
        · exact ⟨more _ (by simp [Behind]), rfl, rfl, nofun⟩

theorem chunkDataTurn_follows (missing : Nat) :
    (chunkDataTurn r missing bytes).Keeps Behind (Follows r) := by
  unfold chunkDataTurn
  dsimp only
  split
  · exact ⟨behind_ofData _ _, rfl, rfl, nofun⟩
  · split
    · exact ⟨behind_ofData _ _, rfl, rfl, nofun⟩
    · exact behind_ofData _ _
    · exact ⟨behind_data_end _ _ _ trivial, rfl, rfl, nofun⟩

theorem trailerTurn_follows (size : Nat) (past : r.Past) :
    (trailerTurn r size bytes).Keeps Behind (Follows r) := by
  unfold trailerTurn
  split
  · exact nofun
  · exact ⟨nofun, .refl past⟩
  · exact ⟨by simp [Behind], rfl, rfl, nofun⟩
  · exact ⟨behind_ofField _ _ nofun, rfl, rfl, nofun⟩

theorem partHeaderTurn_follows (size : Nat) (past : r.Past) :
    (partHeaderTurn r size bytes).Keeps Behind (Follows r) := by
  unfold partHeaderTurn
  split
  · exact nofun
  · exact ⟨nofun, .refl past⟩
  · exact ⟨by simp [Behind], rfl, rfl, nofun⟩
  · exact ⟨behind_ofField _ _ nofun, rfl, rfl, nofun⟩

theorem afterFirst_follows (past : r.Past) (place : Place) (data back : Bytes) :
    (afterFirst r (Event.ofData place data) back bytes).Keeps Behind (Follows r) := by
  unfold afterFirst
  split
  · exact ⟨behind_data_end _ _ _ trivial, rfl, rfl, nofun⟩
  · exact behind_ofData _ _
  · exact ⟨behind_ofData _ _, .refl past⟩
  · exact behind_ofData _ _

theorem preambleTurn_follows (past : r.Past) :
    (preambleTurn r bytes).Keeps Behind (Follows r) := by
  rw [preambleTurn_eq]
  split
  · exact afterFirst_follows r _ past .preamble [] _
  · exact ⟨nofun, .refl past⟩
  · split
    · exact ⟨behind_ofData _ _, .refl past⟩
    · exact afterFirst_follows r _ past .preamble _ _

theorem partDataTurn_follows (past : r.Past) :
    (partDataTurn r bytes).Keeps Behind (Follows r) := by
  unfold partDataTurn
  split
  · exact ⟨behind_ofData _ _, .refl past⟩
  · exact ⟨behind_data_end _ _ _ trivial, rfl, rfl, nofun⟩

theorem partEndTurn_follows (past : r.Past) :
    (partEndTurn r bytes).Keeps Behind (Follows r) := by
  unfold partEndTurn
  split
  · exact ⟨nofun, rfl, rfl, nofun⟩
  · exact ⟨by simp [Behind], rfl, rfl, nofun⟩
  · exact ⟨nofun, .refl past⟩
  · exact nofun

theorem drain_follows (whole : Bytes) : (drain r whole bytes).Keeps Behind (Follows r) := by
  unfold drain
  split
  · exact ⟨behind_ofData _ _, rfl, rfl, nofun⟩
  · exact ⟨behind_data_end _ _ _ trivial, rfl, rfl, nofun⟩

theorem epilogueTurn_follows (opened : Bool) (past : r.Past) :
    (epilogueTurn r opened bytes).Keeps Behind (Follows r) := by
  unfold epilogueTurn
  split
  · exact drain_follows r _ _
  · split
    · exact drain_follows r _ _
    · split
      · exact ⟨nofun, .refl past⟩
      · exact drain_follows r _ _
    · exact drain_follows r _ _

theorem turn_follows (past : r.Past) : (turn r bytes).Keeps Behind (Follows r) := by
  have counted : ∀ (next : Reader) n, Follows r next → Follows r { next with seen := n } :=
    fun _ _ before => ⟨before.past, before.framing, before.preamble⟩
  cases phase : r.phase with
  | start => simp [Past, phase, afterHeader] at past
  | startLine => simp [Past, phase, afterHeader] at past
  | header size => simp [Past, phase, afterHeader] at past
  | body => simpa only [turn, phase] using bodyTurn_follows r bytes past
  | chunkLine => simpa only [turn, phase] using chunkLineTurn_follows r bytes past
  | chunkData missing => simpa only [turn, phase] using chunkDataTurn_follows r bytes missing
  | trailer size => simpa only [turn, phase] using trailerTurn_follows r bytes size past
  | preamble =>
    simpa only [turn, phase] using inBody_keeps r _ bytes counted fun own =>
      preambleTurn_follows r own past
  | partHeader size =>
    simpa only [turn, phase] using inBody_keeps r _ bytes counted fun own =>
      partHeaderTurn_follows r own size past
  | partData =>
    simpa only [turn, phase] using inBody_keeps r _ bytes counted fun own =>
      partDataTurn_follows r own past
  | partEnd =>
    simpa only [turn, phase] using inBody_keeps r _ bytes counted fun own =>
      partEndTurn_follows r own past
  | epilogue opened =>
    simpa only [turn, phase] using inBody_keeps r _ bytes counted fun own =>
      epilogueTurn_follows r own opened past
  | done =>
    have silent : ∀ e ∈ [], Behind e := fun e member => absurd member List.not_mem_nil
    have quiet : (Turn.pause [] r bytes).Keeps Behind (Follows r) := ⟨silent, .refl past⟩
    simpa only [turn, phase] using quiet

theorem scan_follows (past : r.Past) :
    (∀ e ∈ (scan r bytes).events, Behind e) ∧
      ∀ x, (scan r bytes).result = .ok x → Follows r x.reader := by
  refine scan_keeps (fun s input before => ?_) r bytes (.refl past)
  have kept := turn_follows s input before.past
  cases ran : turn s input with
  | onward told next rest =>
    rw [ran] at kept
    exact ⟨kept.1, before.trans kept.2⟩
  | pause told next rest =>
    rw [ran] at kept
    exact ⟨kept.1, before.trans kept.2⟩
  | fault told e =>
    rw [ran] at kept
    exact kept

end HttpWire.Reader
