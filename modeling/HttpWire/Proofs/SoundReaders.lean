import HttpWire.Proofs.Reached

namespace HttpWire

namespace Framing

section Changes

variable {fr next : Framing}

theorem noteLength_changes {value : Text} (noted : fr.noteLength value = .ok next) :
    ∃ length, fr.declared = none ∧ next = { fr with
      declared := some length
      format := if length = 0 then .empty else if fr.format = .multipart then .multipart else .raw } := by
  unfold noteLength at noted
  split at noted
  · cases noted
  · rename_i free
    rw [not_or, Option.not_isSome_iff_eq_none] at free
    split at noted
    · cases noted
    · rename_i length _
      cases noted
      exact ⟨length, free.2, rfl⟩

theorem noteCoding_changes {value : Text} (noted : fr.noteCoding value = .ok next) :
    next = fr ∨ (fr.declared = none ∧ next = { fr with format := .chunked }) := by
  unfold noteCoding at noted
  split at noted
  · split at noted
    · cases noted
    · rename_i free
      cases noted
      exact .inr ⟨Option.not_isSome_iff_eq_none.mp free, rfl⟩
  · cases noted
    exact .inl rfl

theorem noteType_changes {value : Text} (noted : fr.noteType value = .ok next) :
    next = fr ∨ ∃ boundary, boundary? value = .ok (some boundary) ∧ next = { fr with
      boundary := some boundary
      format := if fr.format = .chunked ∨ fr.declared = some 0 then fr.format else .multipart } := by
  unfold noteType at noted
  cases found : boundary? value with
  | error e =>
    rw [found] at noted
    cases noted
  | ok new =>
    rw [found] at noted
    cases new with
    | none =>
      cases noted
      exact .inl rfl
    | some boundary =>
      cases noted
      exact .inr ⟨boundary, rfl, rfl⟩

theorem note_changes {f : Field} (noted : fr.note f = .ok next) :
    next = fr ∨
      (∃ length, fr.declared = none ∧ next = { fr with
        declared := some length
        format := if length = 0 then .empty else if fr.format = .multipart then .multipart else .raw }) ∨
      (fr.declared = none ∧ next = { fr with format := .chunked }) ∨
      ∃ boundary, boundary? f.value = .ok (some boundary) ∧ next = { fr with
        boundary := some boundary
        format := if fr.format = .chunked ∨ fr.declared = some 0 then fr.format else .multipart } := by
  unfold note at noted
  split at noted
  · exact .inr (.inl (noteLength_changes noted))
  · split at noted
    · exact (noteCoding_changes noted).imp_right fun coding => .inr (.inl coding)
    · split at noted
      · exact (noteType_changes noted).imp_right fun parts => .inr (.inr parts)
      · exact .inl (Except.ok.inj noted).symm

theorem settle_changes {sender : Sender} (settled : fr.settle sender = .ok next) :
    next = fr ∨ next = { fr with format := .empty } ∨
      (fr.declared = none ∧ next = { fr with format := .raw }) := by
  have request : ∀ quiet, fr.settleRequest quiet = .ok next →
      next = fr ∨ next = { fr with format := .empty } := by
    intro quiet settled
    unfold settleRequest at settled
    split at settled
    · cases settled
      exact .inl rfl
    · split at settled <;> cases settled
      exact .inr rfl
  cases sender with
  | unknown => exact (request false settled).imp_right .inl
  | client method => exact (request method.bodyless settled).imp_right .inl
  | server status =>
    cases settled
    unfold settleResponse
    split
    · exact .inr (.inl rfl)
    · split
      · exact .inl rfl
      · rename_i open_
        rw [not_or, not_or, Option.not_isSome_iff_eq_none] at open_
        exact .inr (.inr ⟨open_.2.1, rfl⟩)

end Changes

-- Raw data of a declared length is not empty, and there are no parts without a boundary.
structure Fit (fr : Framing) : Prop where
  raw : fr.format = .raw → fr.declared ≠ some 0
  bounded : ∀ boundary, fr.boundary = some boundary →
    boundary ≠ [] ∧ boundary.length ≤ boundaryLimit
  parted : fr.format = .multipart → fr.boundary.isSome = true

theorem boundary?_bounded {value : Text} {boundary : Bytes}
    (found : boundary? value = .ok (some boundary)) :
    boundary ≠ [] ∧ boundary.length ≤ boundaryLimit := by
  unfold boundary? at found
  dsimp only at found
  split at found
  · split at found
    · cases found
    · rename_i usable
      cases found
      rw [not_or] at usable
      exact ⟨usable.1, Nat.le_of_not_lt usable.2⟩
  · cases found

theorem Fit.note {fr next : Framing} {f : Field} (fit : fr.Fit) (noted : fr.note f = .ok next) :
    next.Fit := by
  rcases note_changes noted with rfl | ⟨length, _, rfl⟩ | ⟨_, rfl⟩ | ⟨boundary, found, rfl⟩
  · exact fit
  · refine ⟨fun raw zero => ?_, fit.bounded, fun parts => fit.parted ?_⟩
    · cases zero
      cases raw
    · dsimp only at parts
      split at parts
      · cases parts
      · split at parts
        · assumption
        · cases parts
  · exact ⟨nofun, fit.bounded, nofun⟩
  · refine ⟨fun raw => ?_, fun _ same => ?_, fun _ => rfl⟩
    · dsimp only at raw
      split at raw
      · exact fit.raw raw
      · cases raw
    · cases same
      exact boundary?_bounded found

theorem Fit.settle {fr next : Framing} {sender : Sender} (fit : fr.Fit)
    (settled : fr.settle sender = .ok next) : next.Fit := by
  rcases settle_changes settled with rfl | rfl | ⟨undeclared, rfl⟩
  · exact fit
  · exact ⟨nofun, fit.bounded, nofun⟩
  · refine ⟨fun _ => ?_, fit.bounded, nofun⟩
    rw [undeclared]
    nofun

end Framing

def Phase.sectionSize : Phase → Nat
  | .header size | .trailer size | .partHeader size => size
  | _ => 0

def Phase.inParts : Phase → Bool
  | .preamble | .partHeader _ | .partData | .partEnd | .epilogue _ => true
  | _ => false

theorem Phase.afterHeader_inParts {phase : Phase} (inside : phase.inParts = true) :
    Reader.afterHeader phase = true := by
  cases phase with
  | start => cases inside
  | startLine => cases inside
  | header size => cases inside
  | _ => rfl

namespace Reader

structure Sound (r : Reader) : Prop where
  framing : r.framing.Fit
  unread : afterHeader r.phase = false → r.seen = 0
  size : r.phase.sectionSize ≤ sectionRoom
  body : r.phase = .body →
    r.framing.format = .raw ∧ ∀ length, r.framing.declared = some length → r.seen < length
  parts : r.phase.inParts = true →
    r.framing.format = .multipart ∧ ∀ length, r.framing.declared = some length → r.seen ≤ length

variable {r : Reader}

-- Outside of a body that is counted against its length, only the section counts.
theorem Sound.plain (framing : r.framing.Fit) (size : r.phase.sectionSize ≤ sectionRoom)
    (past : r.Past) (body : r.phase ≠ .body) (parts : r.phase.inParts = false) : Sound r := by
  refine ⟨framing, fun early => ?_, size, fun here => absurd here body, fun inside => ?_⟩
  · rw [Past, early] at past
    cases past
  · rw [parts] at inside
    cases inside

theorem Sound.early (framing : r.framing.Fit) (size : r.phase.sectionSize ≤ sectionRoom)
    (early : afterHeader r.phase = false) (seen : r.seen = 0) : Sound r := by
  refine ⟨framing, fun _ => seen, size, fun here => ?_, fun inside => ?_⟩
  · rw [here] at early
    cases early
  · rw [Phase.afterHeader_inParts inside] at early
    cases early

theorem Sound.boundary (sound : Sound r) (inside : r.phase.inParts = true) :
    ∃ boundary, r.framing.boundary = some boundary ∧
      boundary ≠ [] ∧ boundary.length ≤ Framing.boundaryLimit := by
  obtain ⟨boundary, given⟩ :=
    Option.isSome_iff_exists.mp (sound.framing.parted (sound.parts inside).1)
  exact ⟨boundary, given, sound.framing.bounded boundary given⟩

def Turn.Sound (t : Turn) : Prop := t.Keeps (fun _ => True) Reader.Sound

section Turns

variable (bytes : Bytes)

theorem pause_sound (sound : Sound r) (rest : Bytes) : (Turn.pause [] r rest).Sound :=
  ⟨fun _ _ => trivial, sound⟩

theorem startTurn_sound (sound : Sound r) (phase : r.phase = .start) :
    (startTurn r bytes).Sound := by
  have unread : r.seen = 0 := sound.unread (by rw [phase]; rfl)
  unfold startTurn
  split
  · exact ⟨fun _ _ => trivial, .early sound.framing (Nat.zero_le _) rfl unread⟩
  · dsimp only
    split
    · exact pause_sound sound _
    · exact ⟨fun _ _ => trivial, .early sound.framing (Nat.zero_le _) rfl unread⟩

theorem startLineTurn_sound (sound : Sound r) (phase : r.phase = .startLine) :
    (startLineTurn r bytes).Sound := by
  have unread : r.seen = 0 := sound.unread (by rw [phase]; rfl)
  unfold startLineTurn
  split
  · exact fun _ _ => trivial
  · exact pause_sound sound _
  · split
    · exact fun _ _ => trivial
    · exact ⟨fun _ _ => trivial, .early sound.framing (Nat.zero_le _) rfl unread⟩

-- Where the header leads: no byte of the body has been read, and raw data is to come.
theorem bodyPhase_sound {framing : Framing} (fit : framing.Fit) (unread : r.seen = 0) :
    Sound { r with framing, phase := bodyPhase framing.format } := by
  cases format : framing.format with
  | empty => exact .plain fit (Nat.zero_le _) rfl nofun rfl
  | chunked => exact .plain fit (Nat.zero_le _) rfl nofun rfl
  | raw =>
    refine ⟨fit, nofun, Nat.zero_le _, fun _ => ⟨format, fun length declared => ?_⟩, nofun⟩
    have positive : length ≠ 0 := by
      intro zero
      exact fit.raw format (zero ▸ declared)
    exact unread ▸ Nat.pos_of_ne_zero positive
  | multipart =>
    refine ⟨fit, nofun, Nat.zero_le _, nofun, fun _ => ⟨format, fun length _ => ?_⟩⟩
    exact unread ▸ Nat.zero_le length

theorem headerTurn_sound (sound : Sound r) (size : Nat) (phase : r.phase = .header size) :
    (headerTurn r size bytes).Sound := by
  have unread : r.seen = 0 := sound.unread (by rw [phase]; rfl)
  unfold headerTurn
  split
  · exact fun _ _ => trivial
  · exact pause_sound sound _
  · split
    · exact fun _ _ => trivial
    · rename_i settled
      exact ⟨fun _ _ => trivial, bodyPhase_sound (sound.framing.settle settled) unread⟩
  · rename_i f after rest read
    obtain ⟨line, _, _, rfl, fits⟩ := (sectionLine_field_iff size _ bytes rest f).mp read
    split
    · exact fun _ _ => trivial
    · rename_i noted
      exact ⟨fun _ _ => trivial, .early (sound.framing.note noted) fits rfl unread⟩

theorem bodyTurn_sound (sound : Sound r) (phase : r.phase = .body) : (bodyTurn r bytes).Sound := by
  obtain ⟨format, short⟩ := sound.body phase
  unfold bodyTurn
  dsimp only
  split
  · exact ⟨fun _ _ => trivial, .plain sound.framing (Nat.zero_le _) rfl nofun rfl⟩
  · rename_i left
    have some_left : r.framing.declared.map (· - (r.seen + (within r.remaining bytes).length))
        ≠ some 0 := left
    refine ⟨fun _ _ => trivial, sound.framing, fun early => ?_, sound.size,
      fun _ => ⟨format, fun length declared => ?_⟩, fun inside => ?_⟩
    · dsimp only at early
      rw [phase] at early
      cases early
    · dsimp only at declared ⊢
      rw [declared, Option.map_some, ne_eq, Option.some.injEq] at some_left
      exact Nat.lt_of_sub_ne_zero some_left
    · dsimp only at inside
      rw [phase] at inside
      cases inside

theorem chunkLineTurn_sound (sound : Sound r) : (chunkLineTurn r bytes).Sound := by
  unfold chunkLineTurn
  split
  · exact fun _ _ => trivial
  · exact pause_sound sound _
  · split
    · exact fun _ _ => trivial
    · dsimp only
      split
      · exact fun _ _ => trivial
      · split
        · exact ⟨fun _ _ => trivial, .plain sound.framing (Nat.zero_le _) rfl nofun rfl⟩
        · exact ⟨fun _ _ => trivial, .plain sound.framing (Nat.zero_le _) rfl nofun rfl⟩

theorem chunkDataTurn_sound (sound : Sound r) (missing : Nat) :
    (chunkDataTurn r missing bytes).Sound := by
  unfold chunkDataTurn
  dsimp only
  split
  · exact ⟨fun _ _ => trivial, .plain sound.framing (Nat.zero_le _) rfl nofun rfl⟩
  · split
    · exact ⟨fun _ _ => trivial, .plain sound.framing (Nat.zero_le _) rfl nofun rfl⟩
    · exact fun _ _ => trivial
    · exact ⟨fun _ _ => trivial, .plain sound.framing (Nat.zero_le _) rfl nofun rfl⟩

theorem trailerTurn_sound (sound : Sound r) (size : Nat) : (trailerTurn r size bytes).Sound := by
  unfold trailerTurn
  split
  · exact fun _ _ => trivial
  · exact pause_sound sound _
  · exact ⟨fun _ _ => trivial, .plain sound.framing (Nat.zero_le _) rfl nofun rfl⟩
  · rename_i f after rest read
    obtain ⟨line, _, _, rfl, fits⟩ := (sectionLine_field_iff size _ bytes rest f).mp read
    exact ⟨fun _ _ => trivial, .plain sound.framing fits rfl nofun rfl⟩

end Turns

structure StaysIn (r next : Reader) : Prop where
  framing : next.framing = r.framing
  seen : next.seen = r.seen
  size : next.phase.sectionSize ≤ sectionRoom
  phase : next.phase.inParts = true ∨ next.phase = .done

section Parts

variable (bytes : Bytes)

theorem StaysIn.refl (sound : Sound r) (inside : r.phase.inParts = true) : StaysIn r r :=
  ⟨rfl, rfl, sound.size, .inl inside⟩

theorem afterFirst_staysIn (sound : Sound r) (inside : r.phase.inParts = true) (told : List Event)
    (back : Bytes) : (afterFirst r told back bytes).Keeps (fun _ => True) (StaysIn r) := by
  unfold afterFirst
  split
  · exact ⟨fun _ _ => trivial, rfl, rfl, Nat.zero_le _, .inl rfl⟩
  · exact fun _ _ => trivial
  · exact ⟨fun _ _ => trivial, .refl sound inside⟩
  · exact fun _ _ => trivial

theorem preambleTurn_staysIn (sound : Sound r) (inside : r.phase.inParts = true) :
    (preambleTurn r bytes).Keeps (fun _ => True) (StaysIn r) := by
  rw [preambleTurn_eq]
  split
  · exact afterFirst_staysIn _ sound inside _ _
  · exact ⟨fun _ _ => trivial, .refl sound inside⟩
  · split
    · exact ⟨fun _ _ => trivial, .refl sound inside⟩
    · exact afterFirst_staysIn _ sound inside _ _

theorem partHeaderTurn_staysIn (sound : Sound r) (inside : r.phase.inParts = true) (size : Nat) :
    (partHeaderTurn r size bytes).Keeps (fun _ => True) (StaysIn r) := by
  unfold partHeaderTurn
  split
  · exact fun _ _ => trivial
  · exact ⟨fun _ _ => trivial, .refl sound inside⟩
  · exact ⟨fun _ _ => trivial, rfl, rfl, Nat.zero_le _, .inl rfl⟩
  · rename_i f after rest read
    obtain ⟨line, _, _, rfl, fits⟩ := (sectionLine_field_iff size _ bytes rest f).mp read
    exact ⟨fun _ _ => trivial, rfl, rfl, fits, .inl rfl⟩

theorem partDataTurn_staysIn (sound : Sound r) (inside : r.phase.inParts = true) :
    (partDataTurn r bytes).Keeps (fun _ => True) (StaysIn r) := by
  unfold partDataTurn
  split
  · exact ⟨fun _ _ => trivial, .refl sound inside⟩
  · exact ⟨fun _ _ => trivial, rfl, rfl, Nat.zero_le _, .inl rfl⟩

theorem partEndTurn_staysIn (sound : Sound r) (inside : r.phase.inParts = true) :
    (partEndTurn r bytes).Keeps (fun _ => True) (StaysIn r) := by
  unfold partEndTurn
  split
  · exact ⟨fun _ _ => trivial, rfl, rfl, Nat.zero_le _, .inl rfl⟩
  · exact ⟨fun _ _ => trivial, rfl, rfl, Nat.zero_le _, .inl rfl⟩
  · exact ⟨fun _ _ => trivial, .refl sound inside⟩
  · exact fun _ _ => trivial

theorem drain_staysIn (whole : Bytes) :
    (drain r whole bytes).Keeps (fun _ => True) (StaysIn r) := by
  unfold drain
  split
  · exact ⟨fun _ _ => trivial, rfl, rfl, Nat.zero_le _, .inl rfl⟩
  · exact ⟨fun _ _ => trivial, rfl, rfl, Nat.zero_le _, .inr rfl⟩

theorem epilogueTurn_staysIn (sound : Sound r) (inside : r.phase.inParts = true) (opened : Bool) :
    (epilogueTurn r opened bytes).Keeps (fun _ => True) (StaysIn r) := by
  unfold epilogueTurn
  split
  · exact drain_staysIn _ _
  · split
    · exact drain_staysIn _ _
    · split
      · exact ⟨fun _ _ => trivial, .refl sound inside⟩
      · exact drain_staysIn _ _
    · exact drain_staysIn _ _

-- The bytes that a turn sees are never more than are left of the body.
theorem counted_within (sound : Sound r) (inside : r.phase.inParts = true) (rest : Bytes) (length : Nat)
    (declared : r.framing.declared = some length) :
    r.seen + ((within r.remaining bytes).length - rest.length) ≤ length := by
  have before := (sound.parts inside).2 length declared
  have own : (within r.remaining bytes).length ≤ length - r.seen := by
    simp only [remaining, declared, Option.map_some, within]
    exact List.length_take_le _ _
  omega

theorem inBody_sound (sound : Sound r) (inside : r.phase.inParts = true)
    (f : Reader → Bytes → Turn) (inner : ∀ own, (f r own).Keeps (fun _ => True) (StaysIn r)) :
    (inBody r f bytes).Sound := by
  have recounted : ∀ next (rest : Bytes), StaysIn r next →
      Sound { next with seen := r.seen + ((within r.remaining bytes).length - rest.length) } := by
    intro next rest stays
    rcases stays.phase with parts | done
    · refine ⟨stays.framing ▸ sound.framing, fun early => ?_, stays.size, fun here => ?_,
        fun _ => ⟨?_, fun length declared => ?_⟩⟩
      · rw [Phase.afterHeader_inParts parts] at early
        cases early
      · dsimp only at here
        rw [here] at parts
        cases parts
      · exact (congrArg Framing.format stays.framing).trans (sound.parts inside).1
      · exact counted_within bytes sound inside rest length (stays.framing ▸ declared)
    · refine .plain (stays.framing ▸ sound.framing) stays.size ?_ ?_ ?_ <;> dsimp only [Past] <;>
        rw [done]
      · rfl
      · nofun
      · rfl
  have kept := inner (within r.remaining bytes)
  rw [inBody_eq]
  cases ran : f r (within r.remaining bytes) with
  | onward told next rest =>
    rw [ran] at kept
    exact ⟨fun _ _ => trivial, recounted next rest kept.2⟩
  | fault told e => exact fun _ _ => trivial
  | pause told next rest =>
    rw [ran] at kept
    unfold Turn.enclose
    dsimp only
    split
    · exact fun _ _ => trivial
    · exact ⟨fun _ _ => trivial, recounted next rest kept.2⟩

end Parts

theorem turn_sound (r : Reader) (bytes : Bytes) (sound : Sound r) : (turn r bytes).Sound := by
  cases phase : r.phase with
  | start => simpa only [turn, phase] using startTurn_sound bytes sound phase
  | startLine => simpa only [turn, phase] using startLineTurn_sound bytes sound phase
  | header size => simpa only [turn, phase] using headerTurn_sound bytes sound size phase
  | body => simpa only [turn, phase] using bodyTurn_sound bytes sound phase
  | chunkLine => simpa only [turn, phase] using chunkLineTurn_sound bytes sound
  | chunkData missing => simpa only [turn, phase] using chunkDataTurn_sound bytes sound missing
  | trailer size => simpa only [turn, phase] using trailerTurn_sound bytes sound size
  | preamble =>
    have inside : r.phase.inParts = true := by rw [phase]; rfl
    simpa only [turn, phase] using inBody_sound bytes sound inside _ fun own =>
      preambleTurn_staysIn own sound inside
  | partHeader size =>
    have inside : r.phase.inParts = true := by rw [phase]; rfl
    simpa only [turn, phase] using inBody_sound bytes sound inside _ fun own =>
      partHeaderTurn_staysIn own sound inside size
  | partData =>
    have inside : r.phase.inParts = true := by rw [phase]; rfl
    simpa only [turn, phase] using inBody_sound bytes sound inside _ fun own =>
      partDataTurn_staysIn own sound inside
  | partEnd =>
    have inside : r.phase.inParts = true := by rw [phase]; rfl
    simpa only [turn, phase] using inBody_sound bytes sound inside _ fun own =>
      partEndTurn_staysIn own sound inside
  | epilogue opened =>
    have inside : r.phase.inParts = true := by rw [phase]; rfl
    simpa only [turn, phase] using inBody_sound bytes sound inside _ fun own =>
      epilogueTurn_staysIn own sound inside opened
  | done => simpa only [turn, phase] using pause_sound sound bytes

theorem fresh_sound (skip : Bool) : Sound { skipStartLine := skip } :=
  .early ⟨nofun, nofun, nofun⟩ (Nat.zero_le _) rfl rfl

theorem Sound.counting (sound : Sound r) (n : Nat) : Sound (r.counting n) :=
  ⟨sound.framing, sound.unread, sound.size, sound.body, sound.parts⟩

theorem Sound.ended (sound : Sound r) : Sound { r with phase := .done } :=
  .plain sound.framing (Nat.zero_le _) rfl nofun rfl

theorem reached_sound (r : Reader) (reached : Reached r) : Sound r :=
  reached_keeps fresh_sound turn_sound (fun _ n sound => sound.counting n)
    (fun _ sound => sound.ended) r reached

end Reader
end HttpWire
