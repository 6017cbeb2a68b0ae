import HttpWire.Proofs.Rounds

-- No line or section that is too long is ever passed, and what is left for the next call is short.
namespace HttpWire

theorem opening_undecided_length {mark bytes : Bytes} (begun : opening mark bytes = .undecided) :
    bytes.length < mark.length := by
  obtain ⟨short, unlike⟩ := opening_undecided mark bytes begun
  refine Nat.lt_of_le_of_ne short.length_le fun same => unlike ?_
  rw [short.eq_of_length same]

theorem takeLine_unfinished {room : Nat} {bytes : Bytes} (taken : takeLine room bytes = .unfinished) :
    bytes.length < room := by
  unfold takeLine at taken
  split at taken
  · split at taken <;> cases taken
  · split at taken
    · rename_i fits
      unfold openLength at fits
      split at fits <;> omega
    · cases taken

theorem heldLength_lt (mark bytes : Bytes) (real : mark ≠ []) : heldLength mark bytes < mark.length := by
  induction bytes with
  | nil => exact List.length_pos_of_ne_nil real
  | cons b rest ih =>
    unfold heldLength
    split
    · rename_i begins
      rw [Bool.and_eq_true, bne_iff_ne, List.isPrefixOf_iff_prefix] at begins
      refine Nat.lt_of_le_of_ne begins.1.length_le fun same => begins.2 ?_
      exact begins.1.eq_of_length same
    · exact ih

theorem seek_held {mark bytes free held : Bytes} (real : mark ≠ [])
    (sought : seek mark bytes = .missing free held) : held.length < mark.length := by
  have short := heldLength_lt mark bytes real
  unfold seek at sought
  split at sought
  · cases sought
  · cases sought
    rw [List.length_drop]
    omega

namespace Reader

theorem closing_undecided {bytes : Bytes} (begun : closing bytes = .undecided) : bytes.length < 2 := by
  unfold closing at begun
  cases line : opening crlf bytes with
  | present rest => simp [line] at begun
  | undecided => exact opening_undecided_length line
  | absent =>
    cases last : opening dashes bytes with
    | present rest => simp [line, last] at begun
    | undecided => exact opening_undecided_length last
    | absent => simp [line, last] at begun

def Turn.Short (bound : Nat) : Turn → Prop
  | .pause _ _ rest => rest.length < bound
  | _ => True

theorem Turn.Short.mono {t : Turn} {bound greater : Nat} (short : t.Short bound) (le : bound ≤ greater) :
    t.Short greater := by
  cases t with
  | pause => exact Nat.lt_of_lt_of_le short le
  | _ => trivial

section Turns

variable {r : Reader} (bytes : Bytes)

theorem startTurn_short : (startTurn r bytes).Short 2 := by
  unfold startTurn
  split
  · trivial
  · dsimp only
    split
    · rename_i begun
      exact opening_undecided_length begun
    · trivial

theorem startLineTurn_short : (startLineTurn r bytes).Short startLineRoom := by
  unfold startLineTurn
  split
  · trivial
  · rename_i taken
    exact takeLine_unfinished taken
  · split <;> trivial

theorem sectionLine_unfinished {size : Nat} {bytes : Bytes} (read : sectionLine size bytes = .unfinished) :
    bytes.length < sectionRoom := by
  unfold sectionLine at read
  split at read
  · cases read
  · rename_i taken
    exact Nat.lt_of_lt_of_le (takeLine_unfinished taken) (Nat.sub_le _ _)
  · cases read
  · split at read <;> cases read

theorem headerTurn_short (size : Nat) : (headerTurn r size bytes).Short sectionRoom := by
  unfold headerTurn
  split
  · trivial
  · rename_i read
    exact sectionLine_unfinished read
  · split <;> trivial
  · split <;> trivial

theorem trailerTurn_short (size : Nat) : (trailerTurn r size bytes).Short sectionRoom := by
  unfold trailerTurn
  split
  · trivial
  · rename_i read
    exact sectionLine_unfinished read
  · trivial
  · trivial

theorem partHeaderTurn_short (size : Nat) : (partHeaderTurn r size bytes).Short sectionRoom := by
  unfold partHeaderTurn
  split
  · trivial
  · rename_i read
    exact sectionLine_unfinished read
  · trivial
  · trivial

theorem bodyTurn_short : (bodyTurn r bytes).Short 1 := by
  unfold bodyTurn
  dsimp only
  split
  · trivial
  · rename_i left
    have all : within r.remaining bytes = bytes := by
      refine within_open _ _ fun reached => left ?_
      unfold remaining at reached ⊢
      rw [← reached, Option.map_map]
      exact congrArg (Option.map · _) (funext fun n => Nat.sub_add_eq n _ _)
    rw [all]
    simp [Turn.Short]

theorem chunkLineTurn_short : (chunkLineTurn r bytes).Short chunkLineRoom := by
  unfold chunkLineTurn
  split
  · trivial
  · rename_i taken
    exact takeLine_unfinished taken
  · split
    · trivial
    · dsimp only
      split
      · trivial
      · split <;> trivial

theorem chunkDataTurn_short (missing : Nat) : (chunkDataTurn r missing bytes).Short 2 := by
  unfold chunkDataTurn
  dsimp only
  split
  · rename_i short
    simp only [Turn.Short, List.length_drop, List.length_take] at short ⊢
    omega
  · split
    · rename_i begun
      exact opening_undecided_length begun
    · trivial
    · trivial

end Turns

section Parts

variable {r : Reader} (bytes : Bytes)

def markRoom : Nat := 4 + Framing.boundaryLimit

theorem Sound.opener_length (sound : Sound r) (inside : r.phase.inParts = true) :
    r.framing.delimiter ≠ [] ∧ r.framing.opener.length + 2 = r.framing.delimiter.length ∧
      r.framing.delimiter.length ≤ markRoom := by
  obtain ⟨boundary, given, _, short⟩ := sound.boundary inside
  have whole : r.framing.delimiter = crlf ++ (dashes ++ boundary) := by
    rw [Framing.delimiter, Framing.opener, given]
    rfl
  refine ⟨by rw [whole]; exact List.cons_ne_nil _ _, ?_, ?_⟩
  · rw [Framing.delimiter, List.length_append, Nat.add_comm]
    rfl
  · rw [whole]
    simp only [List.length_append, crlf, dashes, List.length_cons, List.length_nil, markRoom]
    omega

theorem afterFirst_short {told : List Event} {front rest : Bytes} :
    (afterFirst r told (front ++ rest) rest).Short (front.length + 2) := by
  unfold afterFirst
  split
  · trivial
  · trivial
  · rename_i begun
    have short := closing_undecided begun
    simp only [Turn.Short, List.length_append]
    omega
  · trivial

theorem preambleTurn_short (sound : Sound r) (inside : r.phase.inParts = true) :
    (preambleTurn r bytes).Short (markRoom + 2) := by
  obtain ⟨real, mark, room⟩ := sound.opener_length inside
  rw [preambleTurn_eq]
  split
  · rename_i rest begun
    unfold beginning at begun
    split at begun
    · rw [opening_present _ _ _ begun]
      exact afterFirst_short.mono (by omega)
    · cases begun
  · rename_i begun
    unfold beginning at begun
    split at begun
    · have short := opening_undecided_length begun
      exact Nat.lt_of_lt_of_le short (by omega)
    · cases begun
  · split
    · rename_i sought
      exact Nat.lt_of_lt_of_le (seek_held real sought) (by omega)
    · exact afterFirst_short.mono (by omega)

theorem partDataTurn_short (sound : Sound r) (inside : r.phase.inParts = true) :
    (partDataTurn r bytes).Short markRoom := by
  obtain ⟨real, _, room⟩ := sound.opener_length inside
  unfold partDataTurn
  split
  · rename_i sought
    exact Nat.lt_of_lt_of_le (seek_held real sought) room
  · trivial

theorem partEndTurn_short : (partEndTurn r bytes).Short 2 := by
  unfold partEndTurn
  split
  · trivial
  · trivial
  · rename_i begun
    exact closing_undecided begun
  · trivial

theorem drain_short (whole data : Bytes) : (drain r whole data).Short 2 := by
  unfold drain
  split
  · exact Nat.zero_lt_two
  · trivial

theorem epilogueTurn_short (opened : Bool) : (epilogueTurn r opened bytes).Short 2 := by
  unfold epilogueTurn
  split
  · exact drain_short _ _
  · split
    · exact drain_short _ _
    · rename_i begun
      split
      · exact opening_undecided_length begun
      · exact drain_short _ _
    · exact drain_short _ _

-- A turn that waits within a body has seen the whole buffer, so nothing is behind what it leaves.
theorem inBody_short (f : Reader → Bytes → Turn) {bound : Nat}
    (patient : lack? r.phase = none → ∀ own told next rest, f r own = .pause told next rest →
      r.expectsMore own = true)
    (inner : ∀ own, (f r own).Short bound) : (inBody r f bytes).Short bound := by
  have short := inner (within r.remaining bytes)
  rw [inBody_eq]
  cases ran : f r (within r.remaining bytes) with
  | onward => trivial
  | fault => trivial
  | pause told next rest =>
    rw [ran] at short
    unfold Turn.enclose
    dsimp only
    split
    · trivial
    · rename_i waits
      have expects : r.expectsMore (within r.remaining bytes) = true := by
        by_contra ended
        rw [if_neg ended] at waits
        exact ended (patient waits _ _ _ _ ran)
      have all := within_open _ _ ((expectsMore_iff _ _).mp expects)
      rw [all, List.drop_length, List.append_nil]
      exact short

theorem inBody_short_lacking (f : Reader → Bytes → Turn) {bound : Nat} {e : Error}
    (lacks : lack? r.phase = some e) (inner : ∀ own, (f r own).Short bound) :
    (inBody r f bytes).Short bound := by
  refine inBody_short bytes f (fun none => ?_) inner
  rw [lacks] at none
  cases none

end Parts

theorem turn_short {r : Reader} (sound : Sound r) (going : r.phase ≠ .done) (bytes : Bytes) :
    (turn r bytes).Short sectionRoom := by
  unfold turn
  cases phase : r.phase with
  | start => exact (startTurn_short bytes).mono (by decide)
  | startLine => exact (startLineTurn_short bytes).mono (by decide)
  | header size => exact headerTurn_short bytes size
  | body => exact (bodyTurn_short bytes).mono (by decide)
  | chunkLine => exact (chunkLineTurn_short bytes).mono (by decide)
  | chunkData missing => exact (chunkDataTurn_short bytes missing).mono (by decide)
  | trailer size => exact trailerTurn_short bytes size
  | preamble =>
    have inside : r.phase.inParts = true := by rw [phase]; rfl
    exact inBody_short_lacking bytes _ (by rw [phase]; rfl) fun own =>
      (preambleTurn_short own sound inside).mono (by decide)
  | partHeader size =>
    exact inBody_short_lacking bytes _ (by rw [phase]; rfl) fun own => partHeaderTurn_short own size
  | partData =>
    have inside : r.phase.inParts = true := by rw [phase]; rfl
    exact inBody_short_lacking bytes _ (by rw [phase]; rfl) fun own =>
      (partDataTurn_short own sound inside).mono (by decide)
  | partEnd =>
    exact inBody_short_lacking bytes _ (by rw [phase]; rfl) fun own =>
      (partEndTurn_short own).mono (by decide)
  | epilogue opened =>
    exact inBody_short bytes _
      (fun _ own told next rest waits => epilogueTurn_waits r next opened own rest told waits)
      fun own => (epilogueTurn_short own opened).mono (by decide)
  | done => exact absurd phase going

section Calls

variable {σ : Type} {handler : Handler σ} {s : σ} {x : Reading} {run : Run σ}

-- A call that leaves a message incomplete has waited, and leaves what the waiting turn left.
theorem loop_short {rounds : Nat} (sound : Sound x.reader) (ran : loop handler rounds s x = some run) :
    ∀ y, run.result = .ok y → y.reader.phase ≠ .done → y.rest.length < sectionRoom := by
  induction rounds generalizing s x run with
  | zero => cases ran
  | succ rounds ih =>
    intro y ended going
    rw [loop] at ran
    have kept := turn_sound x.reader x.rest sound
    have short := fun going => turn_short sound going x.rest
    cases taken : handler.deliver s (turn x.reader x.rest).told with
    | mk t refused =>
      rw [taken] at ran
      cases refused with
      | some e =>
        cases ran
        cases ended
      | none =>
        cases went : turn x.reader x.rest with
        | fault told e =>
          rw [went] at ran
          cases ran
          cases ended
        | pause told next rest =>
          rw [went] at ran short
          obtain rfl := Option.some.inj ran
          obtain rfl := Except.ok.inj ended
          -- The turn that waits has itself left little, unless the message had ended before.
          refine short fun done => going ?_
          simp only [turn, done, Turn.pause.injEq] at went
          rw [← went.2.1, done]
        | onward told next rest =>
          rw [went] at ran kept
          obtain ⟨later, more, rfl⟩ := Option.map_eq_some_iff.mp ran
          exact ih kept.2 more y ended going

theorem serve_short {present : Reading → Bytes → Bytes} {calls : List Call} (sound : Sound x.reader)
    (short : x.reader.phase ≠ .done → x.rest.length < sectionRoom)
    (ran : serve handler present calls s x = some run) :
    ∀ y, run.result = .ok y → y.reader.phase ≠ .done → y.rest.length < sectionRoom := by
  induction calls generalizing s x run with
  | nil =>
    cases ran
    intro y ended
    cases ended
    exact short
  | cons call calls ih =>
    cases call with
    | ended =>
      rw [serve] at ran
      cases finished : x.reader.finish handler s with
      | mk t result =>
        rw [finished] at ran
        cases result with
        | error e => exact ih sound short ran
        | ok next =>
          obtain ⟨sound', done, _⟩ := finish_sound sound finished
          exact ih sound' (fun going => absurd done going) ran
    | input piece =>
      rw [serve] at ran
      obtain ⟨first, call, rest⟩ := Option.bind_eq_some_iff.mp ran
      obtain ⟨_, _, kept⟩ := loop_way (x := ⟨x.reader, present x piece⟩) sound call
      have left := loop_short (x := ⟨x.reader, present x piece⟩) sound call
      cases ended : first.result with
      | error e =>
        simp only [ended, Option.some.injEq] at rest
        subst rest
        exact left
      | ok y =>
        simp only [ended] at rest
        obtain ⟨later, more, rfl⟩ := Option.map_eq_some_iff.mp rest
        have later_short := ih (x := y.counted (present x piece)) ((kept y ended).2.1.counting _)
          (left y ended) more
        exact later_short

end Calls

section Sections

variable {phase last : Phase} {laps : List Lap}

theorem Way.split {first : List Lap} (way : Way phase (first ++ laps) last) :
    ∃ middle, Way phase first middle ∧ Way middle laps last := by
  generalize whole : first ++ laps = all at way
  induction way generalizing first with
  | stay phase =>
    obtain ⟨rfl, rfl⟩ := List.append_eq_nil_iff.mp whole
    exact ⟨phase, .stay _, .stay _⟩
  | lap passage later ih =>
    cases first with
    | nil =>
      rw [List.nil_append] at whole
      exact ⟨_, .stay _, whole ▸ .lap passage later⟩
    | cons lap first =>
      rw [List.cons_append] at whole
      obtain ⟨rfl, others⟩ := List.cons.inj whole
      obtain ⟨middle, before, after⟩ := ih others
      exact ⟨middle, .lap passage before, after⟩
  | wait waits _ ih =>
    obtain ⟨middle, before, after⟩ := ih whole
    exact ⟨middle, .wait waits before, after⟩

theorem Way.infix {all : List Lap} (way : Way phase all last) (inside : laps <:+: all) :
    ∃ before after, Way before laps after := by
  obtain ⟨first, later, rfl⟩ := inside
  obtain ⟨after, way, _⟩ := way.split
  obtain ⟨before, _, way⟩ := way.split
  exact ⟨before, after, way⟩

def Phase.inSection : Phase → Bool
  | .header _ | .partHeader _ | .trailer _ => true
  | _ => false

theorem Wait.inSection {before after : Phase} (waits : Wait before after) :
    Phase.inSection after = Phase.inSection before ∧ after.sectionSize = before.sectionSize := by
  cases waits with
  | same same => rw [same]; exact ⟨rfl, rfl⟩
  | chunkData | epilogue => exact ⟨rfl, rfl⟩

theorem Passage.startLine_fits {before after : Phase} {used : Bytes}
    (passage : Passage before used after) (here : before = .startLine) :
    ∃ line, used = line ++ crlf ∧ ¬ crlf <:+: line ∧ line.length + 2 ≤ startLineRoom := by
  cases passage with
  | startLine free fits => exact ⟨_, rfl, free, fits⟩
  | field s => cases s <;> cases here
  | _ => cases here

theorem Passage.chunkLine_fits {before after : Phase} {used : Bytes}
    (passage : Passage before used after) (here : before = .chunkLine) :
    ∃ line, used = line ++ crlf ∧ ¬ crlf <:+: line ∧ line.length + 2 ≤ chunkLineRoom := by
  cases passage with
  | chunkLine free fits => exact ⟨_, rfl, free, fits⟩
  | field s => cases s <;> cases here
  | _ => cases here

-- A lap in a section takes a line of it, or its empty line, and then the section has ended.
theorem Passage.inSection {before after : Phase} {used : Bytes} (passage : Passage before used after)
    (inside : Phase.inSection before = true) :
    before.sectionSize + used.length ≤ sectionRoom ∧
      (Phase.inSection after = true → after.sectionSize = before.sectionSize + used.length) := by
  have ends : crlf.length = 2 := rfl
  cases passage with
  | field s read fits =>
    rw [List.length_append, ends]
    cases s <;> exact ⟨fits, fun _ => rfl⟩
  | headerEnd format fits => exact ⟨fits, fun within => by cases format <;> cases within⟩
  | partHeaderEnd fits => exact ⟨fits, nofun⟩
  | trailerEnd fits => exact ⟨fits, nofun⟩
  | _ => cases inside

theorem Way.outside (way : Way phase laps last) (outside : Phase.inSection phase = false)
    (inside : ∀ lap ∈ laps, Phase.inSection lap.before = true) : laps = [] := by
  induction way with
  | stay => rfl
  | lap =>
    have within := inside _ List.mem_cons_self
    rw [outside] at within
    cases within
  | wait waits _ ih => exact ih (waits.inSection.1.trans outside) inside

theorem Way.section_fits (way : Way phase laps last)
    (inside : ∀ lap ∈ laps, Phase.inSection lap.before = true) :
    laps = [] ∨ phase.sectionSize + (spent laps).length ≤ sectionRoom := by
  induction way with
  | stay => exact .inl rfl
  | @lap before after _ used laps passage later ih =>
    obtain ⟨fits, grown⟩ := passage.inSection (inside _ List.mem_cons_self)
    have others := fun lap member => inside lap (List.mem_cons_of_mem _ member)
    refine .inr ?_
    rw [spent_cons, List.length_append]
    cases within : Phase.inSection after with
    | false =>
      rw [later.outside within others]
      exact fits
    | true =>
      rcases ih others with rfl | fits'
      · exact fits
      · rw [grown within] at fits'
        dsimp only
        omega
  | wait waits _ ih =>
    have same := waits.inSection.2
    rw [same] at ih
    exact ih inside

end Sections

-- Lines and sections are measured as they are passed, CRLFs and empty lines counted.
theorem pending_input_bounded {σ : Type} (skip : Bool) (handler : Handler σ) (s : σ)
    (present : Reading → Bytes → Bytes) (calls : List Call) :
    let fresh : Reading := { reader := { skipStartLine := skip } }
    ∃ run, serve handler present calls s fresh = some run ∧
      (run.state, run.result) = supply handler present calls s fresh ∧
      (∀ x, run.result = .ok x → x.progress ≠ .complete → x.rest.length < 8192) ∧
      (∀ lap ∈ run.laps, lap.before = .startLine →
        ∃ line, lap.used = line ++ crlf ∧ ¬ crlf <:+: line ∧ line.length ≤ 6144) ∧
      (∀ lap ∈ run.laps, lap.before = .chunkLine →
        ∃ line, lap.used = line ++ crlf ∧ ¬ crlf <:+: line ∧ line.length ≤ 1024) ∧
      ∀ laps, laps <:+: run.laps → (∀ lap ∈ laps, Phase.inSection lap.before = true) →
        (spent laps).length ≤ 8192 := by
  intro fresh
  obtain ⟨run, ran, same⟩ := serve_supply handler present calls s fresh
  obtain ⟨last, way, _⟩ := serve_way (x := fresh) (fresh_sound skip) ran
  have short := serve_short (x := fresh) (fresh_sound skip) (fun _ => show 0 < sectionRoom by decide) ran
  refine ⟨run, ran, same, fun x ended incomplete => ?_, fun lap member here => ?_,
    fun lap member here => ?_, fun laps among inside => ?_⟩
  · exact short x ended fun done => incomplete ((progress_complete x.reader).mpr done)
  · obtain ⟨line, whole, free, fits⟩ := (way.passage lap member).startLine_fits here
    exact ⟨line, whole, free, Nat.le_of_add_le_add_right fits⟩
  · obtain ⟨line, whole, free, fits⟩ := (way.passage lap member).chunkLine_fits here
    exact ⟨line, whole, free, Nat.le_of_add_le_add_right fits⟩
  · obtain ⟨before, after, way⟩ := way.infix among
    rcases way.section_fits inside with rfl | fits
    · exact Nat.zero_le _
    · exact Nat.le_trans (Nat.le_add_left _ _) fits

end Reader
end HttpWire
