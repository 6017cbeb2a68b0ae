import HttpWire.Proofs.Assembling
import HttpWire.Proofs.Ledger.Decoding
import HttpWire.Proofs.MessageLines

-- Of several things to refuse the first in the order in which a reader comes to them is reported.
namespace HttpWire

namespace Handler

variable {σ : Type} {handler strict lenient : Handler σ} {s t : σ}

theorem deliver_restricts
    (restricts : ∀ s event, strict s event = lenient s event ∨ ∃ e, (strict s event).2 = some e)
    (s : σ) (events : List Event) :
    strict.deliver s events = lenient.deliver s events ∨ ∃ e, (strict.deliver s events).2 = some e := by
  induction events generalizing s with
  | nil => exact .inl rfl
  | cons event events ih =>
    rw [deliver, deliver]
    rcases restricts s event with same | ⟨e, refused⟩
    · rw [same]
      cases told : lenient s event with
      | mk u refused =>
        cases refused with
        | none => exact ih u
        | some e => exact .inl rfl
    · right
      cases told : strict s event with
      | mk u result =>
        rw [told] at refused
        cases refused
        exact ⟨e, rfl⟩

theorem deliver_shows {shown : σ → Prop} {tells : Event → Prop}
    (step : ∀ s event t, handler s event = (t, none) → (shown t ↔ shown s ∨ tells event))
    (events : List Event) (told : handler.deliver s events = (t, none)) :
    shown t ↔ shown s ∨ ∃ event ∈ events, tells event := by
  induction events generalizing s with
  | nil =>
    cases told
    simp
  | cons event events ih =>
    obtain ⟨u, first, rest⟩ := handler.deliver_cons_ok.mp told
    rw [ih rest, step s event u first]
    simp [or_assoc]

end Handler

namespace Event

def isExtension : Event → Bool
  | .extension _ _ => true
  | _ => false

def isTrailing : Event → Bool
  | .element .trailer _ => true
  | _ => false

def Ordered (events : List Event) : Prop :=
  events.Pairwise fun before behind => before.isTrailing = true → behind.isExtension = false

end Event

namespace Policy

def lenient (policy : Policy) : Policy := { keepBody := policy.keepBody }

def objection (policy : Policy) (events : List Event) : Option Error :=
  if policy.refuseExtensions && events.any Event.isExtension then some .chunkExtensionNotAllowed
  else if policy.refuseTrailers && events.any Event.isTrailing then some .trailerNotAllowed
  else none

theorem objection_cons (policy : Policy) (event : Event) (events : List Event)
    (ordered : Event.Ordered (event :: events)) :
    policy.objection (event :: events) = (policy.objection [event]).or (policy.objection events) := by
  have later : event.isTrailing = true → events.any Event.isExtension = false := by
    intro trailing
    rw [List.any_eq_false]
    intro behind member
    rw [(List.pairwise_cons.mp ordered).1 behind member trailing]
    exact Bool.false_ne_true
  have apart : event.isExtension = true → event.isTrailing = false := by
    cases event with
    | extension => exact fun _ => rfl
    | _ => exact nofun
  unfold objection
  simp only [List.any_cons, List.any_nil, Bool.or_false]
  by_cases extension : event.isExtension = true
  · by_cases refused : policy.refuseExtensions = true <;> simp [extension, apart extension, refused]
  · rw [Bool.not_eq_true] at extension
    by_cases trailing : event.isTrailing = true
    · by_cases refused : policy.refuseTrailers = true <;> simp [extension, trailing, later trailing, refused]
    · rw [Bool.not_eq_true] at trailing
      simp [extension, trailing]

-- What was decoded of the message may have got a length that was not in its header.
def verdict (policy : Policy) (format : BodyFormat) (raw m : Message) : Option Error :=
  if policy.requireLength = true ∧ format ≠ .chunked ∧ raw.headers.has "content-length" = false then
    some .lengthRequired
  else if policy.refuseExtensions = true ∧ ∃ c ∈ m.chunks, c.extensions ≠ .empty then
    some .chunkExtensionNotAllowed
  else if policy.refuseTrailers = true ∧ m.trailers ≠ .empty then some .trailerNotAllowed
  else none

end Policy

namespace Message

variable {policy : Policy} {m m' : Message}

section Refusing

theorem collect_objects (policy : Policy) (m : Message) (event : Event)
    (inside : Reader.NotHeaderDone event) :
    collect policy m event = match policy.objection [event] with
      | some e => (m, some e)
      | none => collect policy.lenient m event := by
  have extension := Bool.eq_false_or_eq_true policy.refuseExtensions
  have trailer := Bool.eq_false_or_eq_true policy.refuseTrailers
  cases event with
  | headerDone format => exact absurd rfl (inside format)
  | extension index e =>
    rcases extension with refused | allowed
    · simp [collect, Policy.objection, Event.isExtension, refused]
    · simp [collect, Policy.objection, Policy.lenient, Event.isExtension, Event.isTrailing, allowed]
  | element s f =>
    cases s with
    | trailer =>
      rcases trailer with refused | allowed
      · simp [collect, Policy.objection, Event.isExtension, Event.isTrailing, refused]
      · simp [collect, Policy.objection, Policy.lenient, Event.isExtension, Event.isTrailing, allowed]
    | header | part => simp [collect, Policy.objection, Event.isExtension, Event.isTrailing]
  | data place => cases place <;> simp [collect, Policy.objection, Event.isExtension, Event.isTrailing]
  | dataDone place =>
    cases place <;> simp [collect, Policy.objection, Event.isExtension, Event.isTrailing]
  | _ => simp [collect, Policy.objection, Event.isExtension, Event.isTrailing]

def unmeasured (m : Message) (format : BodyFormat) : Bool :=
  !(format == .chunked || m.headers.has "content-length")

theorem endHeaders_objects (format : BodyFormat) (whole : format ≠ .multipart) :
    m.endHeaders policy format = (m.placed,
      if policy.requireLength && m.unmeasured format then some .lengthRequired else none) := by
  unfold endHeaders unmeasured
  rw [if_neg whole, ← m.placed_fields]
  rfl

theorem collect_restricts (policy : Policy) (m : Message) (event : Event) :
    collect policy m event = collect policy.lenient m event ∨ ∃ e, (collect policy m event).2 = some e := by
  by_cases ends : ∃ format, event = .headerDone format
  · obtain ⟨format, rfl⟩ := ends
    by_cases parts : format = .multipart
    · left
      simp [collect, endHeaders, parts]
    · simp only [collect, endHeaders_objects format parts]
      cases policy.requireLength && m.unmeasured format with
      | true => exact .inr ⟨_, rfl⟩
      | false => exact .inl rfl
  · rw [collect_objects policy m event fun format same => ends ⟨format, same⟩]
    cases policy.objection [event] with
    | some e => exact .inr ⟨e, rfl⟩
    | none => exact .inl rfl

theorem deliver_objects (events : List Event) (inside : ∀ event ∈ events, Reader.NotHeaderDone event)
    (ordered : Event.Ordered events)
    (told : (collect policy.lenient).deliver m events = (m', none)) :
    ∃ u, (collect policy).deliver m events = (u, policy.objection events) ∧
      (policy.objection events = none → u = m') := by
  induction events generalizing m with
  | nil =>
    cases told
    exact ⟨_, by simp [Handler.deliver, Policy.objection], fun _ => rfl⟩
  | cons event events ih =>
    obtain ⟨next, first, rest⟩ := (collect policy.lenient).deliver_cons_ok.mp told
    have step := collect_objects policy m event (inside event (List.mem_cons_self ..))
    rw [policy.objection_cons event events ordered, Handler.deliver, step]
    cases policy.objection [event] with
    | some e => exact ⟨m, rfl, fun allowed => absurd allowed (Option.some_ne_none e)⟩
    | none =>
      rw [first]
      exact ih (fun behind member => inside behind (List.mem_cons_of_mem _ member))
        (List.pairwise_cons.mp ordered).2 rest

end Refusing

section Showing

def Extended (m : Message) : Prop := ∃ c ∈ m.chunks, c.extensions ≠ .empty

def Trailed (m : Message) : Prop := m.trailers ≠ .empty

theorem changeChunk_each (index : Nat) (change : Chunk → Chunk) {d : Chunk} (member : d ∈ m.chunks) :
    ∃ c ∈ (m.changeChunk index change).chunks, c = d ∨ c = change d := by
  obtain ⟨i, here⟩ := List.mem_iff_getElem?.mp member
  have before : (m.chunks ++ List.replicate (index + 1 - m.chunks.length) .empty)[i]? = some d := by
    rw [List.getElem?_append_left (List.getElem?_eq_some_iff.mp here).1, here]
  refine ⟨if index = i then change d else d, List.mem_iff_getElem?.mpr ⟨i, ?_⟩, ?_⟩
  · unfold changeChunk
    rw [List.getElem?_modify, before]
    split <;> rfl
  · split
    · exact .inr rfl
    · exact .inl rfl

theorem changeChunk_touched (m : Message) (index : Nat) (change : Chunk → Chunk) :
    ∃ d, change d ∈ (m.changeChunk index change).chunks := by
  have long : index < (m.chunks ++ List.replicate (index + 1 - m.chunks.length) Chunk.empty).length := by
    rw [List.length_append, List.length_replicate]
    omega
  obtain ⟨d, here⟩ :
      ∃ d, (m.chunks ++ List.replicate (index + 1 - m.chunks.length) Chunk.empty)[index]? = some d :=
    ⟨_, List.getElem?_eq_getElem long⟩
  refine ⟨d, List.mem_iff_getElem?.mpr ⟨index, ?_⟩⟩
  unfold changeChunk
  rw [List.getElem?_modify, here]
  exact congrArg some (if_pos rfl)

theorem extended_change {index : Nat} {change : Chunk → Chunk}
    (keeps : ∀ c, (change c).extensions = c.extensions) :
    (m.changeChunk index change).Extended ↔ m.Extended := by
  constructor
  · rintro ⟨c, member, filled⟩
    obtain ⟨d, old, same⟩ := changeChunk_mem member
    have before : d.extensions ≠ .empty := by
      rcases same with rfl | rfl
      · exact filled
      · rwa [keeps] at filled
    rcases old with present | rfl
    · exact ⟨d, present, before⟩
    · exact absurd rfl before
  · rintro ⟨d, member, filled⟩
    obtain ⟨c, present, same⟩ := changeChunk_each index change member
    refine ⟨c, present, ?_⟩
    rcases same with rfl | rfl
    · exact filled
    · rwa [keeps]

theorem insert_filled (headers : FieldMap) (name value : Text) : headers.insert name value ≠ .empty := by
  intro empty
  have values := headers.values_insert name value name
  rw [empty, if_pos (Text.sameName_refl name)] at values
  exact List.append_ne_nil_of_right_ne_nil _ (List.cons_ne_nil _ _) values.symm

theorem extended_add (index : Nat) (name value : Text) :
    (m.changeChunk index (·.addExtension name value)).Extended := by
  obtain ⟨d, member⟩ := m.changeChunk_touched index (·.addExtension name value)
  exact ⟨_, member, insert_filled d.extensions name value⟩

theorem collect_unextended (policy : Policy) (m : Message) (event : Event)
    (plain : event.isExtension = false) : (collect policy m event).1.Extended ↔ m.Extended := by
  cases event with
  | start line =>
    obtain ⟨_, _, _, _, _, _, _, _, same⟩ := m.takeStart_eq line
    rw [show collect policy m (.start line) = m.takeStart line from rfl, same]
    exact Iff.rfl
  | headerDone format =>
    obtain ⟨_, _, _, same⟩ := m.endHeaders_eq policy format
    rw [show collect policy m (.headerDone format) = m.endHeaders policy format from rfl, same]
    exact Iff.rfl
  | element s f =>
    cases s with
    | header =>
      obtain ⟨_, _, same⟩ := m.addHeader_eq f.name f.value
      simp only [collect]
      split
      · exact Iff.rfl
      · rw [same]
        exact Iff.rfl
    | part index => exact Iff.rfl
    | trailer =>
      simp only [collect]
      split <;> exact Iff.rfl
  -- Only this event records an extension.
  | extension => cases plain
  | extensionsDone index => exact extended_change fun _ => rfl
  | data place bytes =>
    cases place with
    | chunk index => exact extended_change (m := m.append bytes) fun _ => rfl
    | body | preamble | part | epilogue => exact Iff.rfl
  | dataDone place =>
    cases place with
    | chunk index => exact extended_change fun _ => rfl
    | body | preamble | part | epilogue => exact Iff.rfl
  | field | partHeaderDone | trailerDone | chunksDone | partsDone => exact Iff.rfl

theorem collect_untrailed (policy : Policy) (m : Message) (event : Event)
    (quiet : event.isTrailing = false) : (collect policy m event).1.Trailed ↔ m.Trailed := by
  unfold Trailed
  rw [collect_trailers policy m event fun f same => by rw [same] at quiet; cases quiet]

theorem collect_shows (event : Event) (taken : collect policy m event = (m', none)) :
    (m'.Extended ↔ m.Extended ∨ event.isExtension = true) ∧
      (m'.Trailed ↔ m.Trailed ∨ event.isTrailing = true) := by
  have extended := collect_unextended policy m event
  have trailed := collect_untrailed policy m event
  rw [taken] at extended trailed
  cases event with
  | extension index e =>
    refine ⟨⟨fun _ => .inr rfl, fun _ => ?_⟩, by simp [trailed rfl, Event.isTrailing]⟩
    simp only [collect] at taken
    split at taken
    · cases taken
    · cases taken
      exact extended_add ..
  | element s f =>
    cases s with
    | trailer =>
      refine ⟨by simp [extended rfl, Event.isExtension], ⟨fun _ => .inr rfl, fun _ => ?_⟩⟩
      simp only [collect] at taken
      split at taken
      · cases taken
      · cases taken
        exact insert_filled _ _ _
    | header | part => simp [extended rfl, trailed rfl, Event.isExtension, Event.isTrailing]
  | _ => simp [extended rfl, trailed rfl, Event.isExtension, Event.isTrailing]

theorem deliver_shown (events : List Event) (told : (collect policy).deliver m events = (m', none)) :
    (m'.Extended ↔ m.Extended ∨ events.any Event.isExtension = true) ∧
      (m'.Trailed ↔ m.Trailed ∨ events.any Event.isTrailing = true) := by
  rw [List.any_eq_true, List.any_eq_true]
  exact ⟨Handler.deliver_shows (fun _ event _ taken => (collect_shows event taken).1) events told,
    Handler.deliver_shows (fun _ event _ taken => (collect_shows event taken).2) events told⟩

end Showing

end Message

namespace Reader

section Order

def unparted : Phase → Bool
  | .body | .chunkLine | .chunkData _ | .trailer _ | .done => true
  | _ => false

def trailing : Phase → Bool
  | .trailer _ | .done => true
  | _ => false

variable (r : Reader) (bytes : Bytes)

theorem ofData_plain (place : Place) (data : Bytes) :
    ∀ e ∈ Event.ofData place data, e.isTrailing = false := by
  intro e member
  unfold Event.ofData at member
  split at member
  · cases member
  · rw [List.mem_singleton.mp member]
    rfl

theorem trailing_keeps (late : trailing r.phase = true) :
    (turn r bytes).Keeps (fun e => e.isExtension = false) fun next => trailing next.phase = true := by
  cases phase : r.phase with
  | trailer size =>
    simp only [turn, phase, trailerTurn]
    split
    · exact List.forall_mem_nil _
    · exact ⟨List.forall_mem_nil _, late⟩
    · exact ⟨by simp [Event.isExtension], rfl⟩
    · exact ⟨by simp [Event.ofField, Event.isExtension], rfl⟩
  | done =>
    simp only [turn, phase]
    exact ⟨List.forall_mem_nil _, late⟩
  | _ =>
    rw [phase] at late
    cases late

theorem data_end_plain (place : Place) (data : Bytes) (last : Event) (plain : last.isTrailing = false) :
    ∀ e ∈ Event.ofData place data ++ [last], e.isTrailing = false := by
  intro e member
  rcases List.mem_append.mp member with early | ended
  · exact ofData_plain place data e early
  · rw [List.mem_singleton.mp ended]
    exact plain

section Turns

variable (whole : unparted r.phase = true)
include whole

theorem bodyTurn_unparted : (bodyTurn r bytes).Keeps (fun e => e.isTrailing = false)
    fun next => unparted next.phase = true := by
  unfold bodyTurn
  dsimp only
  split
  · exact ⟨data_end_plain _ _ _ rfl, rfl⟩
  · exact ⟨ofData_plain _ _, whole⟩

theorem chunkLineTurn_unparted : (chunkLineTurn r bytes).Keeps (fun e => e.isTrailing = false)
    fun next => unparted next.phase = true := by
  unfold chunkLineTurn
  split
  · exact List.forall_mem_nil _
  · exact ⟨List.forall_mem_nil _, whole⟩
  · split
    · exact List.forall_mem_nil _
    · dsimp only
      split
      · simp [Turn.Keeps, Event.isTrailing]
      · split
        · simp [Turn.Keeps, Event.isTrailing, or_imp, forall_and, unparted]
        · simp [Turn.Keeps, Event.isTrailing, or_imp, forall_and, unparted]

theorem trailerTurn_unparted (size : Nat) : (trailerTurn r size bytes).Keeps (fun _ => True)
    fun next => unparted next.phase = true := by
  unfold trailerTurn
  split
  · exact fun _ _ => trivial
  · exact ⟨fun _ _ => trivial, whole⟩
  · exact ⟨fun _ _ => trivial, rfl⟩
  · exact ⟨fun _ _ => trivial, rfl⟩

end Turns

theorem chunkDataTurn_unparted (missing : Nat) :
    (chunkDataTurn r missing bytes).Keeps (fun e => e.isTrailing = false)
      fun next => unparted next.phase = true := by
  unfold chunkDataTurn
  dsimp only
  split
  · exact ⟨ofData_plain _ _, rfl⟩
  · split
    · exact ⟨ofData_plain _ _, rfl⟩
    · exact ofData_plain _ _
    · exact ⟨data_end_plain _ _ _ rfl, rfl⟩

theorem unparted_keeps (whole : unparted r.phase = true) :
    (turn r bytes).Keeps (fun e => trailing r.phase = false → e.isTrailing = false)
      fun next => unparted next.phase = true := by
  cases phase : r.phase with
  | body =>
    simpa [turn, phase, trailing] using bodyTurn_unparted r bytes whole
  | chunkLine =>
    simpa [turn, phase, trailing] using chunkLineTurn_unparted r bytes whole
  | chunkData missing =>
    simpa [turn, phase, trailing] using chunkDataTurn_unparted r bytes missing
  | trailer size =>
    simpa [turn, phase, trailing] using trailerTurn_unparted r bytes whole size
  | done =>
    simp only [turn, phase]
    exact ⟨List.forall_mem_nil _, whole⟩
  | _ =>
    rw [phase] at whole
    cases whole

theorem ordered_quiet {events : List Event} (quiet : ∀ e ∈ events, e.isTrailing = false) :
    Event.Ordered events := by
  refine List.pairwise_of_forall_mem_list fun before member behind _ trails => ?_
  rw [quiet before member] at trails
  cases trails

theorem ordered_plain {events : List Event} (plain : ∀ e ∈ events, e.isExtension = false) :
    Event.Ordered events :=
  List.pairwise_of_forall_mem_list fun _ _ behind member _ => plain behind member

theorem trailing_plain (late : trailing r.phase = true) :
    ∀ e ∈ (scan r bytes).events, e.isExtension = false :=
  (scan_keeps trailing_keeps r bytes late).1

-- There are no elements of the trailer before its first turn, and no extensions from there on.
theorem scan_ordered (r : Reader) (bytes : Bytes) (whole : unparted r.phase = true) :
    Event.Ordered (scan r bytes).events := by
  by_cases late : trailing r.phase = true
  · exact ordered_plain (trailing_plain r bytes late)
  · rw [Bool.not_eq_true] at late
    have step := unparted_keeps r bytes whole
    fun_induction scan r bytes with
    | case1 r bytes told next rest ran later ih =>
      rw [ran] at step
      have quiet : ∀ e ∈ told, e.isTrailing = false := fun e member => step.1 e member late
      have behind : Event.Ordered later.events := by
        by_cases late : trailing next.phase = true
        · exact ordered_plain (trailing_plain next rest late)
        · exact ih step.2 (Bool.not_eq_true _ ▸ late) (unparted_keeps next rest step.2)
      refine List.pairwise_append.mpr ⟨ordered_quiet quiet, behind, fun before member _ _ trails => ?_⟩
      rw [quiet before member] at trails
      cases trails
    | case2 r bytes told next rest ran =>
      rw [ran] at step
      exact ordered_quiet fun e member => step.1 e member late
    | case3 r bytes told e ran =>
      rw [ran] at step
      exact ordered_quiet fun e member => step e member late

end Order

end Reader

namespace Message

section Runs

variable (policy : Policy) (bytes : Bytes)

def concluded (keep : Bool) (bytes : Bytes) (m : Message) : Except Error (Message × Nat) :=
  match (Reader.scan {} bytes).result with
  | .error e => .error e
  | .ok x =>
    if x.progress = .incomplete then .error .moreData
    else if keep then .ok (m, x.used bytes)
    else m.decodeBody.map fun m => (m, x.used bytes)

theorem ofBytes_delivered :
    ofBytes policy bytes = match (collect policy).deliver {} (Reader.scan {} bytes).events with
      | (_, some e) => .error e
      | (m, none) => m.concluded policy.keepBody bytes := by
  unfold ofBytes Reader.read concluded
  dsimp only
  cases (collect policy).deliver {} (Reader.scan {} bytes).events with
  | mk m refused =>
    cases refused with
    | some e => rfl
    | none =>
      cases (Reader.scan {} bytes).result with
      | error e => rfl
      | ok x => rfl

theorem concluded_ok {raw m : Message} {n : Nat} {keep : Bool}
    (concluded : raw.concluded keep bytes = .ok (m, n)) :
    ∃ x, (Reader.scan {} bytes).result = .ok x ∧ x.progress ≠ .incomplete ∧
      raw.concluded true bytes = .ok (raw, n) ∧ (m = raw ∨ raw.decodeBody = .ok m) := by
  unfold Message.concluded at concluded ⊢
  cases ended : (Reader.scan {} bytes).result with
  | error e =>
    rw [ended] at concluded
    cases concluded
  | ok x =>
    rw [ended] at concluded
    dsimp only at concluded ⊢
    split at concluded
    · cases concluded
    · rename_i enough
      refine ⟨x, rfl, enough, ?_⟩
      rw [if_neg enough]
      split at concluded
      · cases concluded
        exact ⟨rfl, .inl rfl⟩
      · cases decode : raw.decodeBody with
        | error e =>
          rw [decode] at concluded
          cases concluded
        | ok decoded =>
          rw [decode] at concluded
          cases concluded
          exact ⟨rfl, .inr rfl⟩

theorem decodeBody_apart {raw m : Message} (decoded : raw.decodeBody = .ok m) :
    m.chunks = raw.chunks ∧ m.trailers = raw.trailers := by
  rw [raw.decodeBody_eq] at decoded
  split at decoded
  · cases decoded
  · cases decoded
    unfold decodedBody
    obtain ⟨_, same⟩ := raw.transcode_put (Text.ofLatin1 raw.body)
    split
    · exact ⟨rfl, rfl⟩
    · split
      · rw [same]
        exact ⟨rfl, rfl⟩
      · exact ⟨rfl, rfl⟩

theorem concluded_shown {raw m : Message} {n : Nat} {keep : Bool}
    (concluded : raw.concluded keep bytes = .ok (m, n)) :
    m.chunks = raw.chunks ∧ m.trailers = raw.trailers := by
  obtain ⟨_, _, _, _, same | decoded⟩ := concluded_ok bytes concluded
  · rw [same]
    exact ⟨rfl, rfl⟩
  · exact decodeBody_apart decoded

structure Parted (policy : Policy) (events : List Event) (raw : Message) (start : StartLine)
    (fields : List Field) (format : BodyFormat) (behind : List Event) : Prop where
  whole : events
    = .start start :: (fields.flatMap (Event.ofField .header) ++ .headerDone format :: behind)
  begun : (({} : Message).takeStart start).2 = none
  single : format ≠ .multipart
  follows : ∀ e ∈ behind, Reader.Behind e
  ordered : Event.Ordered behind
  taken : (collect policy.lenient).deliver (headed start fields).placed behind = (raw, none)

theorem parted {raw : Message} {x : Reader.Reading}
    (told : (collect policy.lenient).deliver {} (Reader.scan {} bytes).events = (raw, none))
    (ended : (Reader.scan {} bytes).result = .ok x) (past : x.reader.Past) :
    ∃ start fields format behind,
      Parted policy (Reader.scan {} bytes).events raw start fields format behind := by
  obtain ⟨blank, line, start, lines, fields, noted, settled, rest, found⟩ :=
    Reader.message_found bytes x ended past
  rw [found.scanned] at told ⊢
  obtain ⟨taken, whole, body⟩ := header_told told
  have follows := (Reader.scan_follows _ rest
    (Reader.bodyPhase_past { sender := start.sender } settled)).1
  have unparted : Reader.unparted (Reader.bodyPhase settled.format) = true := by
    cases format : settled.format with
    | multipart => exact absurd format whole
    | empty | raw | chunked => rfl
  exact ⟨start, fields, settled.format, _, rfl, taken, whole, follows,
    Reader.scan_ordered _ rest unparted, body⟩

variable {policy} {events behind : List Event} {raw : Message} {start : StartLine}
  {fields : List Field} {format : BodyFormat}

theorem Parted.verdict (parted : Parted policy events raw start fields format behind)
    (told : (collect policy.lenient).deliver {} events = (raw, none)) :
    policy.verdict format raw raw =
      if policy.requireLength && (headed start fields).unmeasured format then some .lengthRequired
      else policy.objection behind := by
  have measured : (policy.requireLength && (headed start fields).unmeasured format) = true ↔
      policy.requireLength = true ∧ format ≠ .chunked ∧ raw.headers.has "content-length" = false := by
    rw [(deliver_behind behind parted.follows parted.taken).1, placed_fields]
    simp [unmeasured]
  obtain ⟨extended, trailed⟩ := deliver_shown events told
  have extended : raw.Extended ↔ behind.any Event.isExtension = true := by
    rw [extended, parted.whole]
    simp [Extended, Event.ofField, Event.isExtension]
  have trailed : raw.Trailed ↔ behind.any Event.isTrailing = true := by
    rw [trailed, parted.whole]
    simp [Trailed, Event.ofField, Event.isTrailing]
  unfold Policy.verdict Policy.objection
  simp only [measured]
  refine if_congr Iff.rfl rfl (if_congr ?_ rfl (if_congr ?_ rfl rfl))
  · rw [Bool.and_eq_true, ← extended]
    rfl
  · rw [Bool.and_eq_true, ← trailed]
    rfl

theorem Parted.deliver (parted : Parted policy events raw start fields format behind)
    (told : (collect policy.lenient).deliver {} events = (raw, none)) :
    ∃ u, (collect policy).deliver {} events = (u, policy.verdict format raw raw) ∧
      (policy.verdict format raw raw = none → u = raw) := by
  rw [parted.verdict told, parted.whole, Handler.deliver]
  have first : collect policy {} (.start start) = (started start, none) :=
    Prod.ext rfl parted.begun
  have header : (collect policy).deliver (started start) (fields.flatMap (Event.ofField .header))
      = (headed start fields, none) := deliver_fields policy _ fields
  have ending : collect policy (headed start fields) (.headerDone format) = _ :=
    endHeaders_objects format parted.single
  rw [first]
  dsimp only
  rw [Handler.deliver_append, header]
  dsimp only
  rw [Handler.deliver, ending]
  cases policy.requireLength && (headed start fields).unmeasured format with
  | true => exact ⟨_, rfl, fun allowed => absurd allowed (Option.some_ne_none _)⟩
  | false =>
    exact deliver_objects behind (fun event member => (parted.follows event member).notHeaderDone)
      parted.ordered parted.taken

theorem Parted.announced (parted : Parted policy (Reader.scan {} bytes).events raw start fields format behind)
    (other : BodyFormat) : Announced bytes other ↔ other = format := by
  rw [announced_iff, parted.whole]
  exact announced_once parted.follows

end Runs

section Restriction

variable (policy : Policy) (bytes : Bytes)

theorem ofBytes_restricts {e : Error} (failed : ofBytes policy.lenient bytes = .error e) :
    ∃ e', ofBytes policy bytes = .error e' := by
  rw [ofBytes_delivered] at failed ⊢
  rcases Handler.deliver_restricts (collect_restricts policy) {} (Reader.scan {} bytes).events with
    same | ⟨e', refused⟩
  · rw [same]
    exact ⟨e, failed⟩
  · cases told : (collect policy).deliver {} (Reader.scan {} bytes).events with
    | mk u result =>
      rw [told] at refused
      cases refused
      exact ⟨e', rfl⟩

-- A message that is read without policies is read the same with them, unless they are against it,
-- for the first of three reasons.
theorem policies_only_restrict :
    (∀ e, ofBytes policy.lenient bytes = .error e → ∃ e', ofBytes policy bytes = .error e') ∧
    ∀ m n, ofBytes policy.lenient bytes = .ok (m, n) → ∃ format raw,
      (∀ other, Announced bytes other ↔ other = format) ∧
      ofBytes { keepBody := true } bytes = .ok (raw, n) ∧
      ofBytes policy bytes = match policy.verdict format raw m with
        | some e => .error e
        | none => .ok (m, n) := by
  refine ⟨fun e failed => ofBytes_restricts policy bytes failed, fun m n read => ?_⟩
  rw [ofBytes_delivered] at read
  cases told : (collect policy.lenient).deliver {} (Reader.scan {} bytes).events with
  | mk raw refused =>
    rw [told] at read
    cases refused with
    | some e => cases read
    | none =>
      have concluded : raw.concluded policy.keepBody bytes = .ok (m, n) := read
      obtain ⟨x, ended, enough, kept, _⟩ := concluded_ok bytes concluded
      obtain ⟨chunks, trailers⟩ := concluded_shown bytes concluded
      obtain ⟨start, fields, format, behind, parted⟩ :=
        parted policy bytes told ended (Reader.progress_past x.reader enough)
      obtain ⟨u, delivered, taken⟩ := parted.deliver told
      -- Decoding leaves chunks and trailers alone, so the verdict is the same before it.
      have verdict : policy.verdict format raw raw = policy.verdict format raw m := by
        unfold Policy.verdict
        rw [chunks, trailers]
      rw [verdict] at delivered taken
      refine ⟨format, raw, parted.announced bytes, ?_, ?_⟩
      · have same : collect { keepBody := true } = collect policy.lenient := rfl
        rw [ofBytes_delivered, same, told]
        exact kept
      · rw [ofBytes_delivered, delivered]
        cases against : policy.verdict format raw m with
        | some e => rfl
        | none =>
          rw [taken against]
          exact concluded

theorem extension_refused_first :
    let policy : Policy := { refuseExtensions := true, refuseTrailers := true, requireLength := true }
    let input := ascii "HTTP/1.1 200 OK\r\nTransfer-Encoding: chunked\r\n\r\n1;a\r\nx\r\n0\r\nT: v\r\n\r\n"
    (∃ m n, ofBytes policy.lenient input = .ok (m, n) ∧ m.trailers ≠ .empty) ∧
      ofBytes policy input = .error .chunkExtensionNotAllowed := by
  intro policy input
  let m : Message :=
    { kind := .response, version := some .v11, status := 200, reason := some "OK".toList,
      headers := ⟨[("Transfer-Encoding".toList, ["chunked".toList])]⟩, headersComplete := true,
      body := ascii "x", seen := 1, trailers := ⟨[("T".toList, ["v".toList])]⟩,
      chunks :=
        [ { body := ascii "x", seen := 1, declared := some 1, extensions := ⟨[("a".toList, [[]])]⟩ },
          {} ] }
  have read : ofBytes policy.lenient input = .ok (m, input.length) := by decide +kernel
  have chunked : Announced input .chunked := by
    rw [announced_iff]
    decide +kernel
  obtain ⟨format, raw, announced, _, outcome⟩ := (policies_only_restrict policy input).2 m _ read
  obtain rfl := (announced .chunked).mp chunked
  have against : policy.verdict .chunked raw m = some .chunkExtensionNotAllowed := by
    unfold Policy.verdict
    rw [if_neg (fun measured => measured.2.1 rfl), if_pos (by decide)]
  refine ⟨⟨m, _, read, by decide⟩, ?_⟩
  rw [outcome, against]

end Restriction

end Message
end HttpWire
