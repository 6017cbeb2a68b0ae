import HttpWire.Proofs.EventProtocol
import HttpWire.Proofs.HeaderVerdict
import HttpWire.Proofs.Mirroring

-- The reader decides by the last coding of every line, the message by all codings it is told of.
namespace HttpWire

namespace Reader

section Hearing

inductive Opened : List Event → Sender → Prop
  | silent : Opened [] .unknown
  | line (start : StartLine) : Opened [.start start] start.sender

-- First nothing is announced, then fields, and behind the end of the header nothing more of it.
inductive Heard : List Event → Reader → Prop
  | early {r : Reader} (phase : r.phase = .start ∨ r.phase = .startLine)
    (sender : r.sender = .unknown) (framing : r.framing = {}) : Heard [] r
  | fields {lead : List Event} {r : Reader} (size : Nat) (fields : List Field)
    (phase : r.phase = .header size) (opened : Opened lead r.sender)
    (noted : fields.foldlM Framing.note {} = .ok r.framing) :
    Heard (lead ++ fields.flatMap (Event.ofField .header)) r
  | body {lead later : List Event} {r : Reader} {sender : Sender} {fields : List Field}
    {format : BodyFormat} (past : r.Past) (opened : Opened lead sender)
    (decided : Decided sender {} fields format) (behind : ∀ e ∈ later, Behind e) :
    Heard (lead ++ fields.flatMap (Event.ofField .header) ++ .headerDone format :: later) r

def Turn.Tells (told : List Event) : Turn → Prop
  | .onward more next _ => Heard (told ++ more) next
  | .pause more next _ => Heard (told ++ more) next
  | .fault more _ => ∃ r, Heard (told ++ more) r

variable {told : List Event} {r next : Reader} {bytes rest : Bytes}

theorem Heard.waits (heard : Heard told r) : (Turn.pause [] r rest).Tells told := by
  simpa [Turn.Tells] using heard

theorem Heard.fails (heard : Heard told r) (e : Error) : (Turn.fault [] e).Tells told :=
  ⟨r, by simpa using heard⟩

theorem Heard.onward (heard : Heard told r) (past : r.Past) {more : List Event}
    (behind : ∀ e ∈ more, Behind e) (follows : next.Past) : Heard (told ++ more) next := by
  cases heard with
  | early phase =>
    rcases phase with phase | phase <;> simp [Past, phase, afterHeader] at past
  | fields size fields phase => simp [Past, phase, afterHeader] at past
  | body _ opened decided before =>
    rw [List.append_assoc, List.cons_append]
    refine .body follows opened decided fun e member => ?_
    rcases List.mem_append.mp member with now | later
    · exact before e now
    · exact behind e later

theorem Heard.opens (size : Nat) (phase : r.phase = .header size) (opened : Opened told r.sender)
    (framing : r.framing = {}) : Heard told r := by
  have none : ([] : List Field).foldlM Framing.note {} = .ok r.framing := by
    rw [framing]
    rfl
  simpa using Heard.fields size [] phase opened none

theorem startTurn_tells (heard : Heard told r) (phase : r.phase = .start) :
    (startTurn r bytes).Tells told := by
  cases heard with
  | early _ sender framing =>
    unfold startTurn
    split
    · refine .opens 0 rfl ?_ framing
      simpa [sender] using Opened.silent
    · dsimp only
      split
      · exact Heard.waits (.early (.inl phase) sender framing)
      · exact .early (.inr rfl) sender framing
  | fields size fields header => simp [phase] at header
  | body past => simp [Past, phase, afterHeader] at past

theorem startLineTurn_tells (heard : Heard told r) (phase : r.phase = .startLine) :
    (startLineTurn r bytes).Tells told := by
  cases heard with
  | early early sender framing =>
    have still : Heard [] r := .early early sender framing
    unfold startLineTurn
    split
    · exact still.fails _
    · exact still.waits
    · split
      · exact still.fails _
      · rename_i start _
        exact .opens 0 rfl (.line start) framing
  | fields size fields header => simp [phase] at header
  | body past => simp [Past, phase, afterHeader] at past

theorem headerTurn_tells (heard : Heard told r) (size : Nat) (phase : r.phase = .header size) :
    (headerTurn r size bytes).Tells told := by
  cases heard with
  | early early => simp [phase] at early
  | body past => simp [Past, phase, afterHeader] at past
  | @fields lead _ size' fields header opened noted =>
    have still := Heard.fields size' fields header opened noted
    unfold headerTurn
    split
    · exact still.fails _
    · exact still.waits
    · split
      · exact still.fails _
      · rename_i settled ended
        exact .body (bodyPhase_past r settled) opened ⟨_, noted, settled, ended, rfl⟩ (List.forall_mem_nil _)
    · split
      · exact still.fails _
      · rename_i f after _ _ _ framing taken
        have grown : lead ++ fields.flatMap (Event.ofField .header) ++ Event.ofField .header f
            = lead ++ (fields ++ [f]).flatMap (Event.ofField .header) := by
          simp
        simp only [Turn.Tells, grown]
        refine .fields after (fields ++ [f]) rfl opened ?_
        simp [noted, taken, bind, Except.bind, pure, Except.pure]

theorem turn_tells (bytes : Bytes) (heard : Heard told r) : (turn r bytes).Tells told := by
  by_cases past : r.Past
  · have kept := turn_follows r bytes past
    cases ran : turn r bytes with
    | onward more next rest =>
      rw [ran] at kept
      exact heard.onward past kept.1 kept.2.past
    | pause more next rest =>
      rw [ran] at kept
      exact heard.onward past kept.1 kept.2.past
    | fault more e =>
      rw [ran] at kept
      exact ⟨r, heard.onward past kept past⟩
  · cases phase : r.phase with
    | start => simpa only [turn, phase] using startTurn_tells heard phase
    | startLine => simpa only [turn, phase] using startLineTurn_tells heard phase
    | header size => simpa only [turn, phase] using headerTurn_tells heard size phase
    | _ => simp [Past, phase, afterHeader] at past

theorem scan_heard (r : Reader) (bytes : Bytes) (told : List Event) (heard : Heard told r) :
    ∃ last, Heard (told ++ (scan r bytes).events) last ∧
      ∀ x, (scan r bytes).result = .ok x → last = x.reader := by
  fun_induction scan r bytes generalizing told with
  | case1 r bytes more next behind ran later ih =>
    have step := turn_tells bytes heard
    rw [ran] at step
    obtain ⟨last, heard, ended⟩ := ih _ step
    exact ⟨last, by simpa using heard, ended⟩
  | case2 r bytes more next behind ran =>
    have step := turn_tells bytes heard
    rw [ran] at step
    refine ⟨next, step, fun x ended => ?_⟩
    cases ended
    rfl
  | case3 r bytes more e ran =>
    have step := turn_tells bytes heard
    rw [ran] at step
    obtain ⟨last, heard⟩ := step
    exact ⟨last, heard, fun x ended => by cases ended⟩

theorem Heard.counting (heard : Heard told r) (n : Nat) : Heard told (r.counting n) := by
  cases heard with
  | early phase sender framing => exact .early phase sender framing
  | fields size fields phase opened noted => exact .fields size fields phase opened noted
  | body past opened decided behind => exact .body past opened decided behind

theorem feed_heard (pieces : List Bytes) (seen : Array Event) (x : Reading)
    (heard : Heard seen.toList x.reader) :
    ∃ last, Heard (feed Handler.record pieces seen x).1.toList last ∧
      ∀ y, (feed Handler.record pieces seen x).2 = .ok y → last = y.reader := by
  induction pieces generalizing seen x with
  | nil => exact ⟨x.reader, heard, fun y same => congrArg Reading.reader (Except.ok.inj same)⟩
  | cons piece pieces ih =>
    obtain ⟨last, told, ended⟩ := scan_heard x.reader (x.rest ++ piece) _ heard
    rw [feed, push_record]
    cases result : (scan x.reader (x.rest ++ piece)).result with
    | error e => exact ⟨last, by simpa [Except.map] using told, fun y ended => by cases ended⟩
    | ok y =>
      rw [ended y result] at told
      apply ih
      simp only [Array.toList_append]
      exact told.counting (y.reader.consumed + y.used (x.rest ++ piece))

theorem ending?_behind {events : List Event} (ends : r.ending? = some events) :
    r.Past ∧ ∀ e ∈ events, Behind e := by
  unfold ending? at ends
  unfold Past
  split at ends
  · rename_i phase
    cases ends
    exact ⟨by rw [phase]; rfl, List.forall_mem_nil _⟩
  · rename_i phase
    obtain ⟨-, same⟩ := Option.ite_none_right_eq_some.mp ends
    cases same
    exact ⟨by rw [phase]; rfl, List.forall_mem_singleton.mpr trivial⟩
  · rename_i phase
    obtain ⟨-, same⟩ := Option.ite_none_right_eq_some.mp ends
    cases same
    exact ⟨by rw [phase]; rfl, List.forall_mem_singleton.mpr trivial⟩
  · cases ends

theorem finish_heard (seen : Array Event) (heard : Heard seen.toList r) :
    ∃ last, Heard (r.finish Handler.record seen).1.toList last := by
  unfold finish
  cases ends : r.ending? with
  | none => exact ⟨r, heard⟩
  | some events =>
    obtain ⟨past, late⟩ := ending?_behind ends
    refine ⟨r, ?_⟩
    simpa [Handler.deliver_record] using heard.onward past late past

theorem session_heard (skip : Bool) (pieces : List Bytes) (ends : Bool) :
    ∃ last, Heard (session Handler.record pieces ends #[]
      { reader := { skipStartLine := skip } }).1.toList last := by
  have fresh : Heard #[].toList { skipStartLine := skip } := .early (.inl rfl) rfl rfl
  obtain ⟨last, told, ended⟩ :=
    feed_heard pieces #[] { reader := { skipStartLine := skip } } fresh
  unfold session
  rcases fed : feed Handler.record pieces #[] { reader := { skipStartLine := skip } } with
    ⟨events, _ | y⟩
  · exact ⟨last, by simpa [fed] using told⟩
  · rw [fed] at told ended
    obtain rfl := ended y rfl
    cases ends with
    | false => exact ⟨_, told⟩
    | true => exact finish_heard events told

theorem Heard.header {announced : List Event} {last : Reader} (heard : Heard announced last)
    (early : told <+: announced) {format : BodyFormat} (header : .headerDone format ∈ told) :
    ∃ lead later sender fields, told
        = lead ++ fields.flatMap (Event.ofField .header) ++ .headerDone format :: later ∧
      Opened lead sender ∧ Decided sender {} fields format ∧ ∀ e ∈ later, Behind e := by
  have plain : ∀ {lead : List Event} {sender : Sender} (fields : List Field), Opened lead sender →
      .headerDone format ∉ lead ++ fields.flatMap (Event.ofField .header) := by
    intro lead sender fields opened
    cases opened <;> simp [Event.ofField]
  cases heard with
  | early => exact absurd (early.subset header) List.not_mem_nil
  | fields _ fields _ opened => exact absurd (early.subset header) (plain fields opened)
  | @body lead later _ sender fields format' _ opened decided behind =>
    have none := plain fields opened
    rcases List.prefix_or_prefix_of_prefix early (List.prefix_append _ _) with short | long
    · exact absurd (short.subset header) none
    · obtain ⟨rest, rfl⟩ := long
      have inside := (List.mem_append.mp header).resolve_left none
      have more := (List.prefix_append_right_inj _).mp early
      cases rest with
      | nil => cases inside
      | cons e rest =>
        obtain ⟨rfl, short⟩ := List.cons_prefix_cons.mp more
        have quiet : ∀ e ∈ rest, Behind e := fun e member => behind e (short.subset member)
        have same : format = format' := by
          rcases List.mem_cons.mp inside with same | after
          · exact Event.headerDone.inj same
          · exact absurd (quiet _ after) id
        subst same
        exact ⟨lead, rest, sender, fields, rfl, opened, decided, quiet⟩

end Hearing

end Reader

def isChunks (coding : Text) : Bool := (Text.trim coding).beginsWithName "chunked"

section Codings

-- Chunks among the codings of a list, but not as its last one.
def chunksEarly (value : Text) : Bool := (splitAll ',' value).dropLast.any isChunks

theorem isChunks_trim (coding : Text) : isChunks (Text.trim coding) = isChunks coding := by
  simp [isChunks, trim_trim]

theorem codings_split (value : Text) :
    (splitAll ',' value).any isChunks = (chunksEarly value || Framing.endsChunked value) := by
  have filled := splitAll_ne_nil ',' value
  have last : Framing.endsChunked value = isChunks ((splitAll ',' value).getLast filled) := by
    simp [Framing.endsChunked, isChunks, List.getLast?_eq_some_getLast filled]
  conv_lhs => rw [← List.dropLast_append_getLast filled]
  simp [chunksEarly, last]

theorem listElements_chunks (value : Text) :
    (Field.listElements value).any isChunks = (splitAll ',' value).any isChunks := by
  have kept : (((splitAll ',' value).map Text.trim).filter (· ≠ [])).any isChunks
      = (splitAll ',' value).any isChunks := by
    induction splitAll ',' value with
    | nil => rfl
    | cons piece pieces ih =>
      by_cases empty : Text.trim piece = []
      · have plain : isChunks piece = false := by
          rw [← isChunks_trim, empty]
          decide
        simpa [empty, plain] using ih
      · simpa [empty, isChunks_trim] using congrArg (isChunks piece || ·) ih
  unfold Field.listElements
  split
  · rename_i none
    rw [none] at kept
    rw [← kept]
    decide
  · exact kept

end Codings

namespace Message

section Telling

variable {policy : Policy} {m m' : Message}

def codes : Event → Bool
  | .element .header f => f.name.named "transfer-encoding" && isChunks f.value
  | _ => false

theorem isChunked_same (headers : m'.headers = m.headers) : m'.isChunked = m.isChunked := by
  simp [isChunked, headers]

theorem addHeader_isChunked (m : Message) (name value : Text) :
    (m.addHeader name value).isChunked
      = (m.isChunked || (name.named "transfer-encoding" && isChunks value)) := by
  have values := addHeader_values m name value "transfer-encoding".toList (by decide)
  have named : name.named "transfer-encoding" = Text.sameName name "transfer-encoding".toList := rfl
  rw [isChunked, values, List.any_append, ← isChunked, named]
  cases Text.sameName name "transfer-encoding".toList with
  | true => simp [isChunks]
  | false => simp

theorem collect_gathered (policy : Policy) (m : Message) (event : Event)
    (other : ∀ f, event ≠ .element .header f) :
    (collect policy m event).1.headers = m.headers ∧ (collect policy m event).1.cookies = m.cookies := by
  unfold collect
  split
  · rename_i line
    obtain ⟨_, _, _, _, _, _, _, _, same⟩ := m.takeStart_eq line
    rw [same]
    exact ⟨rfl, rfl⟩
  · exact absurd rfl (other _)
  · rename_i format
    obtain ⟨_, _, _, same⟩ := m.endHeaders_eq policy format
    rw [same]
    exact ⟨rfl, rfl⟩
  · exact ⟨rfl, rfl⟩
  · split <;> exact ⟨rfl, rfl⟩
  · exact ⟨rfl, rfl⟩
  · exact ⟨rfl, rfl⟩
  · exact ⟨rfl, rfl⟩
  · split <;> exact ⟨rfl, rfl⟩
  · exact ⟨rfl, rfl⟩

theorem collect_headers (event : Event) (other : ∀ f, event ≠ .element .header f) :
    (collect policy m event).1.headers = m.headers :=
  (collect_gathered policy m event other).1

theorem deliver_behind (events : List Event) (behind : ∀ e ∈ events, Reader.Behind e)
    (told : (collect policy).deliver m events = (m', none)) :
    m'.headers = m.headers ∧ m'.cookies = m.cookies := by
  induction events generalizing m with
  | nil =>
    cases told
    exact ⟨rfl, rfl⟩
  | cons event events ih =>
    obtain ⟨u, first, rest⟩ := (collect policy).deliver_cons_ok.mp told
    have inside := behind event (List.mem_cons_self ..)
    have other : ∀ f, event ≠ .element .header f := by
      rintro f rfl
      exact inside
    have step : u.headers = m.headers ∧ u.cookies = m.cookies := by
      have kept := collect_gathered policy m event other
      rwa [first] at kept
    obtain ⟨headers, cookies⟩ := ih (fun e member => behind e (List.mem_cons_of_mem _ member)) rest
    exact ⟨headers.trans step.1, cookies.trans step.2⟩

theorem collect_isChunked (policy : Policy) (m : Message) (event : Event) :
    (collect policy m event).1.isChunked = (m.isChunked || codes event) := by
  by_cases element : ∃ f, event = .element .header f
  · obtain ⟨f, rfl⟩ := element
    by_cases empty : f.value = []
    · have plain : isChunks [] = false := by decide
      simp [collect, codes, empty, plain]
    · simpa [collect, codes, empty] using m.addHeader_isChunked f.name f.value
  · have other : ∀ f, event ≠ .element .header f := fun f same => element ⟨f, same⟩
    have plain : codes event = false := by
      unfold codes
      split
      · exact absurd rfl (other _)
      · rfl
    rw [plain, Bool.or_false]
    exact isChunked_same (collect_headers event other)

theorem deliver_isChunked (events : List Event)
    (told : (collect policy).deliver m events = (m', none)) :
    m'.isChunked = (m.isChunked || events.any codes) := by
  induction events generalizing m with
  | nil =>
    cases told
    simp
  | cons event events ih =>
    obtain ⟨u, first, rest⟩ := (collect policy).deliver_cons_ok.mp told
    have step := collect_isChunked policy m event
    rw [first] at step
    rw [ih rest, step, List.any_cons, Bool.or_assoc]

theorem codes_behind (later : List Event) (behind : ∀ e ∈ later, Reader.Behind e) :
    later.any codes = false := by
  rw [List.any_eq_false]
  intro e member
  have quiet := behind e member
  cases e with
  | element s f =>
    cases s with
    | header => exact absurd quiet id
    | _ => simp [codes]
  | _ => simp [codes]

theorem codes_field (f : Field) :
    (Event.ofField .header f).any codes = (f.name.named "transfer-encoding" &&
      (chunksEarly f.value || Framing.endsChunked f.value)) := by
  by_cases named : f.name.named "transfer-encoding" = true
  · have list : Field.isWhole f.name = false := by
      rw [Field.isWhole_congr (b := "transfer-encoding".toList) named]
      decide
    rw [← codings_split, ← listElements_chunks, ← Field.elements_list f list]
    simp [Event.ofField, codes, named, Function.comp_def]
  · simp [Event.ofField, codes, named]

theorem codes_fields (fields : List Field) :
    (fields.flatMap (Event.ofField .header)).any codes = true ↔
      Framing.sendsChunks fields = true ∨
        ∃ f ∈ fields, f.name.named "transfer-encoding" = true ∧ chunksEarly f.value = true := by
  have sends : Framing.sendsChunks fields = true ↔
      ∃ f ∈ fields, f.name.named "transfer-encoding" = true ∧ Framing.endsChunked f.value = true := by
    simp [Framing.sendsChunks, Framing.valuesOf]
  rw [List.any_flatMap, List.any_eq_true, sends]
  simp only [codes_field, Bool.and_eq_true, Bool.or_eq_true]
  constructor
  · rintro ⟨f, inside, named, before | last⟩
    · exact .inr ⟨f, inside, named, before⟩
    · exact .inl ⟨f, inside, named, last⟩
  · rintro (⟨f, inside, named, last⟩ | ⟨f, inside, named, before⟩)
    · exact ⟨f, inside, named, .inr last⟩
    · exact ⟨f, inside, named, .inl before⟩

end Telling

end Message

section Agreement

open Reader

variable {told : List Event} {format : BodyFormat} {m : Message}

-- A message takes itself to be sent in chunks if and only if its reader does, or a line has chunks
-- among its codings before the last one. Statuses that rule a body out are left aside.
theorem chunked_messages_agree (policy : Policy) (skip : Bool) (pieces : List Bytes) (ends : Bool)
    (early : told <+: (session Handler.record pieces ends #[]
      { reader := { skipStartLine := skip } }).1.toList)
    (taken : (Message.collect policy).deliver {} told = (m, none))
    (header : .headerDone format ∈ told)
    (allowed : ∀ version status reason, .start (.response version status reason) ∈ told →
      Framing.forbidsBody (.server status) = false) :
    m.isChunked = true ↔ format = .chunked ∨
      ∃ f, .field .header f ∈ told ∧ f.name.named "transfer-encoding" = true ∧
        chunksEarly f.value = true := by
  obtain ⟨last, heard⟩ := session_heard skip pieces ends
  obtain ⟨lead, later, sender, fields, rfl, opened, decided, behind⟩ := heard.header early header
  obtain ⟨-, rfl⟩ := (decided_iff sender fields format).mp decided
  have quiet : lead.any Message.codes = false := by
    cases opened <;> rfl
  have bodied : Framing.forbidsBody sender = false := by
    cases opened with
    | silent => rfl
    | line start =>
      cases start with
      | request => rfl
      | response version status reason => exact allowed version status reason (by simp)
  have coded := Message.deliver_isChunked _ taken
  have fresh : ({} : Message).isChunked = false := by decide
  -- The header fields stand between the start line and the announcement, and nowhere else.
  have among : ∀ f, .field .header f ∈ lead ++ fields.flatMap (Event.ofField .header)
      ++ .headerDone (Framing.formatOf sender fields) :: later ↔ f ∈ fields := by
    intro f
    have none : .field .header f ∉ later := fun inside => behind _ inside
    cases opened <;> simp [Event.ofField, none]
  rw [List.any_append, List.any_append, quiet, fresh, List.any_cons,
    Message.codes_behind later behind] at coded
  have ended : Message.codes (.headerDone (Framing.formatOf sender fields)) = false := rfl
  rw [ended] at coded
  simp only [Bool.false_or, Bool.or_false] at coded
  simp only [among, coded, Framing.formatOf_chunked bodied]
  exact Message.codes_fields fields

theorem chunked_message_agrees :
    let input := [ascii "HTTP/1.1 200 OK\r\nTransfer-Encoding: gzip, Chu", ascii "nked\r\n\r\n"]
    let told := (session Handler.record input false #[] {}).1.toList
    ((Message.collect {}).deliver {} told).1.isChunked = true := by
  intro input told
  have given : told = [.start (.response .v11 200 "OK".toList)]
      ++ Event.ofField .header ⟨"Transfer-Encoding".toList, "gzip, Chunked".toList⟩
      ++ [.headerDone .chunked] := by
    decide +kernel
  have taken : (Message.collect {}).deliver {} told = (((Message.collect {}).deliver {} told).1, none) := by
    decide +kernel
  have allowed : ∀ version status reason, .start (.response version status reason) ∈ told →
      Framing.forbidsBody (.server status) = false := by
    intro version status reason member
    rw [given] at member
    simp [Event.ofField] at member
    obtain ⟨-, rfl, -⟩ := member
    rfl
  have header : .headerDone .chunked ∈ told := by simp [given]
  exact (chunked_messages_agree {} false input false (List.prefix_refl told) taken header allowed).mpr
    (.inl rfl)

theorem chunked_message_disagrees :
    let told := (session Handler.record
      [ascii "HTTP/1.1 200 OK\r\nTransfer-Encoding: chunked, gzip\r\n\r\n"] false #[] {}).1.toList
    .headerDone .raw ∈ told ∧ ((Message.collect {}).deliver {} told).2 = none ∧
      ((Message.collect {}).deliver {} told).1.isChunked = true := by
  decide +kernel

end Agreement

end HttpWire
