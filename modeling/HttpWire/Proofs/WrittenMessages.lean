import HttpWire.Proofs.ChunkedReading
import HttpWire.Proofs.HeaderVerdict
import HttpWire.Proofs.WrittenFields

-- A reader takes all of the bytes of a written message and no others.
namespace HttpWire

namespace Framing

structure Frames (sender : Sender) (fields : List Field) (body : Bytes) : Prop where
  length : ∃ value, lengthsOf fields = [value] ∧ IsLength value ∧ decimalValue value = body.length
  unchunked : sendsChunks fields = false
  bounded : ∀ value ∈ typesOf fields, isMultipart value = true →
    1 ≤ (boundaryOf value).length ∧ (boundaryOf value).length ≤ 70
  whole : sendsParts fields = true → body = []
  allowed : forbidsBody sender = true → body = []

def plainFormat (body : Bytes) : BodyFormat := if body = [] then .empty else .raw

variable {sender : Sender} {fields : List Field} {body : Bytes}

theorem Frames.declared (frames : Frames sender fields body) :
    declaredBy fields = some body.length := by
  obtain ⟨value, only, _, same⟩ := frames.length
  unfold declaredBy
  rw [only, List.head?_cons, Option.map_some, same]

theorem Frames.acceptable (frames : Frames sender fields body) : Acceptable sender fields := by
  obtain ⟨value, only, readable, _⟩ := frames.length
  refine ⟨⟨?_, ?_, .inr frames.unchunked, frames.bounded⟩, fun _ _ => .inr ?_⟩
  · rw [only]
    exact Nat.le_refl 1
  · intro other member
    rw [only] at member
    rw [List.mem_singleton.mp member]
    exact readable
  · rw [frames.declared]
    exact Option.some_ne_none _

theorem Frames.format (frames : Frames sender fields body) :
    formatOf sender fields = plainFormat body := by
  have framed : ∀ unframed, formatElse unframed fields = plainFormat body := by
    intro unframed
    unfold formatElse plainFormat
    rw [frames.unchunked, frames.declared, if_neg Bool.false_ne_true]
    cases body with
    | nil => rfl
    | cons b body =>
      have parts : sendsParts fields = false :=
        Bool.eq_false_iff.mpr fun sent => List.cons_ne_nil b body (frames.whole sent)
      rw [if_neg (List.cons_ne_nil b body)]
      simp only [List.length_cons, parts]
      rfl
  unfold formatOf
  split
  · rename_i forbidden
    rw [frames.allowed forbidden]
    rfl
  · cases sender with
    | unknown => exact framed _
    | client method => exact framed _
    | server status => exact framed _

theorem Frames.settled (frames : Frames sender fields body) :
    ∃ noted settled, fields.foldlM note {} = .ok noted ∧ noted.settle sender = .ok settled ∧
      settled.format = plainFormat body ∧ settled.declared = some body.length := by
  have decided := (Reader.decided_iff sender fields (plainFormat body)).mpr
    ⟨frames.acceptable, frames.format.symm⟩
  obtain ⟨noted, folded, settled, ended, format⟩ := decided
  have agree := fold_decides fields
  rw [folded] at agree
  refine ⟨noted, settled, folded, ended, format, ?_⟩
  rw [(settle_keeps sender ended).1, agree.declared, frames.declared]

end Framing

namespace Reader

section Scanning

theorem header_scan (lines : List Bytes) (fields : List Field) (r : Reader) (size : Nat) (rest : Bytes)
    {noted settled : Framing} (reads : List.Forall₂ FieldLine lines fields)
    (room : size + (sectionBytes lines).length ≤ sectionRoom)
    (folded : fields.foldlM Framing.note r.framing = .ok noted)
    (ended : noted.settle r.sender = .ok settled) :
    scan { r with phase := .header size } (sectionBytes lines ++ rest)
      = (scan { r with framing := settled, phase := bodyPhase settled.format } rest).announce
          (fields.flatMap (Event.ofField .header) ++ [.headerDone settled.format]) := by
  -- Line by line, the framing as noted so far.
  induction lines generalizing r size fields with
  | nil =>
    cases reads
    cases folded
    have closed := sectionLine_end size rest room
    have ran : turn { r with phase := .header size } (sectionBytes [] ++ rest)
        = .onward [.headerDone settled.format]
            { r with framing := settled, phase := bodyPhase settled.format } rest := by
      rw [sectionBytes_nil]
      simp only [turn, headerTurn, closed, ended]
    exact scan_step ran
  | cons line lines ih =>
    cases reads with
    | @cons _ f _ fields read others =>
      simp only [sectionBytes_cons, List.length_append, crlf, List.length_cons, List.length_nil] at room
      have accepted := sectionLine_accepted size line (sectionBytes lines ++ rest) f read (by omega)
      rw [List.foldlM_cons] at folded
      cases first : r.framing.note f with
      | error e =>
        rw [first] at folded
        cases folded
      | ok fr =>
        rw [first] at folded
        have ran : turn { r with phase := .header size } (line ++ (crlf ++ (sectionBytes lines ++ rest)))
            = .onward (Event.ofField .header f)
                { r with framing := fr, phase := .header (size + line.length + 2) }
                (sectionBytes lines ++ rest) := by
          simp only [turn, headerTurn, accepted, first]
        have later := ih fields { r with framing := fr } (size + line.length + 2) others (by omega)
          folded ended
        rw [sectionBytes_cons, List.append_assoc, List.append_assoc, scan_step ran, later,
          announce_announce, List.flatMap_cons, List.append_assoc]

theorem body_ended (r : Reader) (phase : r.phase = .body) (bytes : Bytes) (missing : Nat)
    (left : r.remaining = some missing) (enough : missing ≤ bytes.length) :
    scan r bytes = ⟨Event.ofData .body (bytes.take missing) ++ [.dataDone .body],
      .ok ⟨{ r with phase := .done, seen := r.seen + missing }, bytes.drop missing⟩⟩ := by
  have length : (bytes.take missing).length = missing := List.length_take_of_le enough
  obtain ⟨declared, given, rest⟩ := Option.map_eq_some_iff.mp left
  have nothing : ({ r with seen := r.seen + missing } : Reader).remaining = some 0 := by
    have none_left : declared - (r.seen + missing) = 0 := by omega
    unfold remaining
    rw [given, Option.map_some, none_left]
  have ran : turn r bytes = .onward (Event.ofData .body (bytes.take missing) ++ [.dataDone .body])
      { r with phase := .done, seen := r.seen + missing } (bytes.drop missing) := by
    simp only [turn, phase, bodyTurn, left, within, length]
    rw [phase] at nothing
    rw [if_pos nothing]
  rw [scan_onward _ _ _ _ _ ran, scan_pause _ _ _ _ _ rfl, List.append_nil]

theorem body_open (r : Reader) (phase : r.phase = .body) (bytes : Bytes)
    (short : ∀ missing, r.remaining = some missing → bytes.length < missing) :
    scan r bytes = ⟨Event.ofData .body bytes, .ok ⟨{ r with seen := r.seen + bytes.length }, []⟩⟩ := by
  have all : within r.remaining bytes = bytes := by
    cases left : r.remaining with
    | none => rfl
    | some missing => exact List.take_of_length_le (Nat.le_of_lt (short missing left))
  have more : ({ r with seen := r.seen + bytes.length } : Reader).remaining ≠ some 0 := by
    intro nothing
    obtain ⟨declared, given, rest⟩ := Option.map_eq_some_iff.mp nothing
    have missing : r.remaining = some (declared - r.seen) := by
      unfold remaining
      rw [show r.framing.declared = some declared from given, Option.map_some]
    have least := short _ missing
    dsimp only at rest
    omega
  have ran : turn r bytes
      = .pause (Event.ofData .body bytes) { r with seen := r.seen + bytes.length } [] := by
    simp only [turn, phase, bodyTurn, all, List.drop_length]
    rw [phase] at more
    rw [if_neg more]
  exact scan_pause _ _ _ _ _ ran

theorem body_scan (r : Reader) (phase : r.phase = .body) (unread : r.seen = 0) (body : Bytes)
    (declared : r.framing.declared = some body.length) :
    scan r body = ⟨Event.ofData .body body ++ [.dataDone .body],
      .ok ⟨{ r with phase := .done, seen := body.length }, []⟩⟩ := by
  have left : r.remaining = some body.length := by
    simp only [remaining, declared, Option.map_some, unread, Nat.sub_zero]
  have whole := body_ended r phase body _ left (Nat.le_refl _)
  rwa [List.take_length, List.drop_length, unread, Nat.zero_add] at whole

def bodyEvents (body : Bytes) : List Event :=
  if body = [] then [] else [.data .body body, .dataDone .body]

def plainEvents (start : StartLine) (fields : List Field) (body : Bytes) : List Event :=
  .start start :: (fields.flatMap (Event.ofField .header)
    ++ .headerDone (Framing.plainFormat body) :: bodyEvents body)

theorem message_scan {start : StartLine} (written : start.Writable) (fits : start.bytes.length ≤ 6144)
    {lines : List Bytes} {fields : List Field} (reads : List.Forall₂ FieldLine lines fields)
    (room : (sectionBytes lines).length ≤ sectionRoom) {body : Bytes}
    (frames : Framing.Frames start.sender fields body) :
    ∃ r, r.phase = .done ∧ r.consumed = 0 ∧
      scan {} (start.bytes ++ (crlf ++ (sectionBytes lines ++ body)))
        = ⟨plainEvents start fields body, .ok ⟨r, []⟩⟩ := by
  obtain ⟨noted, settled, folded, ended, format, declared⟩ := frames.settled
  let headed : Reader :=
    { sender := start.sender, framing := settled, phase := bodyPhase settled.format }
  have head : scan { sender := start.sender, phase := .header 0 } (sectionBytes lines ++ body)
      = (scan headed body).announce
          (fields.flatMap (Event.ofField .header) ++ [.headerDone settled.format]) :=
    header_scan lines fields { sender := start.sender } 0 body reads (by rw [Nat.zero_add]; exact room)
      folded ended
  have inside : ∃ r, r.phase = .done ∧ r.consumed = 0 ∧
      scan headed body = ⟨bodyEvents body, .ok ⟨r, []⟩⟩ := by
    by_cases empty : body = []
    · subst empty
      refine ⟨headed, ?_, rfl, scan_pause headed headed [] [] [] ?_⟩
      · simp only [headed, format, Framing.plainFormat, if_true, bodyPhase]
      · simp only [turn, headed, format, Framing.plainFormat, if_true, bodyPhase]
    · have phase : headed.phase = .body := by
        simp only [headed, format, Framing.plainFormat, if_neg empty, bodyPhase]
      refine ⟨{ headed with phase := .done, seen := body.length }, rfl, rfl, ?_⟩
      rw [body_scan headed phase rfl body declared, Event.ofData, bodyEvents, if_neg empty, if_neg empty]
      rfl
  obtain ⟨r, done, unread, scanned⟩ := inside
  refine ⟨r, done, unread, ?_⟩
  rw [startLine_scan start.bytes start fits (StartLine.ofLine_bytes written), head, scanned, format]
  simp [Scan.announce, plainEvents]

end Scanning

end Reader

section RawWriters

-- Of the fields that bear on the body there is a length at most, which is that of the body.
structure Sendable (headers : FieldMap) (body : Bytes) : Prop where
  built : headers.Built
  presentable : Presentable headers []
  uncoded : headers.has "transfer-encoding" = false
  type : ∀ value, headers.joined? "content-type".toList = some value →
    Framing.isMultipart value = false
  length : headers.has "content-length" = true → ∃ value,
    headers.values "content-length".toList = [value] ∧ value ≠ [] ∧
      (∀ c ∈ value, c.isDigit = true) ∧ Framing.decimalValue value = body.length

-- What a raw writer is asked for, and the start line that its message begins with.
inductive Writes (date : Text) (headers : FieldMap) (body : Bytes) :
    Except Error Bytes → StartLine → Prop
  | request (method : Method) (uri : Text) (version : Version) (real : uri ≠ []) :
    Writes date headers body (Writer.request date method uri version headers body)
      (.request method (Percent.encodeTarget uri) version)
  | response (version : Version) (status : Nat) (reason : Text) (low : 100 ≤ status)
    (high : status ≤ 999) (quiet : status ≤ 199 ∨ status = 204 ∨ status = 304 → body = [])
    (plain : ∀ c ∈ reason, c ≠ '\r' ∧ c ≠ '\n') :
    Writes date headers body (Writer.response date version status reason headers body)
      (.response version status (if reason = [] then (Status.phrase status).toList else reason))

variable {date : Text} {headers : FieldMap} {body : Bytes}

theorem Sendable.fits (sendable : Sendable headers body) (word : body.length < Numeral.wordBound) :
    LengthFits headers body := by
  intro given
  obtain ⟨value, only, filled, digits, same⟩ := sendable.length given
  have whole : Framing.IsLength value := ⟨filled, digits, by rw [same]; exact word⟩
  exact ⟨value, only, (Framing.length?_iff value body.length).mpr ⟨whole, same.symm⟩⟩

theorem Sendable.frames (sendable : Sendable headers body) (word : body.length < Numeral.wordBound)
    {sender : Sender} (allowed : Framing.forbidsBody sender = true → body = []) :
    Framing.Frames sender (writtenFields date headers [] body) body := by
  have formed := sendable.built.wellFormed
  have types : ∀ value ∈ Framing.typesOf (writtenFields date headers [] body),
      Framing.isMultipart value = false := by
    intro value member
    rw [written_types date formed, Option.mem_toList] at member
    obtain ⟨joined, given, rfl⟩ := Option.map_eq_some_iff.mp member
    have plain := sendable.type joined given
    unfold Framing.isMultipart MediaType.isMultipart at plain ⊢
    rw [essence_trim, plain]
  refine ⟨(sendable.fits word).written date formed word [],
    written_unchunked date formed sendable.uncoded [], ?_, ?_, allowed⟩
  · intro value member multipart
    rw [types value member] at multipart
    cases multipart
  · intro parts
    obtain ⟨value, member, multipart⟩ := List.any_eq_true.mp parts
    rw [types value member] at multipart
    cases multipart

theorem Writes.start {written : Except Error Bytes} {start : StartLine}
    (writes : Writes date headers body written start) :
    start.Writable ∧ (Framing.forbidsBody start.sender = true → body = []) ∧
      written = Writer.fields date start headers [] none body := by
  cases writes with
  | request method uri version real =>
    refine ⟨?_, nofun, ?_⟩
    · exact .request method _ version (Percent.encodeTarget_ne_nil uri real)
        (Percent.encodeTarget_graphic uri)
    · unfold Writer.request Writer.requestLine
      rw [if_neg real]
      rfl
  | response version status reason low high quiet plain =>
    refine ⟨?_, ?_, rfl⟩
    · by_cases unnamed : reason = []
      · obtain ⟨real, phrase⟩ := Status.phrase_plain status
        rw [if_pos unnamed]
        exact .response version status _ low high real fun c member => phrase.unbroken c member
      · rw [if_neg unnamed]
        exact .response version status reason low high unnamed plain
    · intro forbidden
      unfold Framing.forbidsBody StartLine.sender at forbidden
      simp only [decide_eq_true_eq] at forbidden
      exact quiet (by omega)

-- If the start line and the section are within the limits of a reader, it tells what was written, with
-- the length and the date that were added.
theorem raw_writers_read_back {written : Except Error Bytes} {start : StartLine} (seconds : Int)
    (sendable : Sendable headers body) (word : body.length < Numeral.wordBound)
    (writes : Writes (Date.render seconds) headers body written start) :
    ∃ bytes fieldBytes, written = .ok bytes ∧
      bytes = start.bytes ++ (crlf ++ (fieldBytes ++ body)) ∧
      (start.bytes.length ≤ 6144 → fieldBytes.length ≤ 8192 →
        let fields := writtenFields (Date.render seconds) headers [] body
        let run := ({} : Reader).read Handler.record #[] bytes
        run.1 = (Reader.plainEvents start fields body).toArray ∧
          ∃ x, run.2 = .ok x ∧ x.progress = .complete ∧ x.rest = [] ∧
            x.reader.consumed = bytes.length) := by
  obtain ⟨writable, allowed, same⟩ := writes.start
  let rows := Writer.fieldLines (Date.render seconds) headers [] none body
  have accepted := (sendable.fits word).accepted (Date.render seconds) sendable.uncoded start [] none
  refine ⟨_, rowsBytes rows, same.trans accepted, assemble_eq start rows body, ?_⟩
  intro fits room
  have reads := rows_read rows (fieldLines_plain headers [] body seconds sendable.presentable)
  rw [fieldLines_fields _ headers [] body (Date.render_trim seconds) sendable.uncoded] at reads
  obtain ⟨r, done, unread, scanned⟩ :=
    Reader.message_scan writable fits reads room (sendable.frames word allowed)
  rw [assemble_eq]
  simp only [Reader.read, Handler.deliver_record]
  unfold rowsBytes
  rw [scanned]
  refine ⟨by simp, _, rfl, ?_, rfl, ?_⟩
  · exact (Reader.progress_complete _).mpr done
  · simp [Reader.Reading.counted, Reader.Reading.used, unread]

theorem raw_request_reads_back :
    let headers := ((FieldMap.empty.insert "Accept".toList "a".toList).insert
      "Set-Cookie".toList "c=1, 2".toList).insert "accept".toList " b".toList
    let date : Field := ⟨"Date".toList, "Thu, 01 Jan 1970 00:00:00 GMT".toList⟩
    ∃ bytes x,
      Writer.request (Date.render 0) .post "/a b".toList .v11 headers (ascii "hi") = .ok bytes ∧
      ({} : Reader).read Handler.record #[] bytes =
        (#[.start (.request .post "/a%20b".toList .v11),
            .field .header ⟨"Accept".toList, "a,  b".toList⟩,
            .element .header ⟨"Accept".toList, "a".toList⟩,
            .element .header ⟨"Accept".toList, "b".toList⟩,
            .field .header ⟨"Set-Cookie".toList, "c=1, 2".toList⟩,
            .element .header ⟨"Set-Cookie".toList, "c=1, 2".toList⟩,
            .field .header ⟨"Content-Length".toList, "2".toList⟩,
            .element .header ⟨"Content-Length".toList, "2".toList⟩,
            .field .header date, .element .header date,
            .headerDone .raw, .data .body (ascii "hi"), .dataDone .body], .ok x) ∧
      x.progress = .complete := by
  intro headers date
  have sendable : Sendable headers (ascii "hi") :=
    ⟨.insert _ _ (.insert _ _ (.insert _ _ .empty)), ⟨by decide, by decide, nofun⟩, by decide, nofun,
      fun given => absurd given (by decide)⟩
  have writes : Writes (Date.render 0) headers (ascii "hi") _ _ :=
    .request .post "/a b".toList .v11 (by decide)
  obtain ⟨bytes, fieldBytes, written, whole, complete⟩ :=
    raw_writers_read_back 0 sendable (by decide) writes
  have size : bytes.length ≤ 200 := by
    have short : (Writer.request (Date.render 0) .post "/a b".toList .v11 headers (ascii "hi")).toOption.all
        (fun bytes => bytes.length ≤ 200) = true := by decide +kernel
    rw [written] at short
    exact of_decide_eq_true short
  have room : fieldBytes.length ≤ 8192 := by
    rw [whole] at size
    simp only [List.length_append] at size
    omega
  obtain ⟨events, x, ended, progress, _, _⟩ := complete (by decide) room
  refine ⟨bytes, x, written, ?_, progress⟩
  apply Prod.ext
  · rw [events]
    dsimp only
    decide +kernel
  · exact ended

end RawWriters

end HttpWire
