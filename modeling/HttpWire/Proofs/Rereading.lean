import HttpWire.Proofs.GatheredHeaders

-- A message that was read, written and read again. The fields that a writer joins are told
-- apart in the same way, so nothing but the length and the date that it adds is new.
namespace HttpWire

namespace Message

section Origins

def Begins (m : Message) : StartLine → Prop
  | .request method uri version =>
    m.kind = .request ∧ m.version = some version ∧ m.method = some method ∧ m.uri = some uri
  | .response version status reason =>
    m.kind = .response ∧ m.version = some version ∧ m.status = status ∧ m.reason.getD [] = reason

variable {start : StartLine} {fields : List Field} {body : Bytes} {m : Message}

theorem started_begins (taken : (({} : Message).takeStart start).2 = none) :
    (started start).Begins start := by
  unfold started
  cases start with
  | request method uri version =>
    unfold takeStart at taken ⊢
    dsimp only at taken ⊢
    split
    · rename_i begun parsed
      obtain ⟨target, _, same⟩ := Option.map_eq_some_iff.mp parsed
      subst same
      exact ⟨rfl, rfl, rfl, rfl⟩
    · rename_i unparsed
      rw [unparsed] at taken
      cases taken
  | response version status reason =>
    refine ⟨rfl, rfl, rfl, ?_⟩
    unfold takeStart withReason
    dsimp only
    split
    · rename_i empty
      exact empty.symm
    · rfl

theorem takeFields_eq (fields : List Field) (m : Message) :
    ∃ headers cookies, fields.foldl takeField m = { m with headers, cookies } := by
  induction fields generalizing m with
  | nil => exact ⟨_, _, rfl⟩
  | cons f fields ih =>
    obtain ⟨headers, cookies, first⟩ := m.takeField_eq f
    obtain ⟨later, more, rest⟩ := ih (m.takeField f)
    rw [List.foldl_cons, rest, first]
    exact ⟨_, _, rfl⟩

theorem headed_eq (start : StartLine) (fields : List Field) :
    ∃ headers cookies, headed start fields = { started start with headers, cookies } :=
  takeFields_eq fields (started start)

theorem gathered_eq (start : StartLine) (fields : List Field) (body : Bytes) :
    ∃ host port, gathered start fields body
      = { headed start fields with host, port, headersComplete := true, body, seen := body.length } := by
  obtain ⟨host, port, found⟩ := (headed start fields).placed_eq
  obtain ⟨headers, cookies, same⟩ := headed_eq start fields
  obtain ⟨_, _, _, empty, unseen⟩ := started_bare start
  refine ⟨host, port, ?_⟩
  unfold gathered
  rw [found, same]
  simp only [append, empty, unseen, List.nil_append, Nat.zero_add]

theorem Origin.begins (origin : Origin start fields body m) : m.Begins start := by
  obtain ⟨host, port, whole⟩ := gathered_eq start fields body
  obtain ⟨headers, cookies, same⟩ := headed_eq start fields
  have begun := started_begins origin.taken
  rw [origin.same, whole, same]
  cases start with
  | request method uri version => exact begun
  | response version status reason => exact begun

theorem Origin.body_eq (origin : Origin start fields body m) : m.body = body := by
  obtain ⟨host, port, whole⟩ := gathered_eq start fields body
  rw [origin.same, whole]

theorem Origin.headers_eq (origin : Origin start fields body m) :
    m.headers = (headed start fields).headers ∧ m.cookies = (headed start fields).cookies := by
  obtain ⟨host, port, whole⟩ := gathered_eq start fields body
  rw [origin.same, whole]
  exact ⟨rfl, rfl⟩

theorem Origin.collected (origin : Origin start fields body m) : m.Collected := by
  obtain ⟨empty, uncookied, _⟩ := started_bare start
  have fresh : (started start).Collected := by
    refine ⟨?_, ?_⟩
    · rw [empty]
      exact ⟨.empty, nofun, nofun⟩
    · rw [uncookied]
      exact nofun
  have all := takeFields_collected fields fresh origin.reads
  obtain ⟨headers, cookies⟩ := origin.headers_eq
  refine ⟨?_, ?_⟩
  · rw [headers]
    exact all.headers
  · rw [cookies]
    exact all.cookies

theorem Origin.writable (origin : Origin start fields body m)
    (coded : m.kind = .response → 100 ≤ m.status) : start.Writable := by
  have begins := origin.begins
  obtain ⟨line, read⟩ := origin.line
  apply StartLine.ofLine_writable read
  intro version status reason same
  subst same
  obtain ⟨kind, _, code, _⟩ := begins
  rw [← code]
  exact coded kind

theorem Begins.startLine (begins : m.Begins start) (writable : start.Writable) :
    Writer.startLine m = .ok start := by
  cases writable with
  | request method uri version real graphic =>
    obtain ⟨kind, versioned, asked, target⟩ := begins
    unfold Writer.startLine Writer.requestLine
    simp only [kind, versioned, asked, target, if_neg real, encodeTarget_graphic_text graphic]
  | response version status reason low high real plain =>
    obtain ⟨kind, versioned, code, named⟩ := begins
    have nonzero : status ≠ 0 := by omega
    unfold Writer.startLine Writer.statusLine
    simp only [kind, versioned, code, named, if_neg nonzero, if_neg real]

end Origins

section Again

variable {start : StartLine} {fields : List Field} {body : Bytes} {m : Message}

theorem placed_headers (m : Message) (headers : FieldMap)
    (host : headers.first? "host".toList = m.headers.first? "host".toList) :
    ({ m with headers } : Message).placed = { m.placed with headers } := by
  unfold placed applyHostField
  dsimp only
  rw [host]
  split
  · split
    · rfl
    · split <;> rfl
  · rfl

theorem Origin.headed_written (origin : Origin start fields body m) (seconds : Int) :
    headed start (writtenFields (Date.render seconds) m.headers m.cookies body)
      = { headed start fields with headers := rewritten (Date.render seconds) m.headers body } := by
  obtain ⟨empty, uncookied, _⟩ := started_bare start
  obtain ⟨given, kept, same⟩ := headed_eq start fields
  have written : headed start (writtenFields (Date.render seconds) m.headers m.cookies body) = _ :=
    written_collected body seconds origin.collected _ empty uncookied
  rw [written, origin.headers_eq.2, same]

theorem Origin.again (origin : Origin start fields body m) (seconds : Int) :
    gathered start (writtenFields (Date.render seconds) m.headers m.cookies body) body
      = { m with headers := rewritten (Date.render seconds) m.headers body } := by
  have formed := origin.collected.headers.built.wellFormed
  have host : (rewritten (Date.render seconds) m.headers body).first? "host".toList
      = (headed start fields).headers.first? "host".toList := by
    unfold FieldMap.first?
    rw [rewritten_values _ _ _ formed (.inr (by decide)) (.inl (by decide)), origin.headers_eq.1]
  have found := placed_headers _ _ host
  have whole := origin.same
  unfold gathered at whole ⊢
  rw [origin.headed_written seconds]
  dsimp only at found ⊢
  rw [found]
  generalize rewritten (Date.render seconds) m.headers body = again
  conv_rhs => rw [whole]
  rfl

end Again

section Writing

variable {start : StartLine} {m : Message}

theorem entryLines_described (formed : m.headers.WellFormed)
    (single : (m.headers.values "content-type".toList).length ≤ 1) (entry : Text × List Text)
    (member : entry ∈ m.headers.entries) :
    Writer.entryLines m.charset entry = Writer.entryLines none entry := by
  unfold Writer.entryLines
  split
  · rfl
  · split
    · rename_i typed
      have found := formed.found "content-type".toList entry member typed
      obtain ⟨value, only⟩ := formed.one _ found single
      have type : m.mediaType = MediaType.ofValue value := by
        unfold mediaType FieldMap.first?
        rw [m.headers.values_found _ found, only]
        rfl
      rw [only, commaJoined_one]
      cases labelled : m.charset with
      | none => rfl
      | some label =>
        unfold charset at labelled
        rw [type] at labelled
        obtain ⟨last, tail, _⟩ := Option.map_eq_some_iff.mp labelled
        obtain ⟨row, kept, _⟩ := List.mem_map.mp (List.mem_of_getLast? tail)
        obtain ⟨parameter, named⟩ := List.mem_filter.mp kept
        unfold Writer.contentType
        dsimp only
        rw [if_pos (List.any_eq_true.mpr ⟨row, parameter, named⟩)]
    · rfl

theorem Begins.written (begins : m.Begins start) (writable : start.Writable) (date : Text)
    (formed : m.headers.WellFormed)
    (single : (m.headers.values "content-type".toList).length ≤ 1)
    (uncoded : m.headers.has "transfer-encoding" = false) (fits : LengthFits m.headers m.body) :
    Writer.message date m
      = .ok (Writer.assemble start (Writer.fieldLines date m.headers m.cookies none m.body) m.body) := by
  have described : Writer.fieldLines date m.headers m.cookies m.charset m.body
      = Writer.fieldLines date m.headers m.cookies none m.body := by
    unfold Writer.fieldLines
    rw [List.flatMap_congr (entryLines_described formed single)]
  unfold Writer.message
  rw [begins.startLine writable]
  exact (fits.accepted date uncoded start m.cookies m.charset).trans (by rw [described])

end Writing

section Rewriting

-- The body is sent as it is, in one piece, and the status of a response has three digits.
structure Rewritable (m : Message) : Prop where
  uncoded : m.headers.has "transfer-encoding" = false
  single : (m.headers.values "content-type".toList).length ≤ 1
  fits : m.declared = none ∨ m.declared = some m.body.length
  coded : m.kind = .response → 100 ≤ m.status

variable {start : StartLine} {fields : List Field} {body : Bytes} {m : Message}

theorem Origin.formed (origin : Origin start fields body m) : m.headers.WellFormed :=
  origin.collected.headers.built.wellFormed

theorem Origin.presentable (origin : Origin start fields body m) : Presentable m.headers m.cookies :=
  ⟨fun entry member => (origin.collected.headers.names entry member).1,
    fun entry member value inside => (origin.collected.headers.values entry member value inside).plain,
    fun value member => (origin.collected.cookies value member).2⟩

theorem Origin.fits (origin : Origin start fields body m) (rewritable : m.Rewritable) :
    LengthFits m.headers body := by
  obtain ⟨fr, heads⟩ := origin.heads
  have length := heads.length
  have same := heads.declared
  intro given
  cases declared : fr.declared with
  | none =>
    rw [declared] at length
    have absent : m.headers.has "content-length" = false :=
      origin.formed.absent _ (List.map_eq_nil_iff.mp length)
    rw [absent] at given
    cases given
  | some n =>
    rw [declared] at length
    obtain ⟨value, only, read⟩ := List.map_eq_singleton_iff.mp length
    rcases rewritable.fits with none | measured
    · rw [same, declared] at none
      cases none
    · rw [same, declared, origin.body_eq] at measured
      cases measured
      exact ⟨value, only, read⟩

theorem Origin.written_type (origin : Origin start fields body m) (rewritable : m.Rewritable)
    (date : Text) (value : Text)
    (member : value ∈ Framing.typesOf (writtenFields date m.headers m.cookies body)) :
    value ∈ Framing.typesOf fields := by
  rw [written_types date origin.formed, Option.mem_toList, FieldMap.joined?_find?] at member
  obtain ⟨_, given, rfl⟩ := Option.map_eq_some_iff.mp member
  obtain ⟨entry, found, rfl⟩ := Option.map_eq_some_iff.mp given
  obtain ⟨value, only⟩ := origin.formed.one _ found rewritable.single
  have inside : value ∈ m.headers.values "content-type".toList := by
    rw [m.headers.values_found _ found, only]
    exact List.mem_singleton_self value
  have element := origin.collected.headers.values entry (List.mem_of_find?_eq_some found) value
    (by rw [only]; exact List.mem_singleton_self value)
  rw [only, commaJoined_one, element.bare.trimmed]
  rw [origin.headers_eq.1, headed, takeFields_whole _ _ (by decide) (by decide),
    (started_bare start).1] at inside
  exact (List.mem_filter.mp inside).1

theorem Origin.frames (origin : Origin start fields body m) (rewritable : m.Rewritable)
    (word : body.length < Numeral.wordBound) (date : Text) :
    Framing.Frames start.sender (writtenFields date m.headers m.cookies body) body := by
  refine ⟨(origin.fits rewritable).written date origin.formed word m.cookies,
    written_unchunked date origin.formed rewritable.uncoded m.cookies, ?_, ?_, ?_⟩
  · intro value member
    exact origin.acceptable.consistent.bounded value (origin.written_type rewritable date value member)
  · intro parts
    obtain ⟨value, member, multipart⟩ := List.any_eq_true.mp parts
    by_contra filled
    have none := (Framing.formatOf_raw (origin.format filled)).1
    have sent : Framing.sendsParts fields = true :=
      List.any_eq_true.mpr ⟨value, origin.written_type rewritable date value member, multipart⟩
    rw [none] at sent
    cases sent
  · intro forbidden
    by_contra filled
    rw [(Framing.formatOf_raw (origin.format filled)).2] at forbidden
    cases forbidden

-- The fields are the same by what their names stand for. A length and a date may be new.
structure Reread (m again : Message) : Prop where
  parts : again = { m with headers := again.headers }
  target : again.path = m.path ∧ again.arguments = m.arguments
  type : again.contentType = m.contentType ∧ again.charset = m.charset
  fields : ∀ k, Kept m.headers k → again.headers.joined? k = m.headers.joined? k

theorem rewritten_reread (formed : m.headers.WellFormed)
    (single : (m.headers.values "content-type".toList).length ≤ 1) (date : Text) :
    m.Reread { m with headers := rewritten date m.headers body } := by
  have type : ({ m with headers := rewritten date m.headers body } : Message).mediaType = m.mediaType := by
    unfold mediaType FieldMap.first?
    rw [rewritten_values _ _ _ formed (.inr (by decide)) (.inr single)]
  refine ⟨rfl, ⟨rfl, rfl⟩, ⟨?_, ?_⟩, fun k kept => rewritten_joined date body k m.headers kept⟩
  · unfold contentType
    rw [type]
  · unfold charset
    rw [type]

theorem Origin.reread (origin : Origin start fields body m) (rewritable : m.Rewritable)
    (word : body.length < Numeral.wordBound) (seconds : Int) {policy : Policy}
    (kept : policy.keepBody = true) (fits : start.bytes.length ≤ 6144)
    (room : (rowsBytes (Writer.fieldLines (Date.render seconds) m.headers m.cookies none body)).length
      ≤ 8192) :
    let written := Writer.assemble start
      (Writer.fieldLines (Date.render seconds) m.headers m.cookies none body) body
    ofBytes policy written
      = .ok ({ m with headers := rewritten (Date.render seconds) m.headers body }, written.length) := by
  have reads := rows_read _ (fieldLines_plain m.headers m.cookies body seconds origin.presentable)
  rw [fieldLines_fields _ _ _ _ (Date.render_trim seconds) rewritable.uncoded] at reads
  have measured : (headed start (writtenFields (Date.render seconds) m.headers m.cookies body)).headers.has
      "content-length" = true := by
    rw [origin.headed_written seconds]
    exact (rewritten_complete _ body m.headers).1
  have again := ofBytes_plain kept origin.taken measured (origin.writable rewritable.coded) fits reads room
    (origin.frames rewritable word (Date.render seconds))
  rw [origin.again seconds] at again
  intro written
  rw [show written = _ from assemble_eq start _ body]
  exact again

theorem Begins.headers (begins : m.Begins start) (headers : FieldMap) :
    ({ m with headers } : Message).Begins start := by
  cases start with
  | request method uri version => exact begins
  | response version status reason => exact begins

theorem Origin.rewritten_twice (origin : Origin start fields body m) (rewritable : m.Rewritable)
    (word : body.length < Numeral.wordBound) (seconds : Int) (later : Text)
    (ordered : m.cookies = [] ∨
      (m.headers.has "content-length" = true ∧ m.headers.has "date" = true)) :
    Writer.message later { m with headers := rewritten (Date.render seconds) m.headers body }
      = .ok (Writer.assemble start
          (Writer.fieldLines (Date.render seconds) m.headers m.cookies none body) body) := by
  have same := origin.body_eq
  subst same
  have uncoded : (rewritten (Date.render seconds) m.headers m.body).has "transfer-encoding" = false :=
    (rewritten_contains _ _ _ _ (.inr (by decide))).trans rewritable.uncoded
  have single : ((rewritten (Date.render seconds) m.headers m.body).values "content-type".toList).length
      ≤ 1 := by
    rw [rewritten_values _ _ _ origin.formed (.inr (by decide)) (.inr rewritable.single)]
    exact rewritable.single
  have begins := origin.begins.headers (rewritten (Date.render seconds) m.headers m.body)
  have twice := begins.written (origin.writable rewritable.coded) later
    (rewritten_formed m.body origin.collected.headers seconds) single uncoded
    ((origin.fits rewritable).rewritten (Date.render seconds) m.body origin.formed word)
  rw [twice]
  dsimp only
  rw [fieldLines_rewritten (Date.render seconds) m.body later origin.collected.headers rewritable.uncoded
    m.cookies ordered]

-- Written once more it is the same bytes, if no cookies stand before a length or a date that was added.
theorem read_write_read {policy : Policy} {bytes : Bytes} {n : Nat} (kept : policy.keepBody = true)
    (word : bytes.length < Numeral.wordBound) (read : ofBytes policy bytes = .ok (m, n))
    (rewritable : m.Rewritable) (seconds : Int) :
    ∃ start fieldBytes written, Writer.startLine m = .ok start ∧
      Writer.message (Date.render seconds) m = .ok written ∧
      written = start.bytes ++ (crlf ++ (fieldBytes ++ m.body)) ∧
      (start.bytes.length ≤ 6144 → fieldBytes.length ≤ 8192 → ∃ again,
        (∀ other : Policy, other.keepBody = true →
          ofBytes other written = .ok (again, written.length)) ∧
        m.Reread again ∧
        (m.cookies = [] ∨ (m.headers.has "content-length" = true ∧ m.headers.has "date" = true) →
          ∀ later, Writer.message later again = .ok written)) := by
  obtain ⟨start, fields, body, origin, short⟩ := ofBytes_origin kept read rewritable.uncoded
  have same := origin.body_eq
  subst same
  have writable := origin.writable rewritable.coded
  have small : m.body.length < Numeral.wordBound := by omega
  have written := origin.begins.written writable (Date.render seconds) origin.formed rewritable.single
    rewritable.uncoded (origin.fits rewritable)
  refine ⟨start, _, _, origin.begins.startLine writable, written, assemble_eq start _ m.body,
    fun fits room => ⟨{ m with headers := rewritten (Date.render seconds) m.headers m.body }, ?_,
      rewritten_reread origin.formed rewritable.single _, ?_⟩⟩
  · exact fun other keeps => origin.reread rewritable small seconds keeps fits room
  · exact fun ordered later => origin.rewritten_twice rewritable small seconds later ordered

theorem response_rereads :
    let bytes := ascii ("HTTP/1.1 200 OK\r\nDate: d\r\nSet-Cookie: a=1\r\nWWW-Authenticate: x\r\n" ++
      "www-authenticate: y\r\nContent-Length: 2\r\n\r\nhi")
    let headers : FieldMap := ⟨[("Date".toList, ["d".toList]),
      ("WWW-Authenticate".toList, ["x".toList, "y".toList]), ("Content-Length".toList, ["2".toList])]⟩
    let m : Message :=
      { kind := .response, version := some .v11, status := 200, reason := some "OK".toList, headers,
        headersComplete := true, cookies := ["a=1".toList], body := ascii "hi", seen := 2 }
    let keeps : Policy := { keepBody := true }
    ofBytes keeps bytes = .ok (m, bytes.length) ∧
      ∃ written again, Writer.message (Date.render 0) m = .ok written ∧
        ofBytes keeps written = .ok (again, written.length) ∧ m.Reread again ∧
        Writer.message (Date.render 1) again = .ok written := by
  intro bytes headers m keeps
  have read : ofBytes keeps bytes = .ok (m, bytes.length) := by decide +kernel
  have rewritable : m.Rewritable := ⟨by decide, by decide, .inr (by decide), fun _ => by decide⟩
  obtain ⟨start, fieldBytes, written, _, first, whole, complete⟩ :=
    read_write_read rfl (by decide) read rewritable 0
  have size : written.length ≤ 200 := by
    have short : (Writer.message (Date.render 0) m).toOption.all (fun written => written.length ≤ 200)
        = true := by decide +kernel
    rw [first] at short
    exact of_decide_eq_true short
  have room : start.bytes.length ≤ 6144 ∧ fieldBytes.length ≤ 8192 := by
    rw [whole] at size
    simp only [List.length_append] at size
    omega
  obtain ⟨again, reread, same, settled⟩ := complete room.1 room.2
  exact ⟨read, written, again, first, reread keeps rfl, same, settled (.inr ⟨by decide, by decide⟩) _⟩

end Rewriting

end Message
end HttpWire
