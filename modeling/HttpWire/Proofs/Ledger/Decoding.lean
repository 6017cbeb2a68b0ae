import HttpWire.Proofs.GeneratedText
import HttpWire.Proofs.Ledger.ContentTypes

-- What has been decoded would be decoded to itself.
namespace HttpWire

section Reading

def Charset.isBytewise : Charset → Bool
  | .ascii | .latin1 => true
  | .unknown | .utf8 => false

theorem Charset.decode_bytewise {charset : Charset} (bytewise : charset.isBytewise = true)
    (bytes : Bytes) : charset.decode bytes =
      if charset = .ascii ∧ ∃ b ∈ bytes, 0x80 ≤ b then .error .textCodecFailure
      else .ok (Text.ofLatin1 bytes) := by
  have small : bytes.all (· < 0x80) = true ↔ ¬ ∃ b ∈ bytes, 0x80 ≤ b := by
    simp [UInt8.not_le]
  cases charset with
  | unknown | utf8 => cases bytewise
  | ascii =>
    by_cases large : ∃ b ∈ bytes, 0x80 ≤ b
    · rw [if_pos ⟨rfl, large⟩]
      exact if_neg fun all => small.mp all large
    · rw [if_neg fun both => large both.2]
      exact if_pos (small.mpr large)
  | latin1 => exact (if_neg fun both => nomatch both.1).symm

namespace Message

variable (m : Message)

def Unreadable (m : Message) : Prop := m.textCharset = .ascii ∧ ∃ b ∈ m.body, 0x80 ≤ b

instance : Decidable m.Unreadable := inferInstanceAs (Decidable (_ ∧ _))

def bodyText (m : Message) : Text :=
  if m.textCharset.isBytewise then Text.ofLatin1 m.body else Utf8.lossy m.body

def decodedBody (m : Message) : Message :=
  if m.isForm then { m with form := some (Query.parse m.bodyText) }
  else if m.textCharset.isBytewise then m.transcode (Text.ofLatin1 m.body)
  else m

theorem essence_form (form : m.isForm = true) : m.mediaType.essence ≠ [] := by
  intro empty
  unfold isForm MediaType.isForm at form
  rw [empty] at form
  cases form

theorem formText_eq : m.formText =
    if m.textCharset.isBytewise then m.textCharset.decode m.body else .ok (Utf8.lossy m.body) := by
  unfold formText
  cases m.textCharset <;> rfl

theorem decodeBody_bytewise (bytewise : m.textCharset.isBytewise = true) : m.decodeBody =
    if m.isForm then (m.textCharset.decode m.body).map fun text => { m with form := some (Query.parse text) }
    else (m.textCharset.decode m.body).map m.transcode := by
  unfold decodeBody
  rw [m.formText_eq, bytewise]
  cases charset : m.textCharset with
  | unknown | utf8 =>
    rw [charset] at bytewise
    cases bytewise
  | ascii | latin1 => exact if_neg fun both => nomatch both.2

theorem decodeBody_other (other : m.textCharset.isBytewise = false) : m.decodeBody =
    .ok (if m.isForm then { m with form := some (Query.parse (Utf8.lossy m.body)) } else m) := by
  unfold decodeBody
  rw [m.formText_eq, other]
  cases form : m.isForm with
  | true =>
    rw [if_neg fun both => m.essence_form form (essence_untyped both.1)]
    rfl
  | false =>
    rw [if_neg Bool.false_ne_true]
    cases charset : m.textCharset with
    | unknown | utf8 => split <;> rfl
    | ascii | latin1 =>
      rw [charset] at other
      cases other

theorem decodeBody_eq : m.decodeBody =
    if m.Unreadable then .error .textCodecFailure else .ok m.decodedBody := by
  unfold decodedBody bodyText
  cases bytewise : m.textCharset.isBytewise with
  | true =>
    rw [m.decodeBody_bytewise bytewise, Charset.decode_bytewise bytewise]
    unfold Unreadable
    split <;> split <;> rfl
  | false =>
    have readable : ¬ m.Unreadable := by
      rintro ⟨ascii, _⟩
      rw [ascii] at bytewise
      cases bytewise
    rw [m.decodeBody_other bytewise, if_neg readable]
    rfl

end Message

end Reading

section Transcoding

theorem FieldMap.values_put (headers : FieldMap) (name value k : Text) :
    (headers.put name value).values k = if Text.sameName name k then [value] else headers.values k := by
  unfold FieldMap.put
  rw [FieldMap.values_upsert, ite_self]

namespace Message

variable (m : Message) (text : Text)

def recharged (m : Message) (text : Text) : Message :=
  (m.withBody (Utf8.encode text)).setCharset "utf-8".toList

theorem setLength_notes (value : Text) : (m.setHeader "Content-Length".toList value).notes =
    { m.notes with declared := Numeral.signedBelow? Numeral.wordBound (Text.trim value) } := by
  have put : (m.setHeader "Content-Length".toList value).headers
      = m.headers.put "Content-Length".toList value := by
    unfold setHeader
    rw [show isCookie "Content-Length".toList = false by decide]
    rfl
  have aside : FieldMap.SameBut "Content-Length".toList
      (m.setHeader "Content-Length".toList value).headers m.headers :=
    put ▸ m.headers.upsert_elsewhere _ _ value
  have alone : (m.setHeader "Content-Length".toList value).headers.values "content-length".toList
      = [value] := by
    rw [put, FieldMap.values_put, if_pos (by decide)]
  rw [notes_from m, mediaType_congr (aside "content-type".toList (by decide)),
    isChunked_congr (aside "transfer-encoding".toList (by decide))]
  unfold declared FieldMap.first?
  rw [alone]
  rfl

theorem recharged_eq : ∃ value, m.recharged text =
    { m with
      headers := m.headers.put "Content-Type".toList value
      body := Utf8.encode text
      seen := (Utf8.encode text).length } := by
  unfold recharged setCharset describe
  cases (m.withBody (Utf8.encode text)).contentType <;> exact ⟨_, rfl⟩

theorem recharged_typed {media : Text} (given : m.contentType = some media) :
    (m.recharged text).notes = { m.notes with charset := some "utf-8".toList, textCharset := .utf8 } :=
  setCharset_notes (m := m.withBody (Utf8.encode text)) given (by decide)

-- Without a type, the charset is taken for one.
theorem recharged_untyped (untyped : m.contentType = none) : (m.recharged text).notes =
    { m.notes with
      contentType := some "charset=utf-8".toList
      charset := none
      textCharset := .unknown } :=
  setCharset_untyped (m := m.withBody (Utf8.encode text)) untyped (by decide)

theorem recharged_isChunked : (m.recharged text).isChunked = m.isChunked := by
  obtain ⟨value, same⟩ := m.recharged_eq text
  rw [same]
  exact isChunked_congr (m.headers.upsert_elsewhere _ _ value _ (by decide))

theorem transcode_eq : m.transcode text =
    if m.isChunked then m.recharged text
    else (m.recharged text).setHeader "Content-Length".toList
      (Numeral.decimal (Utf8.encode text).length) := by
  rw [← m.recharged_isChunked text]
  rfl

end Message

namespace Ledger

structure Transcoded (text : Text) (l next : Ledger) : Prop where
  body : next.message.body = Utf8.encode text
  seen : next.message.seen = next.message.body.length
  -- A length that does not fit a word cannot be declared.
  measured : l.notes.isChunked = false →
    next.message.headers.values "content-length".toList
      = [Numeral.decimal next.message.body.length] ∧
    (next.message.body.length < Numeral.wordBound →
      next.notes.declared = some next.message.body.length)
  chunked : l.notes.isChunked = true →
    next.message.headers.values "content-length".toList
      = l.message.headers.values "content-length".toList ∧
    next.notes.declared = l.notes.declared
  typed : ∀ media, l.notes.contentType = some media → next.notes =
    { l.notes with
      charset := some "utf-8".toList
      textCharset := .utf8
      declared := next.notes.declared }
  untyped : l.notes.contentType = none → next.notes =
    { l.notes with
      contentType := some "charset=utf-8".toList
      charset := none
      textCharset := .unknown
      declared := next.notes.declared }
  fields : ∀ k, Text.named k "content-type" = false → Text.named k "content-length" = false →
    next.message.headers.values k = l.message.headers.values k
  others : next =
    { l with
      message :=
        { l.message with
          headers := next.message.headers
          body := next.message.body
          seen := next.message.seen }
      notes := next.notes }

end Ledger

namespace Message

variable (m : Message) (text : Text)

theorem transcode_put : ∃ value, m.transcode text =
    { m with
      headers :=
        if m.isChunked then m.headers.put "Content-Type".toList value
        else (m.headers.put "Content-Type".toList value).put "Content-Length".toList
          (Numeral.decimal (Utf8.encode text).length)
      body := Utf8.encode text
      seen := (Utf8.encode text).length } := by
  obtain ⟨value, same⟩ := m.recharged_eq text
  refine ⟨value, ?_⟩
  rw [transcode_eq, same]
  cases m.isChunked <;> rfl

theorem transcode_notes : ∃ declared, (m.transcode text).notes = { (m.recharged text).notes with declared } ∧
    (m.isChunked = true → declared = m.declared) ∧
    (m.isChunked = false → (Utf8.encode text).length < Numeral.wordBound →
      declared = some (Utf8.encode text).length) := by
  obtain ⟨value, same⟩ := m.recharged_eq text
  rw [transcode_eq]
  cases m.isChunked with
  | true =>
    have kept : (m.recharged text).declared = m.declared := by
      rw [same]
      exact declared_congr (m.headers.upsert_elsewhere _ _ value _ (by decide))
    exact ⟨(m.recharged text).declared, rfl, fun _ => kept, nofun⟩
  | false =>
    refine ⟨_, setLength_notes _ _, nofun, fun _ word => ?_⟩
    exact length_signed ((Framing.length?_iff _ _).mpr
      ⟨decimal_isLength _ word, (decimalValue_decimal _).symm⟩)

theorem transcode_transcoded : m.ledger.Transcoded text (m.transcode text).ledger := by
  obtain ⟨value, same⟩ := m.transcode_put text
  obtain ⟨declared, noted, kept, measured⟩ := m.transcode_notes text
  have after : (m.transcode text).ledger.notes = { (m.recharged text).notes with declared } := noted
  have body : (m.transcode text).ledger.message.body = Utf8.encode text := by
    rw [ledger_message, same]
  refine ⟨body, ?seen, fun sized => ⟨?length, fun word => ?word⟩, fun chunked => ⟨?unsized, ?known⟩,
    fun media given => ?typed, fun bare => ?untyped, fun k type length => ?fields, ?others⟩
  case seen => rw [ledger_message, same]
  case length =>
    rw [ledger_message, same, show m.isChunked = false from sized, if_neg Bool.false_ne_true,
      FieldMap.values_put, if_pos (by decide)]
  case word =>
    rw [body] at word ⊢
    rw [after]
    exact measured sized word
  case unsized =>
    rw [ledger_message, same, show m.isChunked = true from chunked, if_pos rfl, FieldMap.values_put,
      if_neg (by decide)]
    rfl
  case known =>
    rw [after]
    exact kept chunked
  case typed =>
    rw [after, m.recharged_typed text given]
    rfl
  case untyped =>
    rw [after, m.recharged_untyped text bare]
    rfl
  case fields =>
    have apart {name : String} (other : Text.named k name = false) :
        Text.sameName name.toList k = false := (Text.sameName_symm _ _).trans other
    have other : Text.sameName "Content-Type".toList k = false :=
      (Text.sameName_congr (b := "content-type".toList) (by decide) k).trans (apart type)
    have differ : Text.sameName "Content-Length".toList k = false :=
      (Text.sameName_congr (b := "content-length".toList) (by decide) k).trans (apart length)
    rw [ledger_message, same]
    cases m.isChunked with
    | true =>
      rw [if_pos rfl, FieldMap.values_put, other, if_neg Bool.false_ne_true]
      rfl
    | false =>
      rw [if_neg Bool.false_ne_true, FieldMap.values_put, differ, if_neg Bool.false_ne_true,
        FieldMap.values_put, other, if_neg Bool.false_ne_true]
      rfl
  case others =>
    unfold ledger arguments query path target
    rw [same]

end Message

end Transcoding

section Decoding

namespace Message

variable (m : Message)

theorem transcode_settled (text : Text) (plain : m.isForm = false) :
    (m.transcode text).isForm = false ∧ (m.transcode text).textCharset.isBytewise = false := by
  obtain ⟨declared, noted, _⟩ := m.transcode_notes text
  have form : (m.transcode text).isForm = (m.recharged text).isForm := congrArg Notes.isForm noted
  have charset : (m.transcode text).textCharset = (m.recharged text).textCharset :=
    congrArg Notes.textCharset noted
  rw [form, charset]
  cases given : m.contentType with
  | none =>
    have noted := m.recharged_untyped text given
    have same : (m.recharged text).textCharset = .unknown := congrArg Notes.textCharset noted
    have kept : (m.recharged text).isForm = m.isForm := congrArg Notes.isForm noted
    exact ⟨kept.trans plain, by rw [same]; rfl⟩
  | some media =>
    have noted := m.recharged_typed text given
    have same : (m.recharged text).textCharset = .utf8 := congrArg Notes.textCharset noted
    have kept : (m.recharged text).isForm = m.isForm := congrArg Notes.isForm noted
    exact ⟨kept.trans plain, by rw [same]; rfl⟩

theorem decodedBody_again (readable : ¬ m.Unreadable) : m.decodedBody.decodeBody = .ok m.decodedBody := by
  unfold decodedBody
  cases form : m.isForm with
  | true =>
    rw [if_pos rfl, decodeBody_eq, if_neg (by exact readable)]
    unfold decodedBody
    rw [if_pos (by exact form)]
    rfl
  | false =>
    rw [if_neg Bool.false_ne_true]
    cases bytewise : m.textCharset.isBytewise with
    | true =>
      obtain ⟨plain, settled⟩ := m.transcode_settled (Text.ofLatin1 m.body) form
      rw [if_pos rfl, decodeBody_other _ settled, plain]
      rfl
    | false =>
      rw [if_neg Bool.false_ne_true, m.decodeBody_other bytewise, form]
      rfl

end Message

namespace Ledger

structure Decoded (l next : Ledger) : Prop where
  form : l.notes.isForm = true → next = l.withMessage
    { l.message with
      form := some (Query.parse
        (if l.notes.textCharset = .latin1 ∨ l.notes.textCharset = .ascii
          then Text.ofLatin1 l.message.body else Utf8.lossy l.message.body)) }
  text : l.notes.isForm = false → l.notes.textCharset = .latin1 ∨ l.notes.textCharset = .ascii →
    Transcoded (Text.ofLatin1 l.message.body) l next
  others : l.notes.isForm = false → l.notes.textCharset ≠ .latin1 → l.notes.textCharset ≠ .ascii →
    next = l

theorem decodedBody_decoded (m : Message) : m.ledger.Decoded m.decodedBody.ledger := by
  have bytewise : m.textCharset.isBytewise = true ↔ m.textCharset = .latin1 ∨ m.textCharset = .ascii := by
    cases m.textCharset <;> decide
  refine ⟨fun form => ?_, fun plain foreign => ?_, fun plain latin1 ascii => ?_⟩
  · have text : m.bodyText = if m.textCharset = .latin1 ∨ m.textCharset = .ascii
        then Text.ofLatin1 m.body else Utf8.lossy m.body := if_congr bytewise rfl rfl
    unfold Message.decodedBody
    rw [if_pos (by exact form), text]
    rfl
  · unfold Message.decodedBody
    rw [if_neg (by rw [show m.isForm = false from plain]; decide), if_pos (bytewise.mpr foreign)]
    exact m.transcode_transcoded _
  · have other : ¬ m.textCharset.isBytewise = true := fun foreign =>
      (bytewise.mp foreign).elim latin1 ascii
    unfold Message.decodedBody
    rw [if_neg (by rw [show m.isForm = false from plain]; decide), if_neg other]

-- A body with bytes that its charset does not know is not decoded, and then nothing happens to the
-- message. Any other is, and a second time changes nothing.
theorem body_decoding {l : Ledger} (begun : Begun l) (edits : List Message.Edit) :
    let now := l.run edits
    ((∃ e, now.decodeBody = .error e) ↔
      now.notes.textCharset = .ascii ∧ ∃ b ∈ now.message.body, 0x80 ≤ b) ∧
    (∀ e, now.decodeBody = .error e → e = .textCodecFailure ∧ now.edit .decodeBody = now) ∧
    ∀ next, now.decodeBody = .ok next → Decoded now next ∧ next.decodeBody = .ok next := by
  obtain ⟨first, _, rfl⟩ := begun.ledger
  rw [first.ledger_run]
  generalize edits.foldl Message.edit first = m
  intro now
  have outcome : now.decodeBody =
      if m.Unreadable then .error .textCodecFailure else .ok m.decodedBody.ledger := by
    rw [m.ledger_decodeBody, m.decodeBody_eq]
    split <;> rfl
  by_cases unreadable : m.Unreadable
  · rw [if_pos unreadable] at outcome
    refine ⟨⟨fun _ => unreadable, fun _ => ⟨_, outcome⟩⟩, fun e failed => ⟨?_, ?_⟩,
      fun next decoded => ?_⟩
    · rw [outcome] at failed
      cases failed
      rfl
    · simp only [edit, outcome]
      rfl
    · rw [outcome] at decoded
      cases decoded
  · rw [if_neg unreadable] at outcome
    refine ⟨⟨?_, fun both => absurd both unreadable⟩, fun e failed => ?_, fun next decoded => ?_⟩
    · rintro ⟨e, failed⟩
      rw [outcome] at failed
      cases failed
    · rw [outcome] at failed
      cases failed
    · rw [outcome] at decoded
      cases decoded
      refine ⟨decodedBody_decoded m, ?_⟩
      rw [Message.ledger_decodeBody, m.decodedBody_again unreadable]
      rfl

theorem text_decoded_once :
    let typed (charset : String) : List Message.Edit :=
      [ .setHeader "Content-Type".toList ("text/plain; charset=".toList ++ charset.toList),
        .append [0x63, 0xE9] ]
    let now := (response 200 "OK".toList).run (typed "latin1")
    let other := (response 200 "OK".toList).run (typed "ascii")
    Begun (response 200 "OK".toList) ∧ (∃ e, other.decodeBody = .error e) ∧
      ∃ next, now.decodeBody = .ok next ∧ next.decodeBody = .ok next ∧
        next.message.body = [0x63, 0xC3, 0xA9] ∧
        next.message.headers.values "content-length".toList = ["3".toList] ∧
        next.notes.contentType = some "text/plain".toList ∧ next.notes.textCharset = .utf8 := by
  intro typed now other
  have begun : Begun (response 200 "OK".toList) := .response 200 "OK".toList
  obtain ⟨fails, _, decodes⟩ := body_decoding begun (typed "latin1")
  have refused := (body_decoding begun (typed "ascii")).1.mpr ⟨by decide, 0xE9, by decide, by decide⟩
  refine ⟨begun, refused, ?_⟩
  cases outcome : now.decodeBody with
  | error e => exact absurd (fails.mp ⟨e, outcome⟩).1 (by decide)
  | ok next =>
    obtain ⟨decoded, again⟩ := decodes next outcome
    have recoded := decoded.text (by decide) (by decide)
    have type : now.notes.contentType = some "text/plain".toList := by decide
    have described := recoded.typed _ type
    refine ⟨next, rfl, again, recoded.body.trans (by decide), ?_, ?_, ?_⟩
    · rw [(recoded.measured (by decide)).1, recoded.body]
      decide
    · rw [described]
      exact type
    · rw [described]

end Ledger

end Decoding

end HttpWire
