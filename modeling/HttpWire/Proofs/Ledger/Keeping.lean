import HttpWire.Proofs.Ledger.Edits
import HttpWire.Proofs.Ledger.Notes

-- An edit brings up to date what it touches and leaves the rest, so nothing kept is out of date.
namespace HttpWire

structure Ledger where
  message : Message := {}
  notes : Notes := {}
  path : Option Text := none
  query : Option Text := none
  arguments : FieldMap := .empty

namespace Ledger

section Editing

def withMessage (l : Ledger) (message : Message) : Ledger := { l with message }

def touch (l : Ledger) (headers : FieldMap) (name : Text) : Ledger :=
  { l with message := { l.message with headers }, notes := l.notes.update headers name }

def setUri? (l : Ledger) (uri : Text) : Option Ledger :=
  (Target.parse? uri).map fun target =>
    { l with
      message := { l.message with uri := some uri, host := target.host, port := target.port }
      path := target.path
      query := target.query
      arguments := (target.query.map Query.parse).getD .empty }

def addCookie (l : Ledger) (value : Text) : Ledger :=
  l.withMessage (l.message.addCookie value)

def setHeader (l : Ledger) (name value : Text) : Ledger :=
  if Message.isCookie name then l.addCookie value
  else l.touch (l.message.headers.put name value) name

def addHeader (l : Ledger) (name value : Text) : Ledger :=
  if Message.isCookie name then l.addCookie value
  else l.touch (l.message.headers.insert name value) name

def removeHeader (l : Ledger) (name : Text) : Ledger :=
  l.touch (l.message.headers.erase name) name

def mergeHeader (l : Ledger) (f : Field) : Ledger :=
  if Message.isCookie f.name then
    if l.message.cookies.contains f.value then l else l.addCookie f.value
  else l.touch (l.message.headers.insertNew f.name f.value) f.name

def withoutHeaders (l : Ledger) : Ledger :=
  { l with message := l.message.withoutHeaders, notes := {} }

def setHeaders (l : Ledger) (headers : FieldMap) (merge : Bool) : Ledger :=
  headers.fields.foldl mergeHeader (if merge then l else l.withoutHeaders)

def describe (l : Ledger) (media charset : Option Text) : Ledger :=
  let parameter (label : Text) : Text := "charset=".toList ++ label
  match media, charset with
  | some media, some label =>
    l.setHeader "Content-Type".toList (media ++ [';', ' '] ++ parameter label)
  | some media, none => l.setHeader "Content-Type".toList media
  | none, some label => l.setHeader "Content-Type".toList (parameter label)
  | none, none => l.removeHeader "content-type".toList

def setContentType (l : Ledger) (media : Text) : Ledger := l.describe (some media) l.notes.charset

def setCharset (l : Ledger) (label : Text) : Ledger := l.describe l.notes.contentType (some label)

def formText (l : Ledger) : Except Error Text :=
  match l.notes.textCharset with
  | .unknown | .utf8 => .ok (Utf8.lossy l.message.body)
  | charset => charset.decode l.message.body

def transcode (l : Ledger) (text : Text) : Ledger :=
  let body := Utf8.encode text
  let described := (l.withMessage (l.message.withBody body)).setCharset "utf-8".toList
  if described.notes.isChunked then described
  else described.setHeader "Content-Length".toList (Numeral.decimal body.length)

def decodeBody (l : Ledger) : Except Error Ledger :=
  if l.notes.contentType = none ∧ l.notes.textCharset = .unknown then .ok l
  else if l.notes.isForm then
    l.formText.map fun text =>
      l.withMessage { l.message with form := some (Query.parse text) }
  else
    match l.notes.textCharset with
    | .unknown | .utf8 => .ok l
    | charset => (charset.decode l.message.body).map l.transcode

-- The header fields of a connection and of an upgrade are changed without a note.
def edit (l : Ledger) : Message.Edit → Ledger
  | .setUri uri => (l.setUri? uri).getD l
  | .setHeader name value => l.setHeader name value
  | .addHeader name value => l.addHeader name value
  | .removeHeader name => l.removeHeader name
  | .setHeaders headers merge => l.setHeaders headers merge
  | .setContentType media => l.setContentType media
  | .setCharset label => l.setCharset label
  | .setPersistent persist => l.withMessage (l.message.setPersistent persist)
  | .setUpgrade want upgrade => l.withMessage (l.message.setUpgrade want upgrade)
  | .decodeBody => l.decodeBody.toOption.getD l
  | e => l.withMessage (l.message.edit e)

def run (l : Ledger) (edits : List Message.Edit) : Ledger := edits.foldl edit l

def request (method : Method) (uri : Text) : Except Error Ledger :=
  let fresh : Ledger :=
    { message := { kind := .request, method := some method, version := some .preferred } }
  match fresh.setUri? uri with
  | some l => .ok l
  | none => .error .uriInvalid

def response (status : Nat) (reason : Text) : Ledger :=
  { message := Message.response status reason }

end Editing

end Ledger

def Message.ledger (m : Message) : Ledger where
  message := m
  notes := m.notes
  path := m.path
  query := m.query
  arguments := m.arguments

section Agreement

namespace Message

section Reading

variable (m : Message)

@[simp] theorem ledger_message : m.ledger.message = m := rfl

@[simp] theorem ledger_textCharset : m.ledger.notes.textCharset = m.textCharset := rfl

@[simp] theorem ledger_isChunked : m.ledger.notes.isChunked = m.isChunked := rfl

end Reading

variable {m next : Message}

-- A change that nothing that is kept depends on.
theorem ledger_alike (alike : next.headers.Alike m.headers) (uri : next.uri = m.uri) :
    m.ledger.withMessage next = next.ledger := by
  have target : next.target = m.target := by
    unfold target
    rw [uri]
  unfold Ledger.withMessage ledger arguments query path
  rw [notes_alike alike, target]

theorem ledger_same (headers : next.headers = m.headers) (uri : next.uri = m.uri) :
    m.ledger.withMessage next = next.ledger :=
  ledger_alike (fun _ _ => by rw [headers]) uri

theorem ledger_touch {headers : FieldMap} {name : Text} (others : FieldMap.SameBut name headers m.headers) :
    m.ledger.touch headers name = ledger { m with headers } := by
  have noted := @update_notes m { m with headers } name others
  unfold Ledger.touch ledger
  rw [noted]
  rfl

theorem target_usable {uri : Text} {t : Target} (given : m.uri = some uri)
    (parsed : Target.parse? uri = some t) : m.target = t := by
  simp [target, given, parsed]

theorem arguments_eq (m : Message) : m.arguments = (m.target.query.map Query.parse).getD .empty := by
  unfold arguments query
  cases m.target.query <;> rfl

theorem ledger_setUri? (m : Message) (uri : Text) :
    m.ledger.setUri? uri = (m.withUri? uri).map ledger := by
  unfold Ledger.setUri? withUri?
  cases parsed : Target.parse? uri with
  | none => rfl
  | some t =>
    let moved := { m with uri := some uri, host := t.host, port := t.port }
    have aimed : moved.target = t := target_usable rfl parsed
    simp only [Option.map_some, ledger, path, query, arguments_eq, moved, aimed]
    rfl

theorem ledger_addCookie (m : Message) (value : Text) :
    m.ledger.addCookie value = (m.addCookie value).ledger :=
  ledger_same rfl rfl

theorem ledger_setHeader (m : Message) (name value : Text) :
    m.ledger.setHeader name value = (m.setHeader name value).ledger := by
  unfold Ledger.setHeader setHeader
  split
  · exact m.ledger_addCookie value
  · exact ledger_touch (m.headers.upsert_elsewhere name _ value)

theorem ledger_addHeader (m : Message) (name value : Text) :
    m.ledger.addHeader name value = (m.addHeader name value).ledger := by
  unfold Ledger.addHeader addHeader
  split
  · exact m.ledger_addCookie value
  · exact ledger_touch (m.headers.upsert_elsewhere name _ value)

theorem ledger_removeHeader (m : Message) (name : Text) :
    m.ledger.removeHeader name = (m.removeHeader name).ledger :=
  ledger_touch (m.headers.erase_elsewhere name)

theorem ledger_mergeHeader (m : Message) (f : Field) :
    m.ledger.mergeHeader f = (m.mergeHeader f).ledger := by
  unfold Ledger.mergeHeader mergeHeader
  split
  · split
    · rename_i known
      rw [if_pos (by exact known)]
    · rename_i new
      rw [if_neg (by exact new)]
      exact m.ledger_addCookie f.value
  · exact ledger_touch (m.headers.insertNew_elsewhere f.name f.value)

theorem ledger_withoutHeaders (m : Message) : m.ledger.withoutHeaders = m.withoutHeaders.ledger := rfl

theorem ledger_setHeaders (m : Message) (headers : FieldMap) (merge : Bool) :
    m.ledger.setHeaders headers merge = (m.setHeaders headers merge).ledger := by
  unfold Ledger.setHeaders setHeaders
  cases merge with
  | true => exact List.foldl_hom ledger ledger_mergeHeader
  | false =>
    simp only [Bool.false_eq_true, if_false, ledger_withoutHeaders]
    exact List.foldl_hom ledger ledger_mergeHeader

theorem ledger_describe (m : Message) (media charset : Option Text) :
    m.ledger.describe media charset = (m.describe media charset).ledger := by
  cases media with
  | none =>
    cases charset with
    | none => exact m.ledger_removeHeader _
    | some label => exact m.ledger_setHeader _ _
  | some media =>
    cases charset with
    | none => exact m.ledger_setHeader _ _
    | some label => exact m.ledger_setHeader _ _

theorem setPersistent_alike (m : Message) (persist : Bool) :
    (m.setPersistent persist).headers.Alike m.headers := by
  have bare := (FieldMap.Alike.refl m.headers).change
    (m.headers.erase_elsewhere "connection".toList) (by decide)
  unfold setPersistent
  split
  · exact .refl m.headers
  · dsimp only
    split
    · exact bare.change (FieldMap.upsert_elsewhere _ _ _ _) (by decide)
    · exact bare

theorem ledger_setPersistent (m : Message) (persist : Bool) :
    m.ledger.withMessage (m.setPersistent persist) = (m.setPersistent persist).ledger := by
  refine ledger_alike (m.setPersistent_alike persist) ?_
  unfold setPersistent
  split <;> rfl

theorem upgrade_aside :
    ∀ name ∈ upgradeNames, ∀ k ∈ Notes.sources, Text.named name.toList k = false := by decide

theorem withoutUpgrade_alike (m : Message) : m.withoutUpgrade.headers.Alike m.headers :=
  List.foldlRecOn (motive := (FieldMap.Alike · m.headers)) _ _ (.refl m.headers)
    fun headers before name member =>
      before.change (headers.erase_elsewhere name.toList) (upgrade_aside name member)

theorem askUpgrade_alike (m : Message) (u : Upgrade) : (m.askUpgrade u).headers.Alike m.headers := by
  unfold askUpgrade
  split
  · exact .refl m.headers
  · refine List.foldlRecOn (motive := (FieldMap.Alike · m.headers)) _ _ m.withoutUpgrade_alike
      fun headers before f member => ?_
    obtain ⟨name, listed, same⟩ := upgradeFields_name u f member
    apply before.change (headers.upsert_elsewhere f.name _ _)
    rw [← same]
    exact upgrade_aside name listed

theorem ledger_setUpgrade (m : Message) (want : Bool) (u : Upgrade) :
    m.ledger.withMessage (m.setUpgrade want u) = (m.setUpgrade want u).ledger := by
  unfold setUpgrade
  split
  · refine ledger_alike (m.askUpgrade_alike u) ?_
    unfold askUpgrade
    split <;> rfl
  · exact ledger_alike m.withoutUpgrade_alike rfl

theorem ledger_transcode (m : Message) (text : Text) :
    m.ledger.transcode text = (m.transcode text).ledger := by
  have filled : m.ledger.withMessage (m.withBody (Utf8.encode text))
      = (m.withBody (Utf8.encode text)).ledger := ledger_same rfl rfl
  have described : (m.withBody (Utf8.encode text)).ledger.setCharset "utf-8".toList
      = ((m.withBody (Utf8.encode text)).setCharset "utf-8".toList).ledger := ledger_describe _ _ _
  simp only [Ledger.transcode, transcode, ledger_message, filled, described, ledger_isChunked]
  split
  · rfl
  · exact ledger_setHeader _ _ _

theorem ledger_formText (m : Message) : m.ledger.formText = m.formText := rfl

theorem ledger_decodeBody (m : Message) : m.ledger.decodeBody = m.decodeBody.map ledger := by
  unfold Ledger.decodeBody decodeBody
  by_cases unknown : m.contentType = none ∧ m.textCharset = .unknown
  · rw [if_pos (by exact unknown), if_pos unknown]
    rfl
  · rw [if_neg (by exact unknown), if_neg unknown]
    by_cases form : m.isForm = true
    · rw [if_pos (by exact form), if_pos form, ledger_formText]
      cases m.formText <;> rfl
    · rw [if_neg (by exact form), if_neg form, ledger_textCharset, ledger_message]
      have recoded (charset : Charset) : (charset.decode m.body).map m.ledger.transcode
          = ((charset.decode m.body).map m.transcode).map ledger := by
        cases charset.decode m.body with
        | error e => rfl
        | ok text => exact congrArg Except.ok (m.ledger_transcode text)
      cases m.textCharset with
      | unknown | utf8 => rfl
      | ascii => exact recoded .ascii
      | latin1 => exact recoded .latin1

theorem ledger_edit (m : Message) (e : Edit) : m.ledger.edit e = (m.edit e).ledger := by
  cases e with
  | setUri uri =>
    have moved := m.ledger_setUri? uri
    simp only [Ledger.edit, edit, moved]
    cases m.withUri? uri <;> rfl
  | setHeader name value => exact m.ledger_setHeader name value
  | addHeader name value => exact m.ledger_addHeader name value
  | removeHeader name => exact m.ledger_removeHeader name
  | setHeaders headers merge => exact m.ledger_setHeaders headers merge
  | setContentType media => exact m.ledger_describe _ _
  | setCharset label => exact m.ledger_describe _ _
  | setPersistent persist => exact m.ledger_setPersistent persist
  | setUpgrade want u => exact m.ledger_setUpgrade want u
  | decodeBody =>
    have decoded := m.ledger_decodeBody
    simp only [Ledger.edit, edit, decoded]
    cases m.decodeBody <;> rfl
  | applyHostField =>
    obtain ⟨host, port, placed⟩ := m.applyHostField_eq
    have same : m.applyHostField.headers = m.headers ∧ m.applyHostField.uri = m.uri := by
      rw [placed]
      exact ⟨rfl, rfl⟩
    exact ledger_same same.1 same.2
  | setKind | setVersion | setMethod | setStatus | setReason | setHeadersComplete | addCookie
  | removeCookie | addTrailer | append | setBody | setForm | changeChunk => exact ledger_same rfl rfl

theorem ledger_run (m : Message) (edits : List Edit) :
    m.ledger.run edits = (edits.foldl edit m).ledger :=
  List.foldl_hom ledger ledger_edit

end Message

end Agreement

section Currency

theorem Message.addHeader_all (fields : List Field) (list : ∀ f ∈ fields, isCookie f.name = false)
    (m : Message) : fields.foldl (fun m f => m.addHeader f.name f.value) m
      = { m with headers := fields.foldl (fun headers f => headers.insert f.name f.value) m.headers } := by
  induction fields generalizing m with
  | nil => rfl
  | cons f fields ih =>
    have first : m.addHeader f.name f.value
        = { m with headers := m.headers.insert f.name f.value } := by
      unfold addHeader
      simp only [list f (List.mem_cons_self ..), Bool.false_eq_true, if_false]
    rw [List.foldl_cons, List.foldl_cons, first, ih fun g member => list g (List.mem_cons_of_mem f member)]

namespace Ledger

def ofFields (fields : List Field) : Ledger :=
  fields.foldl (fun l f => l.addHeader f.name f.value) {}

theorem ofFields_eq (fields : List Field) (list : ∀ f ∈ fields, Message.isCookie f.name = false) :
    ofFields fields = Message.ledger { headers := .ofFields fields } := by
  have empty : ({} : Ledger) = Message.ledger {} := rfl
  unfold ofFields
  rw [empty, List.foldl_hom Message.ledger fun m f => m.ledger_addHeader f.name f.value,
    Message.addHeader_all fields list {}]
  rfl

inductive Begun : Ledger → Prop
  | new : Begun {}
  | request {l : Ledger} (method : Method) (uri : Text) (made : request method uri = .ok l) : Begun l
  | response (status : Nat) (reason : Text) : Begun (response status reason)

theorem Begun.ledger {l : Ledger} (begun : Begun l) : ∃ m : Message, m.Sound ∧ l = m.ledger := by
  cases begun with
  | new => exact ⟨{}, .fresh .unknown none none 0, rfl⟩
  | request method uri made =>
    let fresh : Message := { kind := .request, method := some method, version := some .preferred }
    have sound := (Message.Sound.fresh .request (some .preferred) (some method) 0).withUri uri
    have moved : Ledger.setUri? { message := fresh } uri = (fresh.withUri? uri).map Message.ledger :=
      fresh.ledger_setUri? uri
    unfold Ledger.request at made
    dsimp only at made
    rw [moved] at made
    cases parsed : fresh.withUri? uri with
    | none =>
      rw [parsed] at made
      cases made
    | some m =>
      rw [parsed] at made sound
      cases made
      exact ⟨m, sound, rfl⟩
  | response status reason =>
    exact ⟨.response status reason, (Message.Sound.fresh .response (some .preferred) none status).same
      rfl rfl rfl rfl rfl, rfl⟩

structure UpToDate (l : Ledger) : Prop where
  contentType : l.notes.contentType = l.message.contentType
  charset : l.notes.charset = l.message.charset
  textCharset : l.notes.textCharset = l.message.textCharset
  isForm : l.notes.isForm = l.message.isForm
  declared : l.notes.declared = l.message.declared
  isChunked : l.notes.isChunked = l.message.isChunked
  -- The same fields, added to an empty message, leave the same notes.
  added : (ofFields l.message.headers.fields).notes = l.notes
  headers : (ofFields l.message.headers.fields).message.headers = l.message.headers
  cookies : l.message.headers.has "set-cookie" = false
  seen : l.message.seen = l.message.body.length
  chunks : ∀ c ∈ l.message.chunks, c.seen = c.body.length
  target : ∀ uri, l.message.uri = some uri → ∃ target, Target.parse? uri = some target ∧
    l.path = target.path ∧ l.query = target.query ∧
      l.arguments = (target.query.map Query.parse).getD .empty

theorem ledger_upToDate {m : Message} (sound : m.Sound) : m.ledger.UpToDate := by
  have again : ofFields m.ledger.message.headers.fields = Message.ledger { headers := m.headers } := by
    rw [m.ledger_message, ofFields_eq _ sound.headers.field, sound.headers.built.wellFormed.ofFields]
  refine ⟨rfl, rfl, rfl, rfl, rfl, rfl, ?added, ?headers, sound.headers.absent, sound.counted.whole,
    sound.counted.chunks, fun uri given => ?target⟩
  case added =>
    rw [again]
    rfl
  case headers =>
    rw [again]
    rfl
  obtain ⟨t, parsed⟩ := sound.usable uri given
  obtain rfl := Message.target_usable given parsed
  exact ⟨m.target, parsed, rfl, rfl, m.arguments_eq⟩

theorem run_message {l : Ledger} (begun : Begun l) (edits : List Message.Edit) :
    (l.run edits).message = edits.foldl Message.edit l.message := by
  obtain ⟨m, _, rfl⟩ := begun.ledger
  rw [m.ledger_run]
  rfl

theorem edited_upToDate {l : Ledger} (begun : Begun l) (edits : List Message.Edit) :
    (l.run edits).UpToDate := by
  obtain ⟨m, sound, rfl⟩ := begun.ledger
  rw [m.ledger_run]
  exact ledger_upToDate (List.foldlRecOn edits Message.edit sound fun _ before e _ =>
    Message.edit_sound before e)

theorem transcoded_upToDate :
    let edits : List Message.Edit :=
      [ .setHeader "Content-Type".toList "text/plain; charset=latin1".toList,
        .append [0xE9],
        .decodeBody ]
    Begun (response 200 "OK".toList) ∧
      ((response 200 "OK".toList).run edits).notes =
        { contentType := some "text/plain".toList, charset := some "utf-8".toList,
          textCharset := .utf8, declared := some 2 } ∧
      ((response 200 "OK".toList).run edits).UpToDate :=
  ⟨.response 200 "OK".toList, by decide, edited_upToDate (.response 200 "OK".toList) _⟩

end Ledger

end Currency

end HttpWire
