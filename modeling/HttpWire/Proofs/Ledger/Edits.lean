import HttpWire.Proofs.Collecting
import HttpWire.Proofs.FieldMaps

-- All that a caller may do to a message, and what is true of one however it has been edited.
namespace HttpWire

namespace Chunk

-- To put another chunk in the place of one is to begin anew, and then to do what was done to it.
inductive Edit where
  | renew (declared : Option Nat)
  | append (data : Bytes)
  | addExtension (name value : Text)
  | declare (length : Option Nat)

def edit (c : Chunk) : Edit → Chunk
  | .renew declared => { declared }
  | .append data => c.append data
  | .addExtension name value => c.addExtension name value
  | .declare length => { c with declared := length }

theorem edit_counted (c : Chunk) (e : Edit) (counted : c.seen = c.body.length) :
    (c.edit e).seen = (c.edit e).body.length := by
  cases e with
  | renew => rfl
  | append data => simp [edit, append, counted]
  | addExtension => exact counted
  | declare => exact counted

theorem edits_counted (c : Chunk) (edits : List Edit) (counted : c.seen = c.body.length) :
    (edits.foldl edit c).seen = (edits.foldl edit c).body.length :=
  List.foldlRecOn edits edit counted fun c before e _ => edit_counted c e before

end Chunk

namespace Message

inductive Edit where
  | setKind (kind : Kind)
  | setVersion (version : Version)
  | setMethod (method : Method)
  | setUri (uri : Text)
  | applyHostField
  | setStatus (status : Nat)
  | setReason (reason : Text)
  | setHeader (name value : Text)
  | addHeader (name value : Text)
  | removeHeader (name : Text)
  | setHeaders (headers : FieldMap) (merge : Bool)
  | setHeadersComplete (complete : Bool)
  | addCookie (value : Text)
  | removeCookie (position : Nat)
  | addTrailer (name value : Text)
  | setContentType (media : Text)
  | setCharset (label : Text)
  | setPersistent (persist : Bool)
  | setUpgrade (want : Bool) (upgrade : Upgrade)
  | append (data : Bytes)
  | setBody (body : Bytes)
  | setForm (form : Option FieldMap)
  | changeChunk (index : Nat) (edits : List Chunk.Edit)
  | decodeBody

def setHeaders (m : Message) (headers : FieldMap) (merge : Bool) : Message :=
  if merge then m.mergeHeaders headers else m.replaceHeaders headers

def setUpgrade (m : Message) (want : Bool) (upgrade : Upgrade) : Message :=
  if want then m.askUpgrade upgrade else m.withoutUpgrade

def changeChunkBy (m : Message) (index : Nat) (edits : List Chunk.Edit) : Message :=
  m.changeChunk index fun c => edits.foldl Chunk.edit c

-- A target that is unusable and a body that cannot be decoded leave the message as it was.
def edit (m : Message) : Edit → Message
  | .setKind kind => { m with kind }
  | .setVersion version => { m with version := some version }
  | .setMethod method => { m with method := some method }
  | .setUri uri => (m.withUri? uri).getD m
  | .applyHostField => m.applyHostField
  | .setStatus status => { m with status }
  | .setReason reason => m.withReason reason
  | .setHeader name value => m.setHeader name value
  | .addHeader name value => m.addHeader name value
  | .removeHeader name => m.removeHeader name
  | .setHeaders headers merge => m.setHeaders headers merge
  | .setHeadersComplete complete => { m with headersComplete := complete }
  | .addCookie value => m.addCookie value
  | .removeCookie position => { m with cookies := m.cookies.eraseIdx position }
  | .addTrailer name value => m.addTrailer name value
  | .setContentType media => m.setContentType media
  | .setCharset label => m.setCharset label
  | .setPersistent persist => m.setPersistent persist
  | .setUpgrade want upgrade => m.setUpgrade want upgrade
  | .append data => m.append data
  | .setBody body => m.withBody body
  | .setForm form => { m with form }
  | .changeChunk index edits => m.changeChunkBy index edits
  | .decodeBody => m.decodeBody.toOption.getD m

end Message

section Soundness

structure FieldMap.CookieFree (headers : FieldMap) : Prop where
  built : headers.Built
  absent : headers.has "set-cookie" = false

namespace FieldMap.CookieFree

variable {headers : FieldMap} {name : Text} (free : headers.CookieFree)
include free

theorem insert (value : Text) (other : Message.isCookie name = false) :
    (headers.insert name value).CookieFree :=
  ⟨free.built.insert name value, upsert_absent _ _ value other free.absent⟩

theorem put (value : Text) (other : Message.isCookie name = false) :
    (headers.put name value).CookieFree :=
  ⟨free.built.put name value, upsert_absent _ _ value other free.absent⟩

theorem insertNew (value : Text) (other : Message.isCookie name = false) :
    (headers.insertNew name value).CookieFree :=
  ⟨free.built.insertNew name value, insertNew_absent _ value other free.absent⟩

theorem erase (name : Text) : (headers.erase name).CookieFree :=
  ⟨free.built.erase name, erase_absent _ name free.absent⟩

theorem field (f : Field) (member : f ∈ headers.fields) : Message.isCookie f.name = false := by
  obtain ⟨entry, inside, value, _, rfl⟩ : ∃ entry ∈ headers.entries, ∃ value ∈ entry.2,
      Field.mk entry.1 value = f := by simpa [FieldMap.fields] using member
  have absent := free.absent
  unfold has contains at absent
  rw [List.any_eq_false] at absent
  exact Bool.eq_false_iff.mpr (absent entry inside)

end FieldMap.CookieFree

namespace Message

variable {m : Message}

structure Sound (m : Message) : Prop where
  headers : m.headers.CookieFree
  counted : m.Counted
  usable : ∀ uri, m.uri = some uri → ∃ target, Target.parse? uri = some target

theorem Sound.fresh (kind : Kind) (version : Option Version) (method : Option Method) (status : Nat) :
    Sound { kind, version, method, status } :=
  ⟨⟨.empty, rfl⟩, ⟨rfl, nofun⟩, nofun⟩

-- What a message says apart from its fields, its target and its body does not matter.
theorem Sound.same {next : Message} (sound : m.Sound) (headers : next.headers = m.headers)
    (uri : next.uri = m.uri) (seen : next.seen = m.seen) (body : next.body = m.body)
    (chunks : next.chunks = m.chunks) : next.Sound := by
  refine ⟨?_, sound.counted.same seen body chunks, ?_⟩
  · rw [headers]
    exact sound.headers
  · rw [uri]
    exact sound.usable

theorem Sound.withHeaders (sound : m.Sound) {headers : FieldMap} (free : headers.CookieFree) :
    Sound { m with headers } :=
  ⟨free, sound.counted.same rfl rfl rfl, sound.usable⟩

theorem Sound.addCookie (sound : m.Sound) (value : Text) : (m.addCookie value).Sound :=
  sound.same rfl rfl rfl rfl rfl

theorem Sound.setHeader (sound : m.Sound) (name value : Text) : (m.setHeader name value).Sound := by
  unfold Message.setHeader
  split
  · exact sound.addCookie value
  · rename_i other
    exact sound.withHeaders (sound.headers.put value (Bool.eq_false_iff.mpr other))

theorem Sound.addHeader (sound : m.Sound) (name value : Text) : (m.addHeader name value).Sound := by
  unfold Message.addHeader
  split
  · exact sound.addCookie value
  · rename_i other
    exact sound.withHeaders (sound.headers.insert value (Bool.eq_false_iff.mpr other))

theorem Sound.removeHeader (sound : m.Sound) (name : Text) : (m.removeHeader name).Sound :=
  sound.withHeaders (sound.headers.erase name)

theorem Sound.mergeHeader (sound : m.Sound) (f : Field) : (m.mergeHeader f).Sound := by
  unfold Message.mergeHeader
  split
  · split
    · exact sound
    · exact sound.addCookie f.value
  · rename_i other
    exact sound.withHeaders (sound.headers.insertNew f.value (Bool.eq_false_iff.mpr other))

theorem Sound.mergeHeaders (sound : m.Sound) (headers : FieldMap) : (m.mergeHeaders headers).Sound :=
  List.foldlRecOn headers.fields Message.mergeHeader sound fun _ before f _ => before.mergeHeader f

theorem Sound.setHeaders (sound : m.Sound) (headers : FieldMap) (merge : Bool) :
    (m.setHeaders headers merge).Sound := by
  have bare : m.withoutHeaders.Sound :=
    ⟨⟨.empty, rfl⟩, sound.counted.same rfl rfl rfl, sound.usable⟩
  unfold Message.setHeaders
  split
  · exact sound.mergeHeaders headers
  · exact bare.mergeHeaders headers

theorem Sound.describe (sound : m.Sound) (media charset : Option Text) :
    (m.describe media charset).Sound := by
  unfold Message.describe
  cases media with
  | none =>
    cases charset with
    | none => exact sound.removeHeader _
    | some label => exact sound.setHeader _ _
  | some media =>
    cases charset with
    | none => exact sound.setHeader _ _
    | some label => exact sound.setHeader _ _

theorem Sound.applyHostField (sound : m.Sound) : m.applyHostField.Sound := by
  obtain ⟨host, port, placed⟩ := m.applyHostField_eq
  rw [placed]
  exact sound.same rfl rfl rfl rfl rfl

theorem Sound.withUri (sound : m.Sound) (uri : Text) : ((m.withUri? uri).getD m).Sound := by
  unfold withUri?
  cases parsed : Target.parse? uri with
  | none => exact sound
  | some target =>
    refine ⟨sound.headers, sound.counted.same rfl rfl rfl, fun given same => ?_⟩
    cases same
    exact ⟨target, parsed⟩

theorem Sound.setPersistent (sound : m.Sound) (persist : Bool) : (m.setPersistent persist).Sound := by
  have bare := sound.headers.erase "connection".toList
  unfold Message.setPersistent
  split
  · exact sound
  · apply sound.withHeaders
    split
    · exact bare.insert _ (by decide)
    · exact bare

def upgradeNames : List String := ["Connection", "Upgrade", "HTTP2-Settings"]

theorem upgradeFields_name (u : Upgrade) (f : Field) (member : f ∈ upgradeFields u) :
    ∃ name ∈ upgradeNames, name.toList = f.name :=
  List.mem_map.mp (List.mem_map_of_mem member : f.name ∈ (upgradeFields u).map Field.name)

theorem Sound.withoutUpgrade (sound : m.Sound) : m.withoutUpgrade.Sound := by
  have bare := List.foldlRecOn upgradeNames
    (fun headers name => headers.erase name.toList) sound.headers
    fun _ before name _ => before.erase name.toList
  exact (sound.withHeaders bare).same rfl rfl rfl rfl rfl

theorem Sound.askUpgrade (sound : m.Sound) (u : Upgrade) : (m.askUpgrade u).Sound := by
  have names : ∀ name ∈ upgradeNames, isCookie name.toList = false := by decide
  have other (f : Field) (member : f ∈ upgradeFields u) : isCookie f.name = false := by
    obtain ⟨name, listed, same⟩ := upgradeFields_name u f member
    rw [← same]
    exact names name listed
  unfold Message.askUpgrade
  split
  · exact sound
  · have bare := sound.withoutUpgrade
    have asked := List.foldlRecOn (upgradeFields u)
      (fun headers f => headers.insert f.name f.value) bare.headers
      fun _ before f member => before.insert f.value (other f member)
    exact (bare.withHeaders asked).same rfl rfl rfl rfl rfl

theorem Sound.setUpgrade (sound : m.Sound) (want : Bool) (u : Upgrade) :
    (m.setUpgrade want u).Sound := by
  unfold Message.setUpgrade
  split
  · exact sound.askUpgrade u
  · exact sound.withoutUpgrade

theorem Sound.withBody (sound : m.Sound) (body : Bytes) : (m.withBody body).Sound :=
  ⟨sound.headers, ⟨rfl, sound.counted.chunks⟩, sound.usable⟩

theorem Sound.append (sound : m.Sound) (data : Bytes) : (m.append data).Sound :=
  ⟨sound.headers, sound.counted.append data, sound.usable⟩

theorem Sound.changeChunkBy (sound : m.Sound) (index : Nat) (edits : List Chunk.Edit) :
    (m.changeChunkBy index edits).Sound :=
  ⟨sound.headers, sound.counted.change fun c => c.edits_counted edits, sound.usable⟩

theorem Sound.transcode (sound : m.Sound) (text : Text) : (m.transcode text).Sound := by
  have described := (sound.withBody (Utf8.encode text)).describe
    (m.withBody (Utf8.encode text)).contentType (some "utf-8".toList)
  unfold Message.transcode
  dsimp only
  split
  · exact described
  · exact described.setHeader _ _

theorem Sound.decodeBody (sound : m.Sound) : (m.decodeBody.toOption.getD m).Sound := by
  unfold Message.decodeBody
  split
  · exact sound
  · split
    · cases m.formText with
      | error e => exact sound
      | ok text => exact sound.same rfl rfl rfl rfl rfl
    · split
      · exact sound
      · exact sound
      · cases m.textCharset.decode m.body with
        | error e => exact sound
        | ok text => exact sound.transcode text

theorem edit_sound (sound : m.Sound) (e : Edit) : (m.edit e).Sound := by
  cases e with
  | setUri uri => exact sound.withUri uri
  | applyHostField => exact sound.applyHostField
  | setHeader name value => exact sound.setHeader name value
  | addHeader name value => exact sound.addHeader name value
  | removeHeader name => exact sound.removeHeader name
  | setHeaders headers merge => exact sound.setHeaders headers merge
  | setContentType media => exact sound.describe _ _
  | setCharset label => exact sound.describe _ _
  | setPersistent persist => exact sound.setPersistent persist
  | setUpgrade want upgrade => exact sound.setUpgrade want upgrade
  | append data => exact sound.append data
  | setBody body => exact sound.withBody body
  | changeChunk index edits => exact sound.changeChunkBy index edits
  | decodeBody => exact sound.decodeBody
  | setKind | setVersion | setMethod | setStatus | setReason | setHeadersComplete | addCookie
  | removeCookie | addTrailer | setForm => exact sound.same rfl rfl rfl rfl rfl

end Message

end Soundness

end HttpWire
