import HttpWire.Framing
import HttpWire.Target

-- What fields and target imply is computed when asked for, so it can never be out of date.
namespace HttpWire

structure Chunk where
  body : Bytes := []
  seen : Nat := 0
  declared : Option Nat := none
  extensions : FieldMap := .empty
  deriving DecidableEq

structure Upgrade where
  secure : Bool
  settings : Text
  deriving DecidableEq

structure Message where
  kind : Kind := .unknown
  version : Option Version := none
  method : Option Method := none
  uri : Option Text := none
  host : Option Text := none
  port : Option Nat := none
  status : Nat := 0
  reason : Option Text := none
  headers : FieldMap := .empty
  headersComplete : Bool := false
  cookies : List Text := []
  trailers : FieldMap := .empty
  upgrade : Option Upgrade := none
  body : Bytes := []
  seen : Nat := 0
  form : Option FieldMap := none
  chunks : List Chunk := []
  deriving DecidableEq

def Chunk.empty : Chunk := {}

def Chunk.append (c : Chunk) (data : Bytes) : Chunk :=
  { c with body := c.body ++ data, seen := c.seen + data.length }

def Chunk.addExtension (c : Chunk) (name value : Text) : Chunk :=
  { c with extensions := c.extensions.insert name value }

def Chunk.close (c : Chunk) : Chunk := { c with declared := some c.seen }

namespace Message

def withUri? (m : Message) (uri : Text) : Option Message :=
  (Target.parse? uri).map fun target =>
    { m with uri := some uri, host := target.host, port := target.port }

def target (m : Message) : Target := (m.uri.bind Target.parse?).getD {}

def path (m : Message) : Option Text := m.target.path

def query (m : Message) : Option Text := m.target.query

def arguments (m : Message) : FieldMap :=
  match m.query with
  | some query => Query.parse query
  | none => .empty

def withReason (m : Message) (reason : Text) : Message :=
  { m with reason := if reason = [] then none else some reason }

def request (method : Method) (uri : Text) : Except Error Message :=
  let fresh : Message :=
    { kind := .request, method := some method, version := some .preferred }
  match fresh.withUri? uri with
  | some m => .ok m
  | none => .error .uriInvalid

def response (status : Nat) (reason : Text) : Message :=
  let fresh : Message := { kind := .response, version := some .preferred, status }
  fresh.withReason reason

def append (m : Message) (data : Bytes) : Message :=
  { m with body := m.body ++ data, seen := m.seen + data.length }

def withBody (m : Message) (body : Bytes) : Message := { m with body, seen := body.length }

def addTrailer (m : Message) (name value : Text) : Message :=
  { m with trailers := m.trailers.insert name value }

-- A chunk that was absent appears with those before it.
def changeChunk (m : Message) (index : Nat) (change : Chunk → Chunk) : Message :=
  let present := m.chunks ++ List.replicate (index + 1 - m.chunks.length) .empty
  { m with chunks := present.modify index change }

end Message
end HttpWire

-- Cookies to be set are kept apart from the fields, one value each.
namespace HttpWire.Message

def mediaType (m : Message) : MediaType :=
  MediaType.ofValue ((m.headers.first? "content-type".toList).getD [])

def contentType (m : Message) : Option Text :=
  if m.mediaType.essence = [] then none else some m.mediaType.essence

def charset (m : Message) : Option Text :=
  (m.mediaType.valuesOf "charset").getLast?.map Text.lower

def textCharset (m : Message) : Charset :=
  match m.charset with
  | some label => Charset.ofLabel label
  | none => .unknown

def isForm (m : Message) : Bool := m.mediaType.isForm

def declared (m : Message) : Option Nat :=
  (m.headers.first? "content-length".toList).bind fun value =>
    Numeral.signedBelow? Numeral.wordBound (Text.trim value)

def isChunked (m : Message) : Bool :=
  (m.headers.values "transfer-encoding".toList).any fun value =>
    (Text.trim value).beginsWithName "chunked"

def isCookie (name : Text) : Bool := name.named "set-cookie"

def addCookie (m : Message) (value : Text) : Message :=
  { m with cookies := m.cookies ++ [value] }

def setHeader (m : Message) (name value : Text) : Message :=
  if isCookie name then m.addCookie value
  else { m with headers := m.headers.put name value }

def addHeader (m : Message) (name value : Text) : Message :=
  if isCookie name then m.addCookie value
  else { m with headers := m.headers.insert name value }

def removeHeader (m : Message) (name : Text) : Message :=
  { m with headers := m.headers.erase name }

-- Cookies are compared as they are, other values without regard to letter case.
def mergeHeader (m : Message) (f : Field) : Message :=
  if isCookie f.name then
    if m.cookies.contains f.value then m else m.addCookie f.value
  else { m with headers := m.headers.insertNew f.name f.value }

def withoutHeaders (m : Message) : Message := { m with headers := .empty, cookies := [] }

def mergeHeaders (m : Message) (headers : FieldMap) : Message :=
  headers.fields.foldl mergeHeader m

def replaceHeaders (m : Message) (headers : FieldMap) : Message :=
  m.withoutHeaders.mergeHeaders headers

def applyHostField (m : Message) : Message :=
  if m.host.isSome ∧ m.port.isSome then m
  else
    match (m.headers.first? "host".toList).bind Target.ofHostField? with
    | none => m
    | some (host, port) => { m with host := m.host <|> some host, port := m.port <|> port }

def describe (m : Message) (media charset : Option Text) : Message :=
  let parameter (label : Text) : Text := "charset=".toList ++ label
  match media, charset with
  | some media, some label =>
    m.setHeader "Content-Type".toList (media ++ [';', ' '] ++ parameter label)
  | some media, none => m.setHeader "Content-Type".toList media
  | none, some label => m.setHeader "Content-Type".toList (parameter label)
  | none, none => m.removeHeader "content-type".toList

def setContentType (m : Message) (media : Text) : Message := m.describe (some media) m.charset

def setCharset (m : Message) (label : Text) : Message := m.describe m.contentType (some label)

def connectionHas (m : Message) (token : String) : Bool :=
  ((m.headers.values "connection".toList).flatMap (splitAll ',')).any fun piece =>
    (Text.trim piece).named token

def isPersistent (m : Message) : Bool :=
  match m.version with
  | some .v10 => m.connectionHas "keep-alive"
  | _ => !m.connectionHas "close"

def setPersistent (m : Message) (persist : Bool) : Message :=
  if m.upgrade.isSome then m
  else
    let bare := m.headers.erase "connection".toList
    { m with headers :=
        if persist then bare.insert "Connection".toList "keep-alive".toList else bare }

def upgradeFields (u : Upgrade) : List Field :=
  [ ⟨"Connection".toList, "Upgrade, HTTP2-Settings".toList⟩,
    ⟨"Upgrade".toList, if u.secure then "h2".toList else "h2c".toList⟩,
    ⟨"HTTP2-Settings".toList, u.settings⟩ ]

def withoutUpgrade (m : Message) : Message :=
  { m with
    upgrade := none
    headers := ["Connection", "Upgrade", "HTTP2-Settings"].foldl
      (fun headers name => headers.erase name.toList) m.headers }

def askUpgrade (m : Message) (u : Upgrade) : Message :=
  if u.settings = [] then m
  else
    let bare := m.withoutUpgrade
    { bare with
      upgrade := some u
      headers := (upgradeFields u).foldl (fun headers f => headers.insert f.name f.value)
        bare.headers }

end HttpWire.Message
