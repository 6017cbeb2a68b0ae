import HttpWire.Message.Basic
import HttpWire.Reader.Read

namespace HttpWire

structure Policy where
  refuseExtensions : Bool := false
  refuseTrailers : Bool := false
  requireLength : Bool := false
  keepBody : Bool := false
  deriving DecidableEq

namespace Message

-- The start line is kept even if its target turns out to be unusable.
def takeStart (m : Message) (line : StartLine) : Message × Option Error :=
  match line with
  | .request method uri version =>
    let started : Message :=
      { m with kind := .request, version := some version, method := some method }
    match started.withUri? uri with
    | some m => (m, none)
    | none => (started, some .uriInvalid)
  | .response version status reason =>
    let started : Message := { m with kind := .response, version := some version, status }
    (started.withReason reason, none)

def endHeaders (m : Message) (policy : Policy) (format : BodyFormat) : Message × Option Error :=
  if format = .multipart then (m, some .unsupportedData)
  else
    let placed := if m.kind = .request then m.applyHostField else m
    let ended := { placed with headersComplete := true }
    let framed := format == .chunked || ended.headers.has "content-length"
    (ended, if policy.requireLength && !framed then some .lengthRequired else none)

-- Empty elements are dropped from the header but kept in the trailer.
def collect (policy : Policy) : Handler Message := fun m event =>
  match event with
  | .start line => m.takeStart line
  | .element .header f => (if f.value = [] then m else m.addHeader f.name f.value, none)
  | .headerDone format => m.endHeaders policy format
  | .data .body data => (m.append data, none)
  | .extension index e =>
    if policy.refuseExtensions then (m, some .chunkExtensionNotAllowed)
    else (m.changeChunk index (·.addExtension e.name (e.value.getD [])), none)
  | .extensionsDone index => (m.changeChunk index id, none)
  | .data (.chunk index) data => ((m.append data).changeChunk index (·.append data), none)
  | .dataDone (.chunk index) => (m.changeChunk index (·.close), none)
  | .element .trailer f =>
    if policy.refuseTrailers then (m, some .trailerNotAllowed)
    else (m.addTrailer f.name f.value, none)
  | _ => (m, none)

def formText (m : Message) : Except Error Text :=
  match m.textCharset with
  | .unknown | .utf8 => .ok (Utf8.lossy m.body)
  | charset => charset.decode m.body

def transcode (m : Message) (text : Text) : Message :=
  let body := Utf8.encode text
  let described := (m.withBody body).setCharset "utf-8".toList
  if described.isChunked then described
  else described.setHeader "Content-Length".toList (Numeral.decimal body.length)

def decodeBody (m : Message) : Except Error Message :=
  if m.contentType = none ∧ m.textCharset = .unknown then .ok m
  else if m.isForm then
    m.formText.map fun text => { m with form := some (Query.parse text) }
  else
    match m.textCharset with
    | .unknown | .utf8 => .ok m
    | charset => (charset.decode m.body).map m.transcode

def ofBytes (policy : Policy) (bytes : Bytes) : Except Error (Message × Nat) :=
  match Reader.read {} (collect policy) {} bytes with
  | (_, .error e) => .error e
  | (m, .ok reading) =>
    if reading.progress = .incomplete then .error .moreData
    else if policy.keepBody then .ok (m, reading.used bytes)
    else m.decodeBody.map fun m => (m, reading.used bytes)

end Message
end HttpWire
