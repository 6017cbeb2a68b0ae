import HttpWire.Message.Basic

-- A message that cannot be written has no bytes at all.
namespace HttpWire.Writer

def line (name value : Text) : Bytes :=
  Utf8.encode name ++ [0x3A, 0x20] ++ Utf8.encode value ++ crlf

def contentType (value : Text) (charset : Option Text) : Text :=
  match charset with
  | none => value
  | some label =>
    if (MediaType.ofValue value).parameters.any (·.1.named "charset") then value
    else value ++ "; charset=".toList ++ label

def entryLines (charset : Option Text) (entry : Text × List Text) : List (Text × Text) :=
  if Message.isCookie entry.1 then entry.2.map (Prod.mk entry.1)
  else if entry.1.named "content-type" then
    [(entry.1, contentType (Text.commaJoined entry.2) charset)]
  else [(entry.1, Text.commaJoined entry.2)]

def isCoded (headers : FieldMap) : Bool := headers.has "transfer-encoding"

def lengthFits (headers : FieldMap) (body : Bytes) : Bool :=
  match headers.first? "content-length".toList with
  | none => true
  | some value =>
    Numeral.signedBelow? Numeral.wordBound (Text.trim value) == some body.length

def fieldLines (date : Text) (headers : FieldMap) (cookies : List Text) (charset : Option Text)
    (body : Bytes) : List (Text × Text) :=
  headers.entries.flatMap (entryLines charset)
    ++ cookies.map (Prod.mk "Set-Cookie".toList)
    ++ (if isCoded headers || headers.has "content-length" then []
        else [("Content-Length".toList, Numeral.decimal body.length)])
    ++ (if headers.has "date" then [] else [("Date".toList, date)])

def assemble (start : StartLine) (lines : List (Text × Text)) (body : Bytes) : Bytes :=
  start.bytes ++ crlf ++ lines.flatMap (fun row => line row.1 row.2) ++ crlf ++ body

-- A body cannot be written in a transfer coding, nor with a wrong length.
def fields (date : Text) (start : StartLine) (headers : FieldMap) (cookies : List Text)
    (charset : Option Text) (body : Bytes) : Except Error Bytes :=
  if isCoded headers ∧ body ≠ [] then .error .invalidUse
  else if lengthFits headers body then
    .ok (assemble start (fieldLines date headers cookies charset body) body)
  else .error .invalidUse

def requestLine (method : Method) (uri : Text) (version : Version) : Except Error StartLine :=
  if uri = [] then .error .invalidUse
  else .ok (.request method (Percent.encodeTarget uri) version)

def statusLine (version : Version) (status : Nat) (reason : Text) : StartLine :=
  .response version status (if reason = [] then (Status.phrase status).toList else reason)

def request (date : Text) (method : Method) (uri : Text) (version : Version) (headers : FieldMap)
    (body : Bytes) : Except Error Bytes := do
  fields date (← requestLine method uri version) headers [] none body

def response (date : Text) (version : Version) (status : Nat) (reason : Text) (headers : FieldMap)
    (body : Bytes) : Except Error Bytes :=
  fields date (statusLine version status reason) headers [] none body

def startLine (m : Message) : Except Error StartLine :=
  match m.version with
  | none => .error .invalidUse
  | some version =>
    match m.kind with
    | .unknown => .error .invalidUse
    | .request =>
      match m.method, m.uri with
      | some method, some uri => requestLine method uri version
      | _, _ => .error .invalidUse
    | .response =>
      if m.status = 0 then .error .invalidUse
      else .ok (statusLine version m.status (m.reason.getD []))

def message (date : Text) (m : Message) : Except Error Bytes := do
  fields date (← startLine m) m.headers m.cookies m.charset m.body

def addTo (buffer : Bytes) (written : Except Error Bytes) : Bytes × Option Error :=
  match written with
  | .ok bytes => (buffer ++ bytes, none)
  | .error e => (buffer, some e)

end HttpWire.Writer
