import HttpWire.Reader.Basic

namespace HttpWire.Reader

def skipEmptyLines : Bytes → Bytes
  | [] => []
  | [b] => [b]
  | a :: b :: rest => if a = 0x0D ∧ b = 0x0A then skipEmptyLines rest else a :: b :: rest

def startTurn (r : Reader) (bytes : Bytes) : Turn :=
  if r.skipStartLine then .onward [] { r with phase := .header 0 } bytes
  else
    let rest := skipEmptyLines bytes
    match opening crlf rest with
    | .undecided => .pause [] r rest
    | _ => .onward [] { r with phase := .startLine } rest

def startLineTurn (r : Reader) (bytes : Bytes) : Turn :=
  match takeLine startLineRoom bytes with
  | .tooLong => .fault [] .startLineTooLong
  | .unfinished => .pause [] r bytes
  | .whole line rest =>
    match StartLine.ofLine line with
    | .error e => .fault [] e
    | .ok start =>
      .onward [.start start] { r with sender := start.sender, phase := .header 0 } rest

inductive SectionLine where
  | field (f : Field) (size : Nat) (rest : Bytes)
  | closed (rest : Bytes)
  | unfinished
  | fault (e : Error)

def sectionLine (size : Nat) (bytes : Bytes) : SectionLine :=
  match takeLine (sectionRoom - size) bytes with
  | .tooLong => .fault .headerTooLong
  | .unfinished => .unfinished
  | .whole [] rest => .closed rest
  | .whole line rest =>
    match Field.ofLine line with
    | .error e => .fault e
    | .ok f => .field f (size + line.length + 2) rest

def bodyPhase : BodyFormat → Phase
  | .empty => .done
  | .raw => .body
  | .chunked => .chunkLine
  | .multipart => .preamble

-- The framing is settled before the end of the section is announced.
def headerTurn (r : Reader) (size : Nat) (bytes : Bytes) : Turn :=
  match sectionLine size bytes with
  | .fault e => .fault [] e
  | .unfinished => .pause [] r bytes
  | .closed rest =>
    match r.framing.settle r.sender with
    | .error e => .fault [] e
    | .ok framing =>
      .onward [.headerDone framing.format]
        { r with framing, phase := bodyPhase framing.format } rest
  | .field f size rest =>
    match r.framing.note f with
    | .error e => .fault [] e
    | .ok framing =>
      .onward (Event.ofField .header f) { r with framing, phase := .header size } rest

def trailerTurn (r : Reader) (size : Nat) (bytes : Bytes) : Turn :=
  match sectionLine size bytes with
  | .fault e => .fault [] e
  | .unfinished => .pause [] r bytes
  | .closed rest => .onward [.trailerDone] { r with phase := .done } rest
  | .field f size rest =>
    .onward (Event.ofField .trailer f) { r with phase := .trailer size } rest

def partHeaderTurn (r : Reader) (size : Nat) (bytes : Bytes) : Turn :=
  match sectionLine size bytes with
  | .fault e => .fault [] e
  | .unfinished => .pause [] r bytes
  | .closed rest => .onward [.partHeaderDone r.index] { r with phase := .partData } rest
  | .field f size rest =>
    .onward (Event.ofField (.part r.index) f) { r with phase := .partHeader size } rest

def bodyTurn (r : Reader) (bytes : Bytes) : Turn :=
  let data := within r.remaining bytes
  let next := { r with seen := r.seen + data.length }
  let rest := bytes.drop data.length
  if next.remaining = some 0 then
    .onward (Event.ofData .body data ++ [.dataDone .body]) { next with phase := .done } rest
  else .pause (Event.ofData .body data) next rest

def chunkLineTurn (r : Reader) (bytes : Bytes) : Turn :=
  match takeLine chunkLineRoom bytes with
  | .tooLong => .fault [] .chunkStartTooLong
  | .unfinished => .pause [] r bytes
  | .whole line rest =>
    match ChunkLine.ofLine line with
    | .error e => .fault [] e
    | .ok chunk =>
      let told := chunk.extensions.map (Event.extension r.index)
      match chunk.fault with
      | some e => .fault told e
      | none =>
        if chunk.size = 0 then
          .onward (told ++ [.extensionsDone r.index, .chunksDone]) { r with phase := .trailer 0 } rest
        else
          .onward (told ++ [.extensionsDone r.index]) { r with phase := .chunkData chunk.size } rest

def chunkDataTurn (r : Reader) (missing : Nat) (bytes : Bytes) : Turn :=
  let data := bytes.take missing
  let told := Event.ofData (.chunk r.index) data
  let next := { r with
    seen := r.seen + data.length
    phase := .chunkData (missing - data.length) }
  let rest := bytes.drop missing
  if data.length < missing then .pause told next rest
  else
    match opening crlf rest with
    | .undecided => .pause told next rest
    | .absent => .fault told .chunkDataMalformed
    | .present rest =>
      .onward (told ++ [.dataDone (.chunk r.index)])
        { next with index := r.index + 1, phase := .chunkLine } rest

inductive Closing where
  | part (rest : Bytes)
  | last (rest : Bytes)
  | undecided
  | neither

def closing (bytes : Bytes) : Closing :=
  match opening crlf bytes, opening dashes bytes with
  | .present rest, _ => .part rest
  | _, .present rest => .last rest
  | .absent, .absent => .neither
  | _, _ => .undecided

-- While the end of the boundary is open, the reader goes back to `back`, where it begins.
def afterFirst (r : Reader) (told : List Event) (back rest : Bytes) : Turn :=
  match closing rest with
  | .part rest => .onward (told ++ [.dataDone .preamble]) { r with phase := .partHeader 0 } rest
  | .last _ => .fault told .multipartMissingPart
  | .undecided => .pause told r back
  | .neither => .fault told .multipartInvalidFraming

-- Only at the very start of the body may the first boundary lack its CRLF.
def preambleTurn (r : Reader) (bytes : Bytes) : Turn :=
  match if r.seen = 0 then opening r.framing.opener bytes else .absent with
  | .present rest => afterFirst r [] bytes rest
  | .undecided => .pause [] r bytes
  | .absent =>
    match seek r.framing.delimiter bytes with
    | .missing free held => .pause (Event.ofData .preamble free) r held
    | .found data rest =>
      afterFirst r (Event.ofData .preamble data) (r.framing.delimiter ++ rest) rest

def partDataTurn (r : Reader) (bytes : Bytes) : Turn :=
  match seek r.framing.delimiter bytes with
  | .missing free held => .pause (Event.ofData (.part r.index) free) r held
  | .found data rest =>
    .onward (Event.ofData (.part r.index) data ++ [.dataDone (.part r.index)])
      { r with index := r.index + 1, phase := .partEnd } rest

def partEndTurn (r : Reader) (bytes : Bytes) : Turn :=
  match closing bytes with
  | .part rest => .onward [] { r with phase := .partHeader 0 } rest
  | .last rest => .onward [.partsDone] { r with phase := .epilogue false } rest
  | .undecided => .pause [] r bytes
  | .neither => .fault [] .multipartInvalidFraming

def expectsMore (r : Reader) (bytes : Bytes) : Bool :=
  match r.remaining with
  | none => true
  | some n => bytes.length < n

def drain (r : Reader) (whole data : Bytes) : Turn :=
  if r.expectsMore whole then
    .pause (Event.ofData .epilogue data) { r with phase := .epilogue true } []
  else
    .onward (Event.ofData .epilogue data ++ [.dataDone .epilogue]) { r with phase := .done } []

def epilogueTurn (r : Reader) (opened : Bool) (bytes : Bytes) : Turn :=
  if opened then drain r bytes bytes
  else
    match opening crlf bytes with
    | .present rest => drain r bytes rest
    | .undecided => if r.expectsMore bytes then .pause [] r bytes else drain r bytes bytes
    | .absent => drain r bytes bytes

def lack? : Phase → Option Error
  | .epilogue _ => none
  | .preamble => some .multipartMissingPart
  | _ => some .multipartMissingFinalBoundary

-- A turn that waits although the body has ended will wait in vain.
def inBody (r : Reader) (turn : Reader → Bytes → Turn) (bytes : Bytes) : Turn :=
  let own := within r.remaining bytes
  let beyond := bytes.drop own.length
  let count (next : Reader) (rest : Bytes) : Reader :=
    { next with seen := r.seen + (own.length - rest.length) }
  match turn r own with
  | .fault told e => .fault told e
  | .onward told next rest => .onward told (count next rest) (rest ++ beyond)
  | .pause told next rest =>
    match if r.expectsMore own then none else lack? r.phase with
    | some e => .fault told e
    | none => .pause told (count next rest) (rest ++ beyond)

def turn (r : Reader) (bytes : Bytes) : Turn :=
  match r.phase with
  | .start => startTurn r bytes
  | .startLine => startLineTurn r bytes
  | .header size => headerTurn r size bytes
  | .body => bodyTurn r bytes
  | .chunkLine => chunkLineTurn r bytes
  | .chunkData missing => chunkDataTurn r missing bytes
  | .trailer size => trailerTurn r size bytes
  | .preamble => inBody r preambleTurn bytes
  | .partHeader size => inBody r (partHeaderTurn · size ·) bytes
  | .partData => inBody r partDataTurn bytes
  | .partEnd => inBody r partEndTurn bytes
  | .epilogue opened => inBody r (epilogueTurn · opened ·) bytes
  | .done => .pause [] r bytes

end HttpWire.Reader
