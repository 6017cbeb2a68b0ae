import HttpWire.Cursor
import HttpWire.Field
import HttpWire.StartLine

namespace HttpWire

structure Extension where
  name : Text
  value : Option Text
  deriving DecidableEq

namespace Extension

def quote : UInt8 := 0x22

-- Bare, a value is not empty and does not begin with a quote.
def value? : Bytes → Option Bytes
  | [] => none
  | b :: rest =>
    if b = quote then
      if rest.getLast? = some quote then some rest.dropLast else none
    else some (b :: rest)

def named? (name : Bytes) (value : Option Text) : Option Extension :=
  match trimBoth Text.isSpaceByte name with
  | [] => none
  | name => some ⟨Utf8.lossy name, value⟩

def ofPiece? (piece : Bytes) : Option Extension :=
  match cutAt 0x3D (trimBoth Text.isSpaceByte piece) with
  | none => named? (trimBoth Text.isSpaceByte piece) none
  | some (name, value) =>
    (value? (trimBoth Text.isSpaceByte value)).bind fun value => named? name (some (Utf8.lossy value))

def pieces : Bool → Bytes → List Bytes
  | _, [] => [[]]
  | quoted, b :: rest =>
    if b = 0x3B ∧ quoted = false then [] :: pieces quoted rest
    else growFirst b (pieces (quoted != (b == quote)) rest)

def ofPieces : List Bytes → List Extension × Bool
  | [] => ([], true)
  | piece :: rest =>
    match ofPiece? piece with
    | none => ([], false)
    | some e =>
      let later := ofPieces rest
      (e :: later.1, later.2)

end Extension

structure ChunkLine where
  size : Nat
  extensions : List Extension := []
  fault : Option Error := none

namespace ChunkLine

def ofLine (line : Bytes) : Except Error ChunkLine :=
  match Numeral.readWord 16 line with
  | none => .error .chunkLengthInvalid
  | some (size, rest) =>
    match rest.dropWhile Text.isBlankByte with
    | [] => .ok { size }
    | b :: list =>
      if b = 0x3B then
        let read := Extension.ofPieces (Extension.pieces false list)
        let fault := if read.2 then none else some Error.chunkExtensionMalformed
        .ok { size, extensions := read.1, fault }
      else .error .chunkMalformed

end ChunkLine

inductive BodyFormat where
  | empty
  | raw
  | chunked
  | multipart
  deriving DecidableEq

structure Framing where
  format : BodyFormat := .empty
  declared : Option Nat := none
  boundary : Option Bytes := none
  deriving DecidableEq

namespace Framing

def boundaryLimit : Nat := 70

def length? (value : Text) : Option Nat := Numeral.below? Numeral.wordBound value

def endsChunked (value : Text) : Bool :=
  Text.beginsWithName (Text.trim ((splitAll ',' value).getLast?.getD [])) "chunked"

def boundary? (value : Text) : Except Error (Option Bytes) :=
  let media := MediaType.ofValue value
  if media.isMultipart then
    let boundary := Utf8.encode ((media.valuesOf "boundary").headD [])
    if boundary = [] ∨ boundaryLimit < boundary.length then .error .multipartNoBoundary
    else .ok (some boundary)
  else .ok none

def noteLength (fr : Framing) (value : Text) : Except Error Framing :=
  if fr.format = .chunked ∨ fr.declared.isSome then .error .headerDuplicateFraming
  else
    match length? value with
    | none => .error .contentLengthMalformed
    | some length =>
      let format :=
        if length = 0 then .empty
        else if fr.format = .multipart then .multipart
        else .raw
      .ok { fr with declared := some length, format }

def noteCoding (fr : Framing) (value : Text) : Except Error Framing :=
  if endsChunked value then
    if fr.declared.isSome then .error .headerDuplicateFraming
    else .ok { fr with format := .chunked }
  else .ok fr

-- The boundary is remembered even where chunks or an empty body prevail.
def noteType (fr : Framing) (value : Text) : Except Error Framing :=
  (boundary? value).map fun
    | none => fr
    | some boundary =>
      { fr with
        boundary := some boundary
        format := if fr.format = .chunked ∨ fr.declared = some 0 then fr.format else .multipart }

def note (fr : Framing) (f : Field) : Except Error Framing :=
  if f.name.named "content-length" then fr.noteLength f.value
  else if f.name.named "transfer-encoding" then fr.noteCoding f.value
  else if f.name.named "content-type" then fr.noteType f.value
  else .ok fr

-- Without a length and without chunks a request has no body, and may then not promise parts.
def settleRequest (fr : Framing) (bodyless : Bool) : Except Error Framing :=
  if fr.format = .chunked ∨ fr.declared.isSome then .ok fr
  else if fr.format = .multipart ∧ !bodyless then .error .multipartInvalid
  else .ok { fr with format := .empty }

def settleResponse (fr : Framing) (status : Nat) : Framing :=
  if Status.bodyless status then { fr with format := .empty }
  else if fr.format = .chunked ∨ fr.declared.isSome ∨ fr.format = .multipart then fr
  else { fr with format := .raw }

def settle (fr : Framing) : Sender → Except Error Framing
  | .unknown => fr.settleRequest false
  | .client method => fr.settleRequest method.bodyless
  | .server status => .ok (fr.settleResponse status)

def opener (fr : Framing) : Bytes := dashes ++ fr.boundary.getD []

def delimiter (fr : Framing) : Bytes := crlf ++ fr.opener

theorem delimiter_length (fr : Framing) : 4 ≤ fr.delimiter.length := by
  simp [delimiter, opener, crlf, dashes]

end Framing
end HttpWire
