import HttpWire.Cursor
import HttpWire.Reader.Read

-- A subtraction that would go below zero stops the machine, and so does a cut of the boundary that is
-- not in it.
namespace HttpWire

inductive Step where
  | unknown
  | startLine
  | header
  | body
  | chunkStart
  | chunkData
  | trailer
  | preamble
  | partHeader
  | partData
  | checkEnd
  | epilogue
  | done
  deriving DecidableEq

structure Registers where
  skipStartLine : Bool := false
  step : Step := .unknown
  sender : Sender := .unknown
  format : BodyFormat := .empty
  declared : Option Nat := none
  seen : Nat := 0
  headerBytes : Nat := 0
  boundary : Bytes := []
  index : Nat := 0
  havePart : Bool := false
  haveEnd : Bool := false
  haveEpilogue : Bool := false
  chunkRemaining : Nat := 0
  consumed : Nat := 0
  deriving DecidableEq

inductive Verdict where
  | onward
  | wait
  | failed (e : Error)
  | trapped
  deriving DecidableEq

structure Done (σ : Type) where
  registers : Registers
  cursor : Cursor
  state : σ
  verdict : Verdict

namespace Cursor

def takeWithin (c : Cursor) : Option Nat → Bytes × Cursor
  | some limit => c.take limit
  | none => c.take c.rest.length

def within (c : Cursor) : Option Nat → Cursor
  | some limit => c.limit limit
  | none => c

end Cursor

namespace Registers

variable {σ : Type}

def remaining (m : Registers) : Option Nat := m.declared.map (· - m.seen)

def framing (m : Registers) : Framing :=
  { format := m.format
    declared := m.declared
    boundary := if m.boundary = [] then none else some (m.boundary.drop 4) }

def announce (handler : Handler σ) (s : σ) (events : List Event) (m : Registers) (cur : Cursor)
    (next : σ → Done σ) : Done σ :=
  match handler.deliver s events with
  | (t, some e) => ⟨m, cur, t, .failed e⟩
  | (t, none) => next t

def minus (m : Registers) (cur : Cursor) (s : σ) (a b : Nat) (next : Nat → Done σ) : Done σ :=
  if b ≤ a then next (a - b) else ⟨m, cur, s, .trapped⟩

section Sections

def unknownTurn (m : Registers) (cur : Cursor) (s : σ) : Done σ :=
  if m.skipStartLine then ⟨{ m with step := .header }, cur, s, .onward⟩
  else
    let cur := cur.advance (cur.rest.length - (Reader.skipEmptyLines cur.rest).length)
    match opening crlf cur.rest with
    | .undecided => ⟨m, cur, s, .wait⟩
    | _ => ⟨{ m with step := .startLine }, cur, s, .onward⟩

def startLineTurn (m : Registers) (handler : Handler σ) (cur : Cursor) (s : σ) : Done σ :=
  match takeLine Reader.startLineRoom cur.rest with
  | .tooLong => ⟨m, cur, s, .failed .startLineTooLong⟩
  | .unfinished => ⟨m, cur, s, .wait⟩
  | .whole line _ =>
    let cur := cur.advance (line.length + 2)
    match StartLine.ofLine line with
    | .error e => ⟨m, cur, s, .failed e⟩
    | .ok start =>
      let m := { m with sender := start.sender }
      announce handler s [.start start] m cur fun s => ⟨{ m with step := .header }, cur, s, .onward⟩

def noteLength (m : Registers) (value : Text) : Except Error Registers :=
  if m.format = .chunked ∨ m.declared.isSome then .error .headerDuplicateFraming
  else
    match Framing.length? value with
    | none => .error .contentLengthMalformed
    | some length =>
      let m := { m with declared := some length }
      if length = 0 then .ok { m with format := .empty }
      else if m.format ≠ .multipart then .ok { m with format := .raw }
      else .ok m

def noteCoding (m : Registers) (value : Text) : Except Error Registers :=
  if Framing.endsChunked value then
    if m.declared.isSome then .error .headerDuplicateFraming
    else .ok { m with format := .chunked, declared := none }
  else .ok m

def noteType (m : Registers) (value : Text) : Except Error Registers :=
  match Framing.boundary? value with
  | .error e => .error e
  | .ok none => .ok m
  | .ok (some boundary) =>
    let m := { m with boundary := crlf ++ (dashes ++ boundary) }
    if m.format ≠ .chunked ∧ m.declared ≠ some 0 then .ok { m with format := .multipart }
    else .ok m

def note (m : Registers) (f : Field) : Except Error Registers :=
  if f.name.named "content-length" then m.noteLength f.value
  else if f.name.named "transfer-encoding" then m.noteCoding f.value
  else if f.name.named "content-type" then m.noteType f.value
  else .ok m

-- A field counts for the framing before it is announced.
def fieldTurn (m : Registers) (handler : Handler σ) (cur : Cursor) (s : σ) (place : Section) (f : Field) :
    Done σ :=
  match if place = .header then m.note f else .ok m with
  | .error e => ⟨m, cur, s, .failed e⟩
  | .ok m => announce handler s (Event.ofField place f) m cur fun s => ⟨m, cur, s, .onward⟩

def sectionTurn (m : Registers) (handler : Handler σ) (cur : Cursor) (s : σ) (place : Section)
    (ended : Registers → Cursor → σ → Done σ) : Done σ :=
  match cur.upTo? crlf true with
  | none =>
    if Reader.sectionRoom < m.headerBytes + openLength cur.rest + 2 then
      ⟨m, cur, s, .failed .headerTooLong⟩
    else ⟨m, cur, s, .wait⟩
  | some (line, cur) =>
    let m := { m with headerBytes := m.headerBytes + line.length + 2 }
    if Reader.sectionRoom < m.headerBytes then ⟨m, cur, s, .failed .headerTooLong⟩
    else if line = [] then ended { m with headerBytes := 0 } cur s
    else
      match Field.ofLine line with
      | .error e => ⟨m, cur, s, .failed e⟩
      | .ok f => m.fieldTurn handler cur s place f

def bodyStep : BodyFormat → Step
  | .empty => .done
  | .raw => .body
  | .chunked => .chunkStart
  | .multipart => .preamble

def headerTurn (m : Registers) (handler : Handler σ) (cur : Cursor) (s : σ) : Done σ :=
  m.sectionTurn handler cur s .header fun m cur s =>
    match m.framing.settle m.sender with
    | .error e => ⟨m, cur, s, .failed e⟩
    | .ok framing =>
      let m := { m with format := framing.format }
      announce handler s [.headerDone m.format] m cur fun s =>
        ⟨{ m with step := bodyStep m.format }, cur, s, .onward⟩

def trailerTurn (m : Registers) (handler : Handler σ) (cur : Cursor) (s : σ) : Done σ :=
  m.sectionTurn handler cur s .trailer fun m cur s =>
    announce handler s [.trailerDone] m cur fun s => ⟨{ m with step := .done }, cur, s, .onward⟩

def partHeaderTurn (m : Registers) (handler : Handler σ) (cur : Cursor) (s : σ) : Done σ :=
  m.sectionTurn handler cur s (.part m.index) fun m cur s =>
    announce handler s [.partHeaderDone m.index] m cur fun s =>
      ⟨{ m with step := .partData }, cur, s, .onward⟩

end Sections

section Bodies

def bodyTurn (m : Registers) (handler : Handler σ) (cur : Cursor) (s : σ) : Done σ :=
  let taken := cur.takeWithin m.remaining
  let m := { m with seen := m.seen + taken.1.length }
  announce handler s (Event.ofData .body taken.1) m taken.2 fun s =>
    if m.remaining ≠ some 0 then ⟨m, taken.2, s, .wait⟩
    else
      announce handler s [.dataDone .body] m taken.2 fun s =>
        ⟨{ m with step := .done }, taken.2, s, .onward⟩

def chunkStartTurn (m : Registers) (handler : Handler σ) (cur : Cursor) (s : σ) : Done σ :=
  match takeLine Reader.chunkLineRoom cur.rest with
  | .tooLong => ⟨m, cur, s, .failed .chunkStartTooLong⟩
  | .unfinished => ⟨m, cur, s, .wait⟩
  | .whole line _ =>
    let cur := cur.advance (line.length + 2)
    match ChunkLine.ofLine line with
    | .error e => ⟨m, cur, s, .failed e⟩
    | .ok chunk =>
      announce handler s (chunk.extensions.map (Event.extension m.index)) m cur fun s =>
        match chunk.fault with
        | some e => ⟨m, cur, s, .failed e⟩
        | none =>
          announce handler s [.extensionsDone m.index] m cur fun s =>
            if chunk.size = 0 then
              announce handler s [.chunksDone] m cur fun s =>
                ⟨{ m with headerBytes := 0, step := .trailer }, cur, s, .onward⟩
            else ⟨{ m with chunkRemaining := chunk.size, step := .chunkData }, cur, s, .onward⟩

def chunkEndTurn (m : Registers) (handler : Handler σ) (cur : Cursor) (s : σ) : Done σ :=
  match opening crlf cur.rest with
  | .present _ =>
    let cur := cur.advance 2
    announce handler s [.dataDone (.chunk m.index)] m cur fun s =>
      ⟨{ m with index := m.index + 1, step := .chunkStart }, cur, s, .onward⟩
  | .undecided => ⟨m, cur, s, .wait⟩
  | .absent => ⟨m, cur, s, .failed .chunkDataMalformed⟩

def chunkDataTurn (m : Registers) (handler : Handler σ) (cur : Cursor) (s : σ) : Done σ :=
  if m.chunkRemaining ≠ 0 then
    let taken := cur.take m.chunkRemaining
    if taken.1 = [] then ⟨m, taken.2, s, .wait⟩
    else
      minus m taken.2 s m.chunkRemaining taken.1.length fun left =>
        let m := { m with chunkRemaining := left, seen := m.seen + taken.1.length }
        announce handler s (Event.ofData (.chunk m.index) taken.1) m taken.2 fun s =>
          if left ≠ 0 then ⟨m, taken.2, s, .wait⟩ else m.chunkEndTurn handler taken.2 s
  else m.chunkEndTurn handler cur s

end Bodies

section Parts

def awaitsMore (m : Registers) (bytes : Bytes) : Bool :=
  match m.remaining with
  | none => true
  | some remaining => bytes.length < remaining

def exhaustedBy (m : Registers) (bytes : Bytes) : Bool :=
  match m.remaining with
  | none => false
  | some remaining => remaining ≤ bytes.length

def afterFirst (m : Registers) (handler : Handler σ) (before : Nat) (cur : Cursor) (s : σ) : Done σ :=
  match Reader.closing cur.rest with
  | .part _ =>
    let cur := cur.advance 2
    announce handler s [.dataDone .preamble] m cur fun s =>
      ⟨{ m with havePart := true, step := .partHeader }, cur, s, .onward⟩
  | .last _ => ⟨m, cur, s, .failed .multipartMissingPart⟩
  | .undecided => ⟨m, cur.rewind before, s, .wait⟩
  | .neither => ⟨m, cur, s, .failed .multipartInvalidFraming⟩

def preambleTurn (m : Registers) (handler : Handler σ) (cur : Cursor) (s : σ) : Done σ :=
  if m.boundary.length < 2 then ⟨m, cur, s, .trapped⟩
  else
    let opener := m.boundary.drop 2
    match if m.seen = 0 then opening opener cur.rest else .absent with
    | .undecided => ⟨m, cur, s, .wait⟩
    | .present _ => m.afterFirst handler cur.position (cur.advance opener.length) s
    | .absent =>
      match cur.upToBoundary m.boundary false with
      | (data, found, cur) =>
        announce handler s (Event.ofData .preamble data) m cur fun s =>
          if found then m.afterFirst handler cur.position (cur.advance m.boundary.length) s
          else ⟨m, cur, s, .wait⟩

def partDataTurn (m : Registers) (handler : Handler σ) (cur : Cursor) (s : σ) : Done σ :=
  match cur.upToBoundary m.boundary true with
  | (data, found, cur) =>
    announce handler s (Event.ofData (.part m.index) data) m cur fun s =>
      if found then
        announce handler s [.dataDone (.part m.index)] m cur fun s =>
          ⟨{ m with index := m.index + 1, step := .checkEnd }, cur, s, .onward⟩
      else ⟨m, cur, s, .wait⟩

def checkEndTurn (m : Registers) (handler : Handler σ) (cur : Cursor) (s : σ) : Done σ :=
  match Reader.closing cur.rest with
  | .last _ =>
    let cur := cur.advance 2
    let m := { m with haveEnd := true }
    announce handler s [.partsDone] m cur fun s => ⟨{ m with step := .epilogue }, cur, s, .onward⟩
  | .part _ => ⟨{ m with step := .partHeader }, cur.advance 2, s, .onward⟩
  | .undecided => ⟨m, cur, s, .wait⟩
  | .neither => ⟨m, cur, s, .failed .multipartInvalidFraming⟩

def drainTurn (m : Registers) (handler : Handler σ) (start : Nat) (cur : Cursor) (s : σ) : Done σ :=
  let taken := cur.take cur.rest.length
  announce handler s (Event.ofData .epilogue taken.1) m taken.2 fun s =>
    match m.remaining with
    | none => ⟨m, taken.2, s, .wait⟩
    | some remaining =>
      minus m taken.2 s remaining (taken.2.position - start) fun left =>
        if left ≠ 0 then ⟨m, taken.2, s, .wait⟩
        else
          announce handler s [.dataDone .epilogue] m taken.2 fun s =>
            ⟨{ m with step := .done }, taken.2, s, .onward⟩

def epilogueTurn (m : Registers) (handler : Handler σ) (cur : Cursor) (s : σ) : Done σ :=
  let start := cur.position
  let opened := { m with haveEpilogue := true }
  if m.haveEpilogue then m.drainTurn handler start cur s
  else
    match opening crlf cur.rest with
    | .present _ => opened.drainTurn handler start (cur.advance 2) s
    | .undecided =>
      if m.awaitsMore cur.rest then ⟨m, cur, s, .wait⟩ else opened.drainTurn handler start cur s
    | .absent => opened.drainTurn handler start cur s

-- To wait for more of a body that has ended is in vain, unless the last boundary is behind.
def concluded (m : Registers) (exhausted : Bool) : Verdict → Verdict
  | .wait =>
    if exhausted = true ∧ m.haveEnd = false then
      .failed (if m.havePart then .multipartMissingFinalBoundary else .multipartMissingPart)
    else .wait
  | verdict => verdict

def multipartTurn (m : Registers) (handler : Handler σ) (cur : Cursor) (s : σ)
    (inner : Registers → Handler σ → Cursor → σ → Done σ) : Done σ :=
  let body := cur.within m.remaining
  let exhausted := m.exhaustedBy body.rest
  let ran := inner m handler body s
  minus ran.registers cur ran.state ran.cursor.position cur.position fun used =>
    let next := { ran.registers with seen := ran.registers.seen + used }
    ⟨next, cur.advance used, ran.state, next.concluded exhausted ran.verdict⟩

end Parts

section Calls

def turn (m : Registers) (handler : Handler σ) (cur : Cursor) (s : σ) : Done σ :=
  match m.step with
  | .unknown => m.unknownTurn cur s
  | .startLine => m.startLineTurn handler cur s
  | .header => m.headerTurn handler cur s
  | .body => m.bodyTurn handler cur s
  | .chunkStart => m.chunkStartTurn handler cur s
  | .chunkData => m.chunkDataTurn handler cur s
  | .trailer => m.trailerTurn handler cur s
  | .preamble => m.multipartTurn handler cur s preambleTurn
  | .partHeader => m.multipartTurn handler cur s partHeaderTurn
  | .partData => m.multipartTurn handler cur s partDataTurn
  | .checkEnd => m.multipartTurn handler cur s checkEndTurn
  | .epilogue => m.multipartTurn handler cur s epilogueTurn
  | .done => ⟨m, cur, s, .wait⟩

-- A call that does not end within its rounds is endless.
inductive Halt where
  | failed (e : Error)
  | trapped
  | endless
  deriving DecidableEq

def loop (handler : Handler σ) : Nat → Registers → Cursor → σ → σ × Except Halt (Registers × Cursor)
  | 0, _, _, s => (s, .error .endless)
  | rounds + 1, m, cur, s =>
    let ran := m.turn handler cur s
    match ran.verdict with
    | .onward => loop handler rounds ran.registers ran.cursor ran.state
    | .wait => (ran.state, .ok (ran.registers, ran.cursor))
    | .failed e => (ran.state, .error (.failed e))
    | .trapped => (ran.state, .error .trapped)

def read (m : Registers) (handler : Handler σ) (s : σ) (bytes : Bytes) :
    σ × Except Halt (Registers × Bytes) :=
  match loop handler (bytes.length + 3) m (Cursor.ofBytes bytes) s with
  | (t, .error halt) => (t, .error halt)
  | (t, .ok (next, cur)) => (t, .ok ({ next with consumed := next.consumed + cur.position }, cur.rest))

def ending (m : Registers) (handler : Handler σ) (s : σ) (place : Place) : σ × Except Error Registers :=
  match handler s (.dataDone place) with
  | (t, some e) => (t, .error e)
  | (t, none) => (t, .ok { m with step := .done })

def finish (m : Registers) (handler : Handler σ) (s : σ) : σ × Except Error Registers :=
  match m.step with
  | .done => (s, .ok m)
  | .body => if m.declared.isNone then m.ending handler s .body else (s, .error .moreData)
  | .epilogue => if m.declared.isNone then m.ending handler s .epilogue else (s, .error .moreData)
  | _ => (s, .error .moreData)

end Calls

end Registers
end HttpWire
