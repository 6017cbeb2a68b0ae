import HttpWire.Reader.Read

namespace HttpWire

structure Source where
  pieces : List Bytes
  failure : Option Text := none

inductive ReceiveError where
  | io (text : Text)
  | http (e : Error)
  | ended
  deriving DecidableEq

structure Received where
  reading : Reader.Reading
  source : Source

namespace ReceiveError

def message : ReceiveError → Text
  | io text => "io error: ".toList ++ text
  | http e => "http error: ".toList ++ e.message.toList
  | ended => "unexpected end of input".toList

def cause? : ReceiveError → Option Text
  | io text => some text
  | http e => some e.message.toList
  | ended => none

end ReceiveError

namespace Source

def pieceSize : Nat := 4096

def ofFragments (fragments : List Bytes) (failure : Option Text) : Source :=
  ⟨fragments.flatMap (piecesOf pieceSize), failure⟩

variable {σ : Type}

-- A message that still needs input when there is none has been cut off.
def close (handler : Handler σ) (s : σ) (x : Reader.Reading) : σ × Except ReceiveError Received :=
  match x.reader.finish handler s with
  | (s, .ok r) => (s, .ok ⟨{ x with reader := r }, ⟨[], none⟩⟩)
  | (s, .error .moreData) => (s, .error .ended)
  | (s, .error e) => (s, .error (.http e))

def receive (handler : Handler σ) (failure : Option Text) :
    List Bytes → σ → Reader.Reading → Bytes → σ × Except ReceiveError Received
  | pieces, s, x, more =>
    match x.push handler s more with
    | (s, .error e) => (s, .error (.http e))
    | (s, .ok x) =>
      if x.progress = .complete then (s, .ok ⟨x, ⟨pieces, failure⟩⟩)
      else
        match pieces with
        | piece :: later => receive handler failure later s x piece
        | [] =>
          match failure with
          | some text => (s, .error (.io text))
          | none => close handler s x

def readMessage (source : Source) (handler : Handler σ) (s : σ) (buffer : Bytes)
    (reader : Reader := {}) : σ × Except ReceiveError Received :=
  receive handler source.failure source.pieces s { reader } buffer

end Source
end HttpWire
