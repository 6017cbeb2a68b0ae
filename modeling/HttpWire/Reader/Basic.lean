import HttpWire.Framing

namespace HttpWire

inductive Section where
  | header
  | part (index : Nat)
  | trailer
  deriving DecidableEq

inductive Place where
  | body
  | chunk (index : Nat)
  | preamble
  | part (index : Nat)
  | epilogue
  deriving DecidableEq

inductive Event where
  | start (line : StartLine)
  | field (s : Section) (f : Field)
  | element (s : Section) (f : Field)
  | headerDone (format : BodyFormat)
  | partHeaderDone (index : Nat)
  | trailerDone
  | data (place : Place) (bytes : Bytes)
  | dataDone (place : Place)
  | extension (index : Nat) (e : Extension)
  | extensionsDone (index : Nat)
  | chunksDone
  | partsDone
  deriving DecidableEq

namespace Event

def ofField (s : Section) (f : Field) : List Event :=
  .field s f :: f.elements.map fun value => .element s ⟨f.name, value⟩

def ofData (place : Place) (bytes : Bytes) : List Event :=
  if bytes = [] then [] else [.data place bytes]

end Event

-- A handler may refuse an event, and then receives no more.
abbrev Handler (σ : Type) := σ → Event → σ × Option Error

namespace Handler

variable {σ : Type}

def deliver (handler : Handler σ) (s : σ) : List Event → σ × Option Error
  | [] => (s, none)
  | event :: events =>
    match handler s event with
    | (s, none) => deliver handler s events
    | (s, some e) => (s, some e)

def record : Handler (Array Event) := fun seen event => (seen.push event, none)

def refuseAt (handler : Handler σ) (n : Nat) (e : Error) : Handler (Nat × σ) :=
  fun s event =>
    if s.1 = n then ((s.1 + 1, s.2), some e)
    else
      let told := handler s.2 event
      ((s.1 + 1, told.1), told.2)

theorem deliver_record (seen : Array Event) (events : List Event) :
    deliver record seen events = (seen ++ events.toArray, none) := by
  induction events generalizing seen with
  | nil => simp [deliver]
  | cons event events ih =>
    have grown : seen.push event ++ events.toArray = seen ++ (event :: events).toArray :=
      Array.toList_inj.mp (by simp)
    rw [← grown]
    exact ih (seen.push event)

end Handler

-- A reader is a value: what it has learned so far and the phase it is in.
inductive Phase where
  | start
  | startLine
  | header (size : Nat)
  | body
  | chunkLine
  | chunkData (missing : Nat)
  | trailer (size : Nat)
  | preamble
  | partHeader (size : Nat)
  | partData
  | partEnd
  | epilogue (opened : Bool)
  | done
  deriving DecidableEq

inductive Progress where
  | complete
  | openEnded
  | incomplete
  deriving DecidableEq

structure Reader where
  skipStartLine : Bool := false
  phase : Phase := .start
  sender : Sender := .unknown
  framing : Framing := {}
  seen : Nat := 0
  index : Nat := 0
  consumed : Nat := 0
  deriving DecidableEq

namespace Reader

def startLineRoom : Nat := 6144 + 2
def sectionRoom : Nat := 8192
def chunkLineRoom : Nat := 1024 + 2

def isDone (r : Reader) : Bool := r.phase == .done

def remaining (r : Reader) : Option Nat := r.framing.declared.map (· - r.seen)

def isOpenEnded (r : Reader) : Bool :=
  match r.phase with
  | .body | .epilogue _ => r.framing.declared.isNone
  | _ => false

def progress (r : Reader) : Progress :=
  if r.isDone then .complete
  else if r.isOpenEnded then .openEnded
  else .incomplete

-- The events belong to the turn in every case, a fault included.
inductive Turn where
  | onward (events : List Event) (next : Reader) (rest : Bytes)
  | pause (events : List Event) (next : Reader) (rest : Bytes)
  | fault (events : List Event) (e : Error)

end Reader
end HttpWire
