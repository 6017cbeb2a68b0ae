import HttpWire.Proofs.FieldSection
import HttpWire.Proofs.Joining
import HttpWire.Proofs.Fragments
import HttpWire.Proofs.Reached

namespace HttpWire

structure PartForm where
  lines : List Bytes
  fields : List Field
  data : Bytes

-- A body without a preamble begins with its first boundary, which then lacks its CRLF.
structure MultipartForm where
  preamble : Option Bytes
  parts : List PartForm
  epilogue : Bytes

namespace PartForm

def bytes (p : PartForm) : Bytes := sectionBytes p.lines ++ p.data

structure WellFormed (mark : Bytes) (p : PartForm) : Prop where
  fields : List.Forall₂ FieldLine p.lines p.fields
  room : (sectionBytes p.lines).length ≤ 8192
  free : ¬ mark <:+: p.data

def events (index : Nat) (p : PartForm) : List Event :=
  p.fields.flatMap (Event.ofField (.part index)) ++
    (.partHeaderDone index :: Event.ofData (.part index) p.data ++ [.dataDone (.part index)])

theorem joined_events (index : Nat) (p : PartForm) (later : List Event) :
    Event.joined (p.events index ++ later) = p.events index ++ Event.joined later := by
  have fields : ∀ e ∈ p.fields.flatMap (Event.ofField (.part index)) ++ [.partHeaderDone index],
      e.IsOther := by
    intro e member
    rcases List.mem_append.mp member with field | ended
    · obtain ⟨f, _, inside⟩ := List.mem_flatMap.mp field
      exact Event.ofField_others _ f e inside
    · rw [List.mem_singleton.mp ended]
      exact fun _ _ => nofun
  have split : ∀ more, p.events index ++ more
      = (p.fields.flatMap (Event.ofField (.part index)) ++ [.partHeaderDone index])
        ++ (Event.ofData (.part index) p.data ++ .dataDone (.part index) :: more) := by
    intro more
    simp [events]
  rw [split, Event.joined_others _ _ fields,
    Event.joined_data _ _ _ _ (Event.dataDone_isOther _), ← split]

end PartForm

namespace MultipartForm

def opener (boundary : Bytes) : Bytes := dashes ++ boundary

def mark (boundary : Bytes) : Bytes := crlf ++ opener boundary

def behind (mark : Bytes) (epilogue : Bytes) : List PartForm → Bytes
  | [] => dashes ++ epilogue
  | p :: parts => crlf ++ (p.bytes ++ (mark ++ behind mark epilogue parts))

def bytes (boundary : Bytes) (m : MultipartForm) : Bytes :=
  match m.preamble with
  | none => opener boundary ++ behind (mark boundary) m.epilogue m.parts
  | some data => data ++ (mark boundary ++ behind (mark boundary) m.epilogue m.parts)

structure WellFormed (boundary : Bytes) (m : MultipartForm) : Prop where
  nonempty : m.parts ≠ []
  parts : ∀ p ∈ m.parts, p.WellFormed (mark boundary)
  preamble : ∀ data, m.preamble = some data →
    ¬ mark boundary <:+: data ∧ ¬ opener boundary <+: m.bytes boundary

def partsEvents (index : Nat) : List PartForm → List Event
  | [] => []
  | p :: parts => p.events index ++ partsEvents (index + 1) parts

-- A CRLF in front of the epilogue ends the line of the last boundary.
def epilogueData (epilogue : Bytes) : Bytes :=
  if crlf <+: epilogue then epilogue.drop 2 else epilogue

def closingEvents (epilogue : Bytes) : List Event :=
  .partsDone :: Event.ofData .epilogue (epilogueData epilogue) ++ [.dataDone .epilogue]

def events (m : MultipartForm) : List Event :=
  Event.ofData .preamble (m.preamble.getD []) ++
    (.dataDone .preamble :: partsEvents 0 m.parts ++ closingEvents m.epilogue)

theorem joined_partsEvents (index : Nat) (parts : List PartForm) (later : List Event) :
    Event.joined (partsEvents index parts ++ later)
      = partsEvents index parts ++ Event.joined later := by
  induction parts generalizing index with
  | nil => rfl
  | cons p parts ih =>
    rw [partsEvents, List.append_assoc, PartForm.joined_events, ih, List.append_assoc]

theorem joined_events (m : MultipartForm) : Event.joined m.events = m.events := by
  have closing : Event.joined (closingEvents m.epilogue) = closingEvents m.epilogue := by
    unfold closingEvents
    rw [List.cons_append, Event.joined_cons, Event.joined_data _ _ _ _ (Event.dataDone_isOther _)]
    exact Event.joinOnto_other _ _ fun _ _ => nofun
  unfold events
  rw [List.cons_append, Event.joined_data _ _ _ _ (Event.dataDone_isOther _),
    joined_partsEvents, closing]

end MultipartForm
end HttpWire

-- A body in parts of a declared length is read to its end if and only if it has the form
-- of one. Each phase takes one piece of the form; what it leaves is the rest of the form.
namespace HttpWire.Reader

section Marks

end Marks

section Outcomes

variable {r next : Reader} {bytes rest : Bytes} {now told : List Event} {x : Reading}

end Outcomes

section Phases

-- The reader in a phase, with so many bytes of the body still to come.
def placed (r : Reader) (phase : Phase) (index : Nat) (left : Bytes) : Reader :=
  { r with phase, index, seen := r.framing.declared.getD 0 - left.length }

-- The declared length reaches to the end of what is left.
def Covers (r : Reader) (left : Bytes) : Prop :=
  ∃ n, r.framing.declared = some n ∧ left.length ≤ n

variable {r : Reader} {left beyond rest : Bytes} {phase phase' : Phase} {index index' : Nat}
  {f : Reader → Bytes → Turn} {now told : List Event} {x : Reading} {e : Error}

theorem Covers.after {taken : Bytes} (covers : Covers r left) (whole : left = taken ++ rest) :
    Covers r rest := by
  obtain ⟨n, declared, fits⟩ := covers
  refine ⟨n, declared, ?_⟩
  rw [whole, List.length_append] at fits
  omega

variable (covers : Covers r left)
  (here : turn (placed r phase index left) (left ++ beyond)
    = inBody (placed r phase index left) f (left ++ beyond))

include covers here

end Phases

section Pieces

variable {r : Reader} {left beyond : Bytes} {index : Nat} {told : List Event} {x : Reading}
  {mark : Bytes}

end Pieces

section Preamble

variable {r : Reader} {left beyond : Bytes} {index : Nat} {now told : List Event} {x : Reading}
  {boundary : Bytes}

-- How a body begins, up to the end of its first boundary.
def Begins (boundary : Bytes) (preamble : Option Bytes) (body rest : Bytes) : Prop :=
  match preamble with
  | none => body = MultipartForm.opener boundary ++ (crlf ++ rest)
  | some data =>
    body = data ++ (MultipartForm.mark boundary ++ (crlf ++ rest)) ∧
      ¬ MultipartForm.mark boundary <:+: data ∧ ¬ MultipartForm.opener boundary <+: body

theorem Begins.split {preamble : Option Bytes} {rest : Bytes}
    (begins : Begins boundary preamble left rest) : ∃ taken, left = taken ++ rest := by
  cases preamble with
  | none => exact ⟨MultipartForm.opener boundary ++ crlf, begins.trans (List.append_assoc _ _ _).symm⟩
  | some data =>
    refine ⟨data ++ (MultipartForm.mark boundary ++ crlf), begins.1.trans ?_⟩
    simp only [List.append_assoc]

end Preamble

section Bodies

end Bodies

end HttpWire.Reader
