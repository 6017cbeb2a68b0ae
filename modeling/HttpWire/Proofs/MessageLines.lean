import HttpWire.Proofs.CodedMessages
import HttpWire.Proofs.Passages
import HttpWire.Proofs.ReadMessages

-- What was announced of the lines of a message is what they are read as, one by one.
namespace HttpWire

structure PlainLine (line : Bytes) : Prop where
  nonempty : line ≠ []
  free : ¬ crlf <:+: line

instance (line : Bytes) : Decidable (PlainLine line) :=
  decidable_of_iff (line ≠ [] ∧ ¬ crlf <:+: line) ⟨fun ⟨nonempty, free⟩ => ⟨nonempty, free⟩,
    fun ⟨nonempty, free⟩ => ⟨nonempty, free⟩⟩

theorem FieldLine.plain {line : Bytes} {f : Field} (read : FieldLine line f) : PlainLine line :=
  ⟨read.nonempty, read.free⟩

structure SizedLine (line : Bytes) (size : Nat) : Prop where
  free : ¬ crlf <:+: line
  read : ∃ l, ChunkLine.ofLine line = .ok l ∧ l.size = size

inductive ChunkedBody : Bytes → List Bytes → Prop
  | last (line : Bytes) (lines : List Bytes) (sized : SizedLine line 0)
      (plain : ∀ line ∈ lines, PlainLine line) : ChunkedBody (line ++ (crlf ++ sectionBytes lines)) lines
  | chunk (line payload more : Bytes) (lines : List Bytes) (sized : SizedLine line payload.length)
      (filled : payload ≠ []) (later : ChunkedBody more lines) :
      ChunkedBody (line ++ (crlf ++ (payload ++ (crlf ++ more)))) lines

structure HeaderLines (bytes : Bytes) (lines : List Bytes) (rest : Bytes) : Prop where
  opened : ∃ blank start, PlainLine start ∧
    bytes = (List.replicate blank crlf).flatten ++ (start ++ (crlf ++ (sectionBytes lines ++ rest)))
  plain : ∀ line ∈ lines, PlainLine line

section Uniqueness

variable {bytes body other rest beyond : Bytes} {lines others : List Bytes}

theorem startLine_line {line : Bytes} {start : StartLine} (read : StartLine.ofLine line = .ok start) :
    PlainLine line :=
  have ⟨nonempty, free⟩ := Reader.startLine_plain line start read
  ⟨nonempty, crlf_absent line free⟩

theorem lines_plain {fields : List Field} (reads : List.Forall₂ FieldLine lines fields) :
    ∀ line ∈ lines, PlainLine line := by
  intro line member
  obtain ⟨i, inside, rfl⟩ := List.getElem_of_mem member
  obtain ⟨same, each⟩ := List.forall₂_iff_get.mp reads
  exact (each i inside (by omega)).plain

-- There is one way to cut bytes into a line and what stands behind it, and one into a section.
theorem line_unique {line first : Bytes} (free : ¬ crlf <:+: line) (also : ¬ crlf <:+: first)
    (same : line ++ (crlf ++ rest) = first ++ (crlf ++ beyond)) : line = first ∧ rest = beyond := by
  have cut := cutMark_line line rest free
  rw [same, cutMark_line first beyond also] at cut
  cases cut
  exact ⟨rfl, rfl⟩

theorem section_unique (plain : ∀ line ∈ lines, PlainLine line) (also : ∀ line ∈ others, PlainLine line)
    (same : sectionBytes lines ++ rest = sectionBytes others ++ beyond) :
    lines = others ∧ rest = beyond := by
  have ended : ¬ crlf <:+: ([] : Bytes) := by decide
  induction lines generalizing others with
  | nil =>
    cases others with
    | nil => exact ⟨rfl, List.append_cancel_left same⟩
    | cons first others =>
      have here := also first (List.mem_cons_self ..)
      rw [sectionBytes_cons, List.append_assoc, List.append_assoc] at same
      have cut : [] = first ∧ rest = _ := line_unique ended here.free same
      exact absurd cut.1.symm here.nonempty
  | cons line lines ih =>
    have here := plain line (List.mem_cons_self ..)
    rw [sectionBytes_cons, List.append_assoc, List.append_assoc] at same
    cases others with
    | nil =>
      have cut : line = [] ∧ _ = beyond := line_unique here.free ended same
      exact absurd cut.1 here.nonempty
    | cons first others =>
      rw [sectionBytes_cons, List.append_assoc, List.append_assoc] at same
      obtain ⟨rfl, behind⟩ := line_unique here.free (also first (List.mem_cons_self ..)).free same
      obtain ⟨rfl, rest⟩ := ih (fun line member => plain line (List.mem_cons_of_mem _ member))
        (fun line member => also line (List.mem_cons_of_mem _ member)) behind
      exact ⟨rfl, rest⟩

theorem SizedLine.unique {line : Bytes} {size length : Nat} (sized : SizedLine line size)
    (also : SizedLine line length) : size = length := by
  obtain ⟨chunk, read, rfl⟩ := sized.read
  obtain ⟨_, again, rfl⟩ := also.read
  rw [read] at again
  cases again
  rfl

theorem ChunkedBody.unique (chunked : ChunkedBody body lines) (also : ChunkedBody other others)
    (same : body ++ rest = other ++ beyond) : lines = others := by
  induction chunked generalizing other with
  | last line lines sized plain =>
    cases also with
    | last first others also free =>
      simp only [List.append_assoc] at same
      obtain ⟨rfl, behind⟩ := line_unique sized.free also.free same
      exact (section_unique plain free behind).1
    | chunk first payload more others also filled =>
      simp only [List.append_assoc] at same
      obtain ⟨rfl, -⟩ := line_unique sized.free also.free same
      exact absurd (List.length_eq_zero_iff.mp (sized.unique also).symm) filled
  | chunk line payload more lines sized filled later ih =>
    cases also with
    | last first others also =>
      simp only [List.append_assoc] at same
      obtain ⟨rfl, -⟩ := line_unique sized.free also.free same
      exact absurd (List.length_eq_zero_iff.mp (sized.unique also)) filled
    | chunk first data left others also real behind =>
      simp only [List.append_assoc] at same
      obtain ⟨rfl, onward⟩ := line_unique sized.free also.free same
      obtain ⟨rfl, ended⟩ := List.append_inj onward (sized.unique also)
      exact ih behind (List.append_cancel_left ended)

theorem skipped_line (blank : Nat) {start : Bytes} (plain : PlainLine start) (more : Bytes) :
    Reader.skipEmptyLines ((List.replicate blank crlf).flatten ++ (start ++ (crlf ++ more)))
      = start ++ (crlf ++ more) := by
  induction blank with
  | zero =>
    exact Reader.skipEmptyLines_absent _ (Reader.opening_line_absent start more plain.nonempty plain.free)
  | succ blank ih =>
    rw [List.replicate_succ, List.flatten_cons, List.append_assoc]
    exact ih

theorem HeaderLines.unique (header : HeaderLines bytes lines rest)
    (also : HeaderLines bytes others beyond) : lines = others ∧ rest = beyond := by
  obtain ⟨blank, start, plain, whole⟩ := header.opened
  obtain ⟨more, first, free, again⟩ := also.opened
  have left := skipped_line blank plain (sectionBytes lines ++ rest)
  rw [← whole, again, skipped_line more free] at left
  obtain ⟨-, behind⟩ := line_unique free.free plain.free left
  obtain ⟨rfl, rfl⟩ := section_unique also.plain header.plain behind
  exact ⟨rfl, rfl⟩

end Uniqueness

namespace Field

def each (f : Field) : List Field := f.elements.map (Field.mk f.name)

end Field

namespace Event

def trailed (events : List Event) : List Field :=
  events.filterMap fun
    | .element .trailer f => some f
    | _ => none

theorem trailed_append (first last : List Event) : trailed (first ++ last) = trailed first ++ trailed last :=
  List.filterMap_append

theorem trailed_other {event : Event} (other : ∀ f, event ≠ .element .trailer f) : trailed [event] = [] := by
  unfold trailed
  rw [List.filterMap_cons_none, List.filterMap_nil]
  split
  · exact absurd rfl (other _)
  · rfl

theorem trailed_field (f : Field) : trailed (ofField .trailer f) = f.each := by
  unfold trailed ofField Field.each
  rw [List.filterMap_cons_none rfl, List.filterMap_map]
  exact congrFun List.filterMap_eq_map' _

theorem trailed_data (place : Place) (bytes : Bytes) : trailed (ofData place bytes) = [] := by
  unfold ofData
  split <;> rfl

theorem trailed_extensions (index : Nat) (extensions : List Extension) :
    trailed (extensions.map (Event.extension index)) = [] := by
  simp [trailed]

end Event

namespace Reader

section Trailer

variable {x : Reading}

theorem done_found {r : Reader} {bytes : Bytes} (phase : r.phase = .done)
    (ended : (scan r bytes).result = .ok x) : (scan r bytes).events = [] ∧ x.rest = bytes := by
  have quiet : scan r bytes = ⟨[], .ok ⟨r, bytes⟩⟩ :=
    scan_pause _ _ _ _ _ (by simp only [turn, phase])
  rw [quiet] at ended ⊢
  cases ended
  exact ⟨rfl, rfl⟩

def inChunks : Phase → Bool
  | .chunkLine | .chunkData _ | .trailer _ => true
  | _ => false

variable {r next : Reader} {bytes rest : Bytes} {told : List Event}

theorem inChunks_incomplete (inside : inChunks r.phase = true) : r.progress = .incomplete := by
  unfold progress isDone isOpenEnded
  cases phase : r.phase with
  | chunkLine | chunkData | trailer => rfl
  | _ =>
    rw [phase] at inside
    cases inside

theorem Wait.inChunks {before after : Phase} (waits : Wait before after)
    (inside : inChunks before = true) : inChunks after = true := by
  cases waits with
  | same same => rwa [same]
  | chunkData => rfl
  | epilogue => cases inside

theorem trailer_found (r : Reader) (size : Nat) (phase : r.phase = .trailer size) (bytes : Bytes)
    (ended : (scan r bytes).result = .ok x) (enough : x.progress ≠ .incomplete) :
    ∃ lines fields, bytes = sectionBytes lines ++ x.rest ∧ List.Forall₂ FieldLine lines fields ∧
      Event.trailed (scan r bytes).events = fields.flatMap Field.each := by
  fun_induction scan r bytes generalizing size with
  | case1 r bytes told next rest ran later ih =>
    simp only [turn, phase, trailerTurn] at ran
    split at ran
    · cases ran
    · cases ran
    · rename_i closed
      obtain ⟨whole, -⟩ := (sectionLine_closed_iff _ _ _).mp closed
      cases ran
      obtain ⟨quiet, same⟩ := done_found rfl ended
      refine ⟨[], [], ?_, .nil, ?_⟩
      · rw [same]
        exact whole
      · rw [show later.events = [] from quiet]
        rfl
    · rename_i f after left taken
      cases ran
      obtain ⟨line, here, read, _, _⟩ := (sectionLine_field_iff _ _ _ _ _).mp taken
      obtain ⟨lines, fields, whole, reads, told⟩ := ih after rfl ended
      refine ⟨line :: lines, f :: fields, ?_, .cons read reads, ?_⟩
      · rw [here, whole, sectionBytes_cons, List.append_assoc, List.append_assoc]
      · rw [Event.trailed_append, Event.trailed_field, List.flatMap_cons]
        exact congrArg (f.each ++ ·) told
  | case2 r bytes told next rest ran =>
    cases ended
    have inside : inChunks r.phase = true := by rw [phase]; rfl
    exact absurd (inChunks_incomplete ((turn_waits ran).inChunks inside)) enough
  | case3 r bytes told e ran => cases ended

theorem chunkLine_found (phase : r.phase = .chunkLine) (ran : turn r bytes = .onward told next rest) :
    ∃ line size, SizedLine line size ∧ bytes = line ++ (crlf ++ rest) ∧ Event.trailed told = [] ∧
      (size = 0 ∧ next.phase = .trailer 0 ∨ size ≠ 0 ∧ next.phase = .chunkData size) := by
  simp only [turn, phase, chunkLineTurn] at ran
  split at ran
  · cases ran
  · cases ran
  · rename_i line left taken
    have whole := (takeLine_whole _ _ _ _ taken).1
    have free := takeLine_free _ _ _ _ taken
    split at ran
    · cases ran
    · rename_i chunk read
      have sized : SizedLine line chunk.size := ⟨free, chunk, read, rfl⟩
      split at ran
      · cases ran
      · split at ran
        · rename_i last
          cases ran
          refine ⟨line, chunk.size, sized, whole, ?_, .inl ⟨last, rfl⟩⟩
          rw [Event.trailed_append, Event.trailed_extensions]
          rfl
        · rename_i real
          cases ran
          refine ⟨line, chunk.size, sized, whole, ?_, .inr ⟨real, rfl⟩⟩
          rw [Event.trailed_append, Event.trailed_extensions]
          rfl

theorem chunkData_found {missing : Nat} (phase : r.phase = .chunkData missing)
    (ran : turn r bytes = .onward told next rest) :
    ∃ payload : Bytes, payload.length = missing ∧ bytes = payload ++ (crlf ++ rest) ∧
      Event.trailed told = [] ∧ next.phase = .chunkLine := by
  simp only [turn, phase, chunkDataTurn] at ran
  split at ran
  · cases ran
  · rename_i enough
    split at ran
    · cases ran
    · cases ran
    · rename_i behind
      cases ran
      refine ⟨bytes.take missing, ?_, ?_, ?_, rfl⟩
      · have most := List.length_take_le missing bytes
        omega
      · rw [← opening_present _ _ _ behind, List.take_append_drop]
      · rw [Event.trailed_append, Event.trailed_data]
        rfl

def Chunked (bytes rest : Bytes) (events : List Event) : Prop :=
  ∃ body lines fields, bytes = body ++ rest ∧ ChunkedBody body lines ∧
    List.Forall₂ FieldLine lines fields ∧ Event.trailed events = fields.flatMap Field.each

theorem Chunked.announce {events : List Event} (chunked : Chunked bytes rest events)
    (quiet : Event.trailed told = []) : Chunked bytes rest (told ++ events) := by
  obtain ⟨body, lines, fields, split, chunks, reads, trailed⟩ := chunked
  refine ⟨body, lines, fields, split, chunks, reads, ?_⟩
  rw [Event.trailed_append, quiet]
  exact trailed

theorem Chunked.behind {events : List Event} {line payload more : Bytes} (chunked : Chunked more rest events)
    (sized : SizedLine line payload.length) (filled : payload ≠ []) :
    Chunked (line ++ (crlf ++ (payload ++ (crlf ++ more)))) rest events := by
  obtain ⟨body, lines, fields, rfl, chunks, reads, trailed⟩ := chunked
  refine ⟨_, lines, fields, ?_, .chunk line payload body lines sized filled chunks, reads, trailed⟩
  simp only [List.append_assoc]

-- Chunk by chunk, a line with a size and then as many bytes.
theorem chunks_found (r : Reader) (bytes : Bytes) (ended : (scan r bytes).result = .ok x)
    (enough : x.progress ≠ .incomplete) :
    (r.phase = .chunkLine → Chunked bytes x.rest (scan r bytes).events) ∧
      ∀ missing, r.phase = .chunkData missing → ∃ payload more : Bytes, payload.length = missing ∧
        bytes = payload ++ (crlf ++ more) ∧ Chunked more x.rest (scan r bytes).events := by
  fun_induction scan r bytes with
  | case1 r bytes told next rest ran later ih =>
    have step := ih ended
    constructor
    · intro phase
      obtain ⟨line, size, sized, rfl, quiet, ⟨rfl, last⟩ | ⟨real, data⟩⟩ := chunkLine_found phase ran
      · obtain ⟨lines, fields, rfl, reads, trailed⟩ := trailer_found next 0 last rest ended enough
        have body := ChunkedBody.last line lines sized (lines_plain reads)
        exact .announce ⟨_, lines, fields, by simp only [List.append_assoc], body, reads, trailed⟩ quiet
      · obtain ⟨payload, more, rfl, rfl, chunked⟩ := step.2 size data
        exact (chunked.behind sized (List.ne_nil_of_length_pos (Nat.pos_of_ne_zero real))).announce quiet
    · intro missing phase
      obtain ⟨payload, length, whole, quiet, line⟩ := chunkData_found phase ran
      exact ⟨payload, rest, length, whole, (step.1 line).announce quiet⟩
  | case2 r bytes told next rest ran =>
    cases ended
    have inside : ¬ inChunks r.phase = true := fun inside =>
      enough (inChunks_incomplete ((turn_waits ran).inChunks inside))
    exact ⟨fun phase => absurd (by rw [phase]; rfl) inside,
      fun missing phase => absurd (by rw [phase]; rfl) inside⟩
  | case3 r bytes told e ran => cases ended

end Trailer

end Reader

namespace Message

section Announcing

variable (bytes : Bytes)

def Announced (bytes : Bytes) (format : BodyFormat) : Prop :=
  .headerDone format ∈ (({} : Reader).read Handler.record #[] bytes).1

theorem announced_iff (format : BodyFormat) :
    Announced bytes format ↔ .headerDone format ∈ (Reader.scan {} bytes).events := by
  unfold Announced Reader.read
  simp [Handler.deliver_record]

theorem announced_once {start : StartLine} {fields : List Field} {format other : BodyFormat}
    {behind : List Event} (follows : ∀ e ∈ behind, Reader.Behind e) :
    .headerDone other
        ∈ .start start :: (fields.flatMap (Event.ofField .header) ++ .headerDone format :: behind)
      ↔ other = format := by
  have none : .headerDone other ∉ behind := fun member => follows _ member
  simp [Event.ofField, none]

end Announcing

inductive Lines (bytes : Bytes) (lines : List Bytes) : List Bytes → Prop
  | whole (rest : Bytes) (header : HeaderLines bytes lines rest)
      (uncoded : ¬ Announced bytes .chunked) : Lines bytes lines []
  | chunked (trailer : List Bytes) (body beyond : Bytes)
      (header : HeaderLines bytes lines (body ++ beyond)) (coded : Announced bytes .chunked)
      (chunks : ChunkedBody body trailer) : Lines bytes lines trailer

section Finding

variable {bytes line rest : Bytes} {lines trailer others more : List Bytes}

theorem Lines.unique (stood : Lines bytes lines trailer) (also : Lines bytes others more) :
    lines = others ∧ trailer = more := by
  cases stood with
  | whole rest header uncoded =>
    cases also with
    | whole left again => exact ⟨(header.unique again).1, rfl⟩
    | chunked _ body beyond again coded => exact absurd coded uncoded
  | chunked _ body beyond header coded chunks =>
    cases also with
    | whole left again uncoded => exact absurd coded uncoded
    | chunked _ other left again _ found =>
      obtain ⟨same, behind⟩ := header.unique again
      exact ⟨same, chunks.unique found behind⟩

variable {blank : Nat} {start : StartLine} {fields : List Field} {noted settled : Framing}
  {x : Reader.Reading}

theorem announced_headed (headed : Reader.Opening bytes blank line start lines fields noted settled rest)
    (format : BodyFormat) : Announced bytes format ↔ format = settled.format := by
  rw [announced_iff, headed.scanned]
  exact announced_once
    (Reader.scan_follows _ rest (Reader.bodyPhase_past { sender := start.sender } settled)).1

-- A reader that has read enough went through the trailer too, if the body came in chunks.
theorem lines_found (headed : Reader.Opening bytes blank line start lines fields noted settled rest)
    (single : settled.format ≠ .multipart) (ended : (Reader.scan {} bytes).result = .ok x)
    (enough : x.progress ≠ .incomplete) :
    ∃ trailer trailing, Lines bytes lines trailer ∧ List.Forall₂ FieldLine trailer trailing ∧
      Event.trailed (Reader.scan
        { sender := start.sender, framing := settled, phase := Reader.bodyPhase settled.format }
        rest).events = trailing.flatMap Field.each := by
  have header : HeaderLines bytes lines rest :=
    ⟨⟨blank, line, startLine_line headed.opened, headed.whole⟩, lines_plain headed.reads⟩
  have announced := announced_headed headed .chunked
  rw [headed.scanned] at ended
  -- The body is read by a reader of its own, whose phase is that of the format.
  generalize reader :
    ({ sender := start.sender, framing := settled, phase := Reader.bodyPhase settled.format } : Reader)
      = r at ended ⊢
  have phase : r.phase = Reader.bodyPhase settled.format := by rw [← reader]
  cases format : settled.format with
  | multipart => exact absurd format single
  | chunked =>
    rw [format] at announced phase
    obtain ⟨body, trailer, trailing, rfl, chunks, reads, trailed⟩ :=
      (Reader.chunks_found r rest ended enough).1 phase
    exact ⟨trailer, trailing, .chunked trailer body x.rest header (announced.mpr rfl) chunks, reads,
      trailed⟩
  | empty =>
    rw [format] at announced phase
    have uncoded : ¬ Announced bytes .chunked := fun coded => nomatch announced.mp coded
    refine ⟨[], [], .whole rest header uncoded, .nil, ?_⟩
    rw [(Reader.done_found phase ended).1]
    rfl
  | raw =>
    rw [format] at announced phase
    have uncoded : ¬ Announced bytes .chunked := fun coded => nomatch announced.mp coded
    refine ⟨[], [], .whole rest header uncoded, .nil, ?_⟩
    obtain ⟨data, told, _, events, rfl | rfl⟩ := Reader.body_found r phase rest
    · rw [events, Event.trailed_append, Event.trailed_data]
      rfl
    · rw [events, Event.trailed_append, Event.trailed_data]
      rfl

end Finding

section Taking

variable {policy : Policy} {m m' : Message}

theorem collect_trailers (policy : Policy) (m : Message) (event : Event)
    (other : ∀ f, event ≠ .element .trailer f) : (collect policy m event).1.trailers = m.trailers := by
  unfold collect
  split
  · rename_i line
    obtain ⟨_, _, _, _, _, _, _, _, same⟩ := m.takeStart_eq line
    rw [same]
  · rename_i f
    obtain ⟨_, _, same⟩ := m.addHeader_eq f.name f.value
    dsimp only
    split
    · rfl
    · rw [same]
  · rename_i format
    obtain ⟨_, _, _, same⟩ := m.endHeaders_eq policy format
    rw [same]
  · rfl
  · split <;> rfl
  · rfl
  · rfl
  · rfl
  · exact absurd rfl (other _)
  · rfl

-- The elements of a trailer are all taken, also the empty ones.
theorem deliver_trailers (events : List Event) (told : (collect policy).deliver m events = (m', none)) :
    m'.trailers = (Event.trailed events).foldl (fun h f => h.insert f.name f.value) m.trailers := by
  induction events generalizing m with
  | nil =>
    cases told
    rfl
  | cons event events ih =>
    obtain ⟨u, first, rest⟩ := (collect policy).deliver_cons_ok.mp told
    rw [show Event.trailed (event :: events) = Event.trailed [event] ++ Event.trailed events from
      Event.trailed_append [event] events, List.foldl_append, ih rest]
    congr 1
    by_cases element : ∃ f, event = .element .trailer f
    · obtain ⟨f, rfl⟩ := element
      simp only [collect] at first
      split at first
      · cases first
      · cases first
        rfl
    · have other : ∀ f, event ≠ .element .trailer f := fun f same => element ⟨f, same⟩
      have kept := collect_trailers policy m event other
      rw [first] at kept
      rw [kept, Event.trailed_other other]
      rfl

end Taking

end Message

end HttpWire
