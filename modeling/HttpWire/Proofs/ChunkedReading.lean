import HttpWire.Proofs.ChunkLineForm
import HttpWire.Proofs.FieldSection
import HttpWire.Proofs.Fragments

namespace HttpWire

structure ChunkForm where
  line : SizeLine
  payload : Bytes

-- The lines of the trailer stand with the fields that they are read as.
structure ChunkedForm where
  chunks : List ChunkForm
  last : SizeLine
  lines : List Bytes
  fields : List Field

def SizeLine.events (index : Nat) (l : SizeLine) : List Event :=
  (l.extensions.map (·.extension)).map (Event.extension index) ++ [.extensionsDone index]

namespace ChunkForm

def bytes (c : ChunkForm) : Bytes := c.line.bytes ++ (crlf ++ (c.payload ++ crlf))

structure WellFormed (c : ChunkForm) : Prop where
  nonempty : c.payload ≠ []
  line : c.line.WellFormed c.payload.length

def events (index : Nat) (c : ChunkForm) : List Event :=
  c.line.events index ++ (Event.ofData (.chunk index) c.payload ++ [.dataDone (.chunk index)])

end ChunkForm

namespace ChunkedForm

def bytes (m : ChunkedForm) : Bytes :=
  m.chunks.flatMap (·.bytes) ++ (m.last.bytes ++ (crlf ++ sectionBytes m.lines))

structure WellFormed (m : ChunkedForm) : Prop where
  chunks : ∀ c ∈ m.chunks, c.WellFormed
  last : m.last.WellFormed 0
  fields : List.Forall₂ FieldLine m.lines m.fields
  room : (sectionBytes m.lines).length ≤ 8192

def chunksEvents (index : Nat) : List ChunkForm → List Event
  | [] => []
  | c :: chunks => c.events index ++ chunksEvents (index + 1) chunks

def events (index : Nat) (m : ChunkedForm) : List Event :=
  chunksEvents index m.chunks ++ (m.last.events (index + m.chunks.length) ++
    (.chunksDone :: (m.fields.flatMap (Event.ofField .trailer) ++ [.trailerDone])))

def total : List ChunkForm → Nat
  | [] => 0
  | c :: chunks => c.payload.length + total chunks

end ChunkedForm

namespace Reader

theorem scan_step {r next : Reader} {bytes rest : Bytes} {told : List Event}
    (ran : turn r bytes = .onward told next rest) :
    scan r bytes = (scan next rest).announce told :=
  scan_onward r next bytes rest told ran

theorem announce_announce (first told : List Event) (s : Scan) :
    (s.announce told).announce first = s.announce (first ++ told) := by
  simp [Scan.announce]

section Chunks

variable {r : Reader} {l : SizeLine} {size : Nat} (formed : l.WellFormed size) (rest : Bytes)

include formed

theorem takeLine_bytes :
    takeLine chunkLineRoom (l.bytes ++ (crlf ++ rest)) = .whole l.bytes rest := by
  have room := formed.room
  apply takeLine_line
  · exact crlf_absent l.bytes (SizeLine.bytes_plain formed)
  · unfold chunkLineRoom
    omega

theorem chunkLine_data (real : size ≠ 0) :
    scan { r with phase := .chunkLine } (l.bytes ++ (crlf ++ rest))
      = (scan { r with phase := .chunkData size } rest).announce (l.events r.index) := by
  have ran : turn { r with phase := .chunkLine } (l.bytes ++ (crlf ++ rest))
      = .onward (l.events r.index) { r with phase := .chunkData size } rest := by
    simp only [turn, chunkLineTurn, takeLine_bytes formed rest, SizeLine.ofLine_bytes formed, real,
      if_false]
    rfl
  exact scan_step ran

end Chunks

theorem chunkLine_last {r : Reader} {l : SizeLine} (formed : l.WellFormed 0) (rest : Bytes) :
    scan { r with phase := .chunkLine } (l.bytes ++ (crlf ++ rest))
      = (scan { r with phase := .trailer 0 } rest).announce (l.events r.index ++ [.chunksDone]) := by
  have ran : turn { r with phase := .chunkLine } (l.bytes ++ (crlf ++ rest))
      = .onward (l.events r.index ++ [.chunksDone]) { r with phase := .trailer 0 } rest := by
    simp only [turn, chunkLineTurn, takeLine_bytes formed rest, SizeLine.ofLine_bytes formed,
      if_true, SizeLine.events, List.append_assoc]
    rfl
  exact scan_step ran

theorem chunkData_whole {r : Reader} (payload rest : Bytes) :
    scan { r with phase := .chunkData payload.length } (payload ++ (crlf ++ rest))
      = (scan { r with phase := .chunkLine, index := r.index + 1, seen := r.seen + payload.length }
          rest).announce (Event.ofData (.chunk r.index) payload ++ [.dataDone (.chunk r.index)]) := by
  have ran : turn { r with phase := .chunkData payload.length } (payload ++ (crlf ++ rest))
      = .onward (Event.ofData (.chunk r.index) payload ++ [.dataDone (.chunk r.index)])
          { r with phase := .chunkLine, index := r.index + 1, seen := r.seen + payload.length }
          rest := by
    simp only [turn, chunkDataTurn, List.take_left, List.drop_left, Nat.lt_irrefl, if_false,
      opening_mark]
  exact scan_step ran

theorem chunk_scan {r : Reader} (c : ChunkForm) (formed : c.WellFormed) (rest : Bytes) :
    scan { r with phase := .chunkLine } (c.bytes ++ rest)
      = (scan { r with phase := .chunkLine, index := r.index + 1, seen := r.seen + c.payload.length }
          rest).announce (c.events r.index) := by
  have real : c.payload.length ≠ 0 := fun empty => formed.nonempty (List.eq_nil_of_length_eq_zero empty)
  have split : c.bytes ++ rest = c.line.bytes ++ (crlf ++ (c.payload ++ (crlf ++ rest))) := by
    simp [ChunkForm.bytes]
  rw [split, chunkLine_data formed.line _ real, chunkData_whole, announce_announce]
  rfl

theorem chunks_scan (chunks : List ChunkForm) (formed : ∀ c ∈ chunks, c.WellFormed) (r : Reader)
    (rest : Bytes) :
    scan { r with phase := .chunkLine } (chunks.flatMap (·.bytes) ++ rest)
      = (scan { r with
            phase := .chunkLine
            index := r.index + chunks.length
            seen := r.seen + ChunkedForm.total chunks } rest).announce
          (ChunkedForm.chunksEvents r.index chunks) := by
  induction chunks generalizing r with
  | nil => rfl
  | cons c chunks ih =>
    have later := ih (fun d member => formed d (List.mem_cons_of_mem c member))
      { r with index := r.index + 1, seen := r.seen + c.payload.length }
    have index : r.index + (c :: chunks).length = r.index + 1 + chunks.length := by
      rw [List.length_cons]
      omega
    have seen : r.seen + ChunkedForm.total (c :: chunks)
        = r.seen + c.payload.length + ChunkedForm.total chunks := by
      rw [ChunkedForm.total]
      omega
    rw [List.flatMap_cons, List.append_assoc, chunk_scan c (formed c (List.mem_cons_self ..)), later,
      announce_announce, index, seen]
    rfl

theorem trailer_scan (lines : List Bytes) (fields : List Field) (r : Reader) (size : Nat) (rest : Bytes)
    (reads : List.Forall₂ FieldLine lines fields)
    (room : size + (sectionBytes lines).length ≤ sectionRoom) :
    scan { r with phase := .trailer size } (sectionBytes lines ++ rest)
      = ⟨fields.flatMap (Event.ofField .trailer) ++ [.trailerDone],
          .ok ⟨{ r with phase := .done }, rest⟩⟩ := by
  induction lines generalizing size fields with
  | nil =>
    cases reads
    have ran : turn { r with phase := .trailer size } (sectionBytes [] ++ rest)
        = .onward [.trailerDone] { r with phase := .done } rest := by
      have closed := sectionLine_end size rest room
      rw [sectionBytes_nil]
      simp only [turn, trailerTurn, closed]
    have last : scan { r with phase := .done } rest = ⟨[], .ok ⟨{ r with phase := .done }, rest⟩⟩ :=
      scan_pause _ _ _ _ _ rfl
    rw [scan_step ran, last]
    rfl
  | cons line lines ih =>
    cases reads with
    | @cons _ f _ fields read others =>
      simp only [sectionBytes_cons, List.length_append, crlf, List.length_cons, List.length_nil] at room
      have accepted := sectionLine_accepted size line (sectionBytes lines ++ rest) f read (by omega)
      have ran : turn { r with phase := .trailer size } (line ++ (crlf ++ (sectionBytes lines ++ rest)))
          = .onward (Event.ofField .trailer f) { r with phase := .trailer (size + line.length + 2) }
              (sectionBytes lines ++ rest) := by
        simp only [turn, trailerTurn, accepted]
      have later := ih fields (size + line.length + 2) others (by omega)
      rw [sectionBytes_cons, List.append_assoc, List.append_assoc, scan_step ran, later,
        List.flatMap_cons, List.append_assoc]
      rfl

theorem chunked_scan (r : Reader) (phase : r.phase = .chunkLine) (m : ChunkedForm)
    (formed : m.WellFormed) (beyond : Bytes) :
    scan r (m.bytes ++ beyond) = ⟨m.events r.index, .ok ⟨{ r with
      phase := .done
      index := r.index + m.chunks.length
      seen := r.seen + ChunkedForm.total m.chunks }, beyond⟩⟩ := by
  have here : r = { r with phase := .chunkLine } := by rw [← phase]
  have split : m.bytes ++ beyond = m.chunks.flatMap (·.bytes) ++
      (m.last.bytes ++ (crlf ++ (sectionBytes m.lines ++ beyond))) := by
    simp [ChunkedForm.bytes]
  have trailer := trailer_scan m.lines m.fields
    { r with index := r.index + m.chunks.length, seen := r.seen + ChunkedForm.total m.chunks } 0 beyond
    formed.fields (by rw [Nat.zero_add]; exact formed.room)
  have last := chunkLine_last (r := { r with
    index := r.index + m.chunks.length, seen := r.seen + ChunkedForm.total m.chunks }) formed.last
    (sectionBytes m.lines ++ beyond)
  rw [here, split, chunks_scan m.chunks formed.chunks, last, trailer]
  simp [Scan.announce, ChunkedForm.events]

end Reader

section Joined

theorem SizeLine.events_others (index : Nat) (l : SizeLine) : ∀ e ∈ l.events index, e.IsOther := by
  intro e member
  rcases List.mem_append.mp member with extension | ended
  · obtain ⟨_, _, rfl⟩ := List.mem_map.mp extension
    exact fun _ _ => nofun
  · rw [List.mem_singleton.mp ended]
    exact fun _ _ => nofun

theorem ChunkedForm.joined_chunks (index : Nat) (chunks : List ChunkForm) (later : List Event) :
    Event.joined (chunksEvents index chunks ++ later)
      = chunksEvents index chunks ++ Event.joined later := by
  induction chunks generalizing index with
  | nil => rfl
  | cons c chunks ih =>
    have split : ∀ more, c.events index ++ more = c.line.events index ++
        (Event.ofData (.chunk index) c.payload ++ .dataDone (.chunk index) :: more) := by
      intro more
      simp [ChunkForm.events]
    rw [chunksEvents, List.append_assoc, List.append_assoc, split,
      Event.joined_others _ _ (c.line.events_others index),
      Event.joined_data _ _ _ _ (Event.dataDone_isOther _), ih, split]

theorem ChunkedForm.joined_events (index : Nat) (m : ChunkedForm) :
    Event.joined (m.events index) = m.events index := by
  have closing : ∀ e ∈ m.last.events (index + m.chunks.length) ++
      (.chunksDone :: (m.fields.flatMap (Event.ofField .trailer) ++ [.trailerDone])), e.IsOther := by
    intro e member
    rcases List.mem_append.mp member with line | after
    · exact m.last.events_others _ e line
    · rcases List.mem_cons.mp after with rfl | trailer
      · exact fun _ _ => nofun
      · rcases List.mem_append.mp trailer with field | ended
        · obtain ⟨f, _, inside⟩ := List.mem_flatMap.mp field
          exact Event.ofField_others _ f e inside
        · rw [List.mem_singleton.mp ended]
          exact fun _ _ => nofun
  have whole := Event.joined_others _ [] closing
  rw [List.append_nil, Event.joined_nil, List.append_nil] at whole
  rw [events, joined_chunks, whole]

end Joined

namespace Reader

-- Given in any fragments, with other bytes behind it or without, the body is used up and no byte
-- more, and has been told chunk by chunk.
theorem chunked_complete (r : Reader) (phase : r.phase = .chunkLine) (m : ChunkedForm)
    (formed : m.WellFormed) (beyond first : Bytes) (later : List Bytes)
    (whole : (first :: later).flatten = m.bytes ++ beyond) :
    let run := feed Handler.record (first :: later) #[] { reader := r }
    Event.joined run.1.toList = m.events r.index ∧
      ∃ x, run.2 = .ok x ∧ x.progress = .complete ∧ x.rest = beyond ∧
        x.reader.consumed = r.consumed + m.bytes.length := by
  obtain ⟨events, result⟩ := feed_record { reader := r } #[] first later
  rw [List.flatten_cons] at whole
  simp only [push_record, List.nil_append, whole, chunked_scan r phase m formed beyond] at events result
  refine ⟨?_, _, result, ?_, rfl, ?_⟩
  · rw [events]
    simp [m.joined_events]
  · exact (progress_complete _).mpr rfl
  · simp [Reading.counted, Reading.used]

theorem chunked_complete_in_fragments :
    let run := feed Handler.record
      [ascii "02 ;a=\";\"\r\nh", ascii "i\r\n0\r\nt: v\r\n\r\nnext"] #[]
      { reader := { phase := .chunkLine } }
    Event.joined run.1.toList =
        [.extension 0 ⟨"a".toList, some ";".toList⟩, .extensionsDone 0, .data (.chunk 0) (ascii "hi"),
          .dataDone (.chunk 0), .extensionsDone 1, .chunksDone,
          .field .trailer ⟨"t".toList, "v".toList⟩, .element .trailer ⟨"t".toList, "v".toList⟩,
          .trailerDone] ∧
      ∃ x, run.2 = .ok x ∧ x.progress = .complete ∧ x.rest = ascii "next" ∧ x.reader.consumed = 26 := by
  let e : ExtensionForm := ⟨"a".toList, some (.quoted ";".toList)⟩
  let c : ChunkForm := ⟨⟨ascii "02", ascii " ", [e]⟩, ascii "hi"⟩
  let m : ChunkedForm := ⟨[c], ⟨ascii "0", [], []⟩, [ascii "t: v"], [⟨"t".toList, "v".toList⟩]⟩
  have extension : e.WellFormed := by
    refine ⟨by decide, ⟨?_, ?_⟩, ?_, ?_⟩
    · intro b same
      cases same
      decide
    · intro b same
      cases same
      decide
    · intro c member
      rw [List.mem_singleton.mp member]
      decide
    · intro value same
      cases same
      intro c member
      rw [List.mem_singleton.mp member]
      decide
  have extensions : ∀ f ∈ c.line.extensions, f.WellFormed := by
    intro f member
    rw [List.mem_singleton.mp member]
    exact extension
  have chunk : c.WellFormed :=
    ⟨by decide, by decide, by decide +kernel, by decide, by decide, by decide +kernel, extensions,
      by decide⟩
  have chunks : ∀ d ∈ m.chunks, d.WellFormed := by
    intro d member
    rw [List.mem_singleton.mp member]
    exact chunk
  have trailer : FieldLine (ascii "t: v") ⟨"t".toList, "v".toList⟩ :=
    ⟨by decide, by decide, by decide +kernel⟩
  have formed : m.WellFormed :=
    ⟨chunks, ⟨by decide, by decide +kernel, by decide, by decide, by decide +kernel, nofun, by decide⟩,
      .cons trailer .nil, by decide⟩
  exact chunked_complete { phase := .chunkLine } rfl m formed (ascii "next")
    (ascii "02 ;a=\";\"\r\nh") [ascii "i\r\n0\r\nt: v\r\n\r\nnext"] (by decide)

end Reader
end HttpWire
