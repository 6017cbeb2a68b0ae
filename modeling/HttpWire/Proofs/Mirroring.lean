import HttpWire.Proofs.Collecting
import HttpWire.Proofs.FramingDecision
import HttpWire.Proofs.Fragments
import HttpWire.Proofs.Reached

-- A message and its reader count the body independently, and learn its length from different things.
namespace HttpWire.Reader

def sizeLine (r : Reader) (bytes : Bytes) : List Bytes :=
  match r.phase, takeLine chunkLineRoom bytes with
  | .chunkLine, .whole line _ => [line]
  | _, _ => []

def sizeLines (r : Reader) (bytes : Bytes) : List Bytes :=
  match _ran : turn r bytes with
  | .onward _told next rest => sizeLine r bytes ++ sizeLines next rest
  | _ => []
termination_by bytes.length + rank r.phase
decreasing_by exact turn_descends r next bytes rest _told _ran

inductive Built (policy : Policy) (skip : Bool) :
    List Event → List Bytes → Reading → Message → Prop
  | fresh : Built policy skip [] [] { reader := { skipStartLine := skip } } {}
  | call {told : List Event} {lines : List Bytes} {x y : Reading} {m next : Message} {more : Bytes} :
    Built policy skip told lines x m →
    x.push (Message.collect policy) m more = (next, .ok y) →
    Built policy skip (told ++ (scan x.reader (x.rest ++ more)).events)
      (lines ++ sizeLines x.reader (x.rest ++ more)) y next
  | finish {told : List Event} {lines : List Bytes} {x : Reading} {r : Reader} {m next : Message} :
    Built policy skip told lines x m →
    x.reader.finish (Message.collect policy) m = (next, .ok r) →
    Built policy skip (told ++ x.reader.ending?.getD []) lines { x with reader := r } next

section Headers

-- What fields tell a reader and what they leave in a message agree.
structure Heads (fr : Framing) (m : Message) : Prop where
  length : (m.headers.values "content-length".toList).map Framing.length?
    = fr.declared.toList.map some
  coded : fr.format = .chunked → m.isChunked = true

variable {fr next : Framing} {m m' : Message} {f : Field}

theorem Heads.same (heads : Heads fr m) (headers : m'.headers = m.headers) : Heads fr m' := by
  refine ⟨?_, fun chunked => ?_⟩
  · rw [headers]
    exact heads.length
  · have coded := heads.coded chunked
    unfold Message.isChunked at coded ⊢
    rwa [headers]

theorem Heads.declared (heads : Heads fr m) : m.declared = fr.declared := by
  have length := heads.length
  unfold Message.declared FieldMap.first?
  cases declared : fr.declared with
  | none =>
    rw [declared] at length
    rw [List.map_eq_nil_iff.mp length]
    rfl
  | some n =>
    rw [declared] at length
    obtain ⟨value, only, read⟩ := List.map_eq_singleton_iff.mp length
    rw [only]
    exact length_signed read

theorem isChunked_kept (f : Field) (coded : m.isChunked = true) : (m.takeField f).isChunked = true := by
  unfold Message.isChunked at coded ⊢
  rw [m.takeField_values f _ (by decide), List.any_append, coded, Bool.true_or]

theorem isChunked_taken (named : f.name.named "transfer-encoding" = true)
    (ends : Framing.endsChunked f.value = true) : (m.takeField f).isChunked = true := by
  obtain ⟨element, member, filled, chunked⟩ := endsChunked_element ends
  have list : Field.isWhole f.name = false := by
    rw [Field.isWhole_congr (b := "transfer-encoding".toList) named]
    decide
  unfold Message.isChunked
  rw [m.takeField_values f _ (by decide), if_pos (by exact named), Field.elements_list f list,
    List.any_append, Bool.or_eq_true]
  right
  apply List.any_eq_true.mpr
  exact ⟨element, List.mem_filter.mpr ⟨member, by simpa using filled⟩, chunked⟩

theorem lengths_other (differ : ¬ f.name.named "content-length" = true) :
    (m.takeField f).headers.values "content-length".toList
      = m.headers.values "content-length".toList := by
  rw [m.takeField_values f _ (by decide), if_neg (by exact differ), List.append_nil]

theorem noteLength_heads (heads : Heads fr m) (named : f.name.named "content-length" = true)
    (noted : fr.noteLength f.value = .ok next) : Heads next (m.takeField f) := by
  have list : Field.isWhole f.name = false := by
    rw [Field.isWhole_congr (b := "content-length".toList) named]
    decide
  have length := heads.length
  unfold Framing.noteLength at noted
  split at noted
  · cases noted
  · rename_i free
    rw [not_or, Bool.not_eq_true, Option.isSome_eq_false_iff, Option.isNone_iff_eq_none] at free
    rw [free.2] at length
    cases read : Framing.length? f.value with
    | none =>
      rw [read] at noted
      cases noted
    | some n =>
      rw [read] at noted
      cases noted
      refine ⟨?_, fun chunked => ?_⟩
      · rw [m.takeField_values f _ (by decide), if_pos (by exact named), Field.elements_list f list,
          length_elements read, List.map_eq_nil_iff.mp length]
        simp [read, length_filled read]
      · dsimp only at chunked
        split at chunked
        · cases chunked
        · split at chunked <;> cases chunked

theorem noteCoding_heads (heads : Heads fr m) (named : f.name.named "transfer-encoding" = true)
    (noted : fr.noteCoding f.value = .ok next) : Heads next (m.takeField f) := by
  have differ := Framing.not_named f.name _ "content-length" named (by decide)
  have length : (m.takeField f).headers.values "content-length".toList
      = m.headers.values "content-length".toList := lengths_other (by rw [differ]; decide)
  unfold Framing.noteCoding at noted
  split at noted
  · rename_i ends
    split at noted
    · cases noted
    · cases noted
      refine ⟨?_, fun _ => isChunked_taken named ends⟩
      rw [length]
      exact heads.length
  · cases noted
    refine ⟨?_, fun chunked => isChunked_kept f (heads.coded chunked)⟩
    rw [length]
    exact heads.length

theorem noteType_heads (heads : Heads fr m) (named : f.name.named "content-type" = true)
    (noted : fr.noteType f.value = .ok next) : Heads next (m.takeField f) := by
  have differ := Framing.not_named f.name _ "content-length" named (by decide)
  have length : (m.takeField f).headers.values "content-length".toList
      = m.headers.values "content-length".toList := lengths_other (by rw [differ]; decide)
  unfold Framing.noteType at noted
  cases read : Framing.boundary? f.value with
  | error e =>
    rw [read] at noted
    cases noted
  | ok found =>
    rw [read] at noted
    cases found with
    | none =>
      cases noted
      refine ⟨?_, fun chunked => isChunked_kept f (heads.coded chunked)⟩
      rw [length]
      exact heads.length
    | some boundary =>
      cases noted
      refine ⟨?_, fun chunked => isChunked_kept f (heads.coded ?_)⟩
      · rw [length]
        exact heads.length
      · dsimp only at chunked
        split at chunked
        · exact chunked
        · cases chunked

theorem note_heads (heads : Heads fr m) (noted : fr.note f = .ok next) :
    Heads next (m.takeField f) := by
  unfold Framing.note at noted
  split at noted
  · rename_i named
    exact noteLength_heads heads named noted
  · rename_i differ
    split at noted
    · rename_i named
      exact noteCoding_heads heads named noted
    · split at noted
      · rename_i named
        exact noteType_heads heads named noted
      · cases noted
        refine ⟨?_, fun chunked => isChunked_kept f (heads.coded chunked)⟩
        rw [lengths_other differ]
        exact heads.length

theorem settle_heads (heads : Heads fr m) (sender : Sender) (settled : fr.settle sender = .ok next) :
    Heads next m := by
  have kept := Framing.settle_keeps sender settled
  refine ⟨?_, fun chunked => heads.coded (kept.2 chunked)⟩
  rw [kept.1]
  exact heads.length

end Headers

section Stages

def closedChunks (told : List Event) : List Nat :=
  told.filterMap fun
    | .dataDone (.chunk index) => some index
    | _ => none

def Measured (line : Bytes) (c : Chunk) : Prop :=
  ∃ l, ChunkLine.ofLine line = .ok l ∧ c.declared = some l.size

-- What a phase says about the lines and the records behind those of complete chunks.
def Begun : Phase → List Bytes → List Chunk → Prop
  | .chunkLine, lines, chunks => lines = [] ∧ chunks = []
  | .chunkData missing, lines, chunks =>
    ∃ line l c, lines = [line] ∧ chunks = [c] ∧ ChunkLine.ofLine line = .ok l ∧
      c.seen + missing = l.size
  | .trailer _, _, _ => True
  | .done, _, _ => True
  | _, _, _ => False

def Recorded (phase : Phase) (index : Nat) (lines : List Bytes) (chunks : List Chunk) : Prop :=
  ∃ whole cs begun rest, lines = whole ++ begun ∧ chunks = cs ++ rest ∧ cs.length = index ∧
    List.Forall₂ Measured whole cs ∧ Begun phase begun rest

-- A body is not there yet, or is data only, or is the data of the chunks recorded.
inductive Stage (lines : List Bytes) (r : Reader) (m : Message) : Prop
  | before (early : afterHeader r.phase = false) (seen : r.seen = 0) (index : r.index = 0)
    (chunks : m.chunks = []) (lines : lines = [])
  | plain (phase : r.phase = .body ∨ r.phase = .done) (format : r.framing.format ≠ .chunked)
    (fits : ∀ d, r.framing.declared = some d → r.seen ≤ d) (index : r.index = 0)
    (chunks : m.chunks = [])
  | chunks (format : r.framing.format = .chunked)
    (joined : m.chunks.flatMap (·.body) = m.body)
    (recorded : Recorded r.phase r.index lines m.chunks)

structure Mirrors (told : List Event) (lines : List Bytes) (r : Reader) (m : Message) : Prop where
  heads : Heads r.framing m
  counted : m.Counted
  seen : m.seen = r.seen
  closed : closedChunks told = List.range r.index
  stage : Stage lines r m

def Turn.Mirrors (policy : Policy) (told : List Event) (lines : List Bytes) (m : Message) :
    Turn → Prop
  | .onward events next _ => ∀ after,
    (Message.collect policy).deliver m events = (after, none) →
      Reader.Mirrors (told ++ events) lines next after
  | .pause events next _ => ∀ after,
    (Message.collect policy).deliver m events = (after, none) →
      Reader.Mirrors (told ++ events) lines next after
  | .fault _ _ => True

theorem closedChunks_append (first last : List Event) :
    closedChunks (first ++ last) = closedChunks first ++ closedChunks last :=
  List.filterMap_append

theorem closedChunks_ofField (s : Section) (f : Field) : closedChunks (Event.ofField s f) = [] := by
  unfold closedChunks
  rw [List.filterMap_eq_nil_iff]
  intro e member
  rcases List.mem_cons.mp member with rfl | element
  · rfl
  · obtain ⟨value, _, rfl⟩ := List.mem_map.mp element
    rfl

theorem closedChunks_ofData (place : Place) (bytes : Bytes) :
    closedChunks (Event.ofData place bytes) = [] := by
  unfold Event.ofData
  split <;> rfl

theorem closedChunks_extensions (index : Nat) (extensions : List Extension) :
    closedChunks (extensions.map (Event.extension index)) = [] := by
  unfold closedChunks
  rw [List.filterMap_eq_nil_iff]
  intro e member
  obtain ⟨extension, _, rfl⟩ := List.mem_map.mp member
  rfl

end Stages

section Turns

variable {policy : Policy} {told : List Event} {lines : List Bytes} {r : Reader} {m : Message}
  (bytes : Bytes)

theorem mirrors_wait (mirrors : Mirrors told lines r m) (rest : Bytes) :
    (Turn.pause [] r rest).Mirrors policy told lines m := by
  intro after told
  cases told
  rwa [List.append_nil]

theorem Mirrors.unread (mirrors : Mirrors told lines r m) (early : afterHeader r.phase = false) :
    r.seen = 0 ∧ r.index = 0 ∧ m.chunks = [] ∧ lines = [] := by
  cases mirrors.stage with
  | before _ seen index chunks lines => exact ⟨seen, index, chunks, lines⟩
  | plain phase =>
    rcases phase with body | done
    · rw [body] at early
      cases early
    · rw [done] at early
      cases early
  | chunks _ _ recorded =>
    obtain ⟨_, _, _, _, _, _, _, _, begun⟩ := recorded
    cases phase : r.phase <;> rw [phase] at early begun <;>
      first | exact absurd begun id | cases early

theorem Mirrors.stays (mirrors : Mirrors told lines r m) (early : afterHeader r.phase = false)
    {next : Reader} {after : Message} {events : List Event} (heads : Heads next.framing after)
    (counted : after.Counted) (quiet : closedChunks events = [])
    (phase : afterHeader next.phase = false) (index : next.index = r.index)
    (count : next.seen = r.seen) (seen : after.seen = m.seen) (chunks : after.chunks = m.chunks) :
    Mirrors (told ++ events) lines next after := by
  obtain ⟨nothing, first, none, noLines⟩ := mirrors.unread early
  refine ⟨heads, counted, ?_, ?_, .before phase ?_ ?_ ?_ noLines⟩
  · rw [seen, count]
    exact mirrors.seen
  · rw [closedChunks_append, quiet, List.append_nil, index]
    exact mirrors.closed
  · rw [count, nothing]
  · rw [index, first]
  · rw [chunks, none]

theorem startTurn_mirrors (mirrors : Mirrors told lines r m) (phase : r.phase = .start) :
    (startTurn r bytes).Mirrors policy told lines m := by
  have early : afterHeader r.phase = false := by rw [phase]; rfl
  have silent : ∀ (next : Phase), afterHeader next = false → ∀ rest,
      (Turn.onward [] { r with phase := next } rest).Mirrors policy told lines m := by
    intro next still rest after none
    cases none
    exact mirrors.stays early mirrors.heads mirrors.counted rfl still rfl rfl rfl rfl
  unfold startTurn
  split
  · exact silent _ rfl _
  · dsimp only
    split
    · exact mirrors_wait mirrors _
    · exact silent _ rfl _

theorem startLineTurn_mirrors (mirrors : Mirrors told lines r m) (phase : r.phase = .startLine) :
    (startLineTurn r bytes).Mirrors policy told lines m := by
  have early : afterHeader r.phase = false := by rw [phase]; rfl
  unfold startLineTurn
  split
  · trivial
  · exact mirrors_wait mirrors bytes
  · split
    · trivial
    · rename_i start _
      intro after taken
      have counted := Message.deliver_counted _ mirrors.counted taken
      obtain ⟨u, first, last⟩ := (Message.collect policy).deliver_cons_ok.mp taken
      cases last
      obtain ⟨_, _, _, _, _, _, _, _, same⟩ := m.takeStart_eq start
      have outcome := congrArg Prod.fst first
      dsimp only [Message.collect] at outcome
      rw [same] at outcome
      subst outcome
      exact mirrors.stays early (mirrors.heads.same rfl) counted rfl rfl rfl rfl rfl rfl

theorem header_ended (mirrors : Mirrors told lines r m) (early : afterHeader r.phase = false)
    {framing : Framing} {after : Message} {events : List Event} (heads : Heads framing after)
    (counted : after.Counted) (quiet : closedChunks events = []) (whole : framing.format ≠ .multipart)
    (seen : after.seen = m.seen) (chunks : after.chunks = m.chunks) :
    Mirrors (told ++ events) lines { r with framing, phase := bodyPhase framing.format } after := by
  obtain ⟨nothing, first, none, noLines⟩ := mirrors.unread early
  refine ⟨heads, counted, seen.trans mirrors.seen, ?_, ?_⟩
  · rw [closedChunks_append, quiet, List.append_nil]
    exact mirrors.closed
  · have fits : ∀ d, framing.declared = some d → r.seen ≤ d := by
      intro d _
      rw [nothing]
      exact Nat.zero_le d
    cases format : framing.format with
    | empty =>
      exact .plain (.inr rfl) (by dsimp only; rw [format]; decide) fits first (chunks.trans none)
    | raw =>
      exact .plain (.inl rfl) (by dsimp only; rw [format]; decide) fits first (chunks.trans none)
    | chunked =>
      refine .chunks format ?_ ⟨[], [], [], [], noLines, chunks.trans none, first.symm, .nil, rfl, rfl⟩
      have empty : after.body = [] := by
        rw [← List.length_eq_zero_iff, ← counted.whole, seen, mirrors.seen, nothing]
      rw [chunks, none, empty]
      rfl
    | multipart => exact absurd format whole

theorem headerTurn_mirrors (mirrors : Mirrors told lines r m) (size : Nat)
    (phase : r.phase = .header size) : (headerTurn r size bytes).Mirrors policy told lines m := by
  have early : afterHeader r.phase = false := by rw [phase]; rfl
  unfold headerTurn
  split
  · trivial
  · exact mirrors_wait mirrors bytes
  · split
    · trivial
    · rename_i framing settled
      intro after taken
      have counted := Message.deliver_counted _ mirrors.counted taken
      obtain ⟨u, first, last⟩ := (Message.collect policy).deliver_cons_ok.mp taken
      cases last
      obtain ⟨whole, _, _, _, same⟩ := Message.endHeaders_ok first
      have heads := settle_heads mirrors.heads _ settled
      subst same
      exact header_ended mirrors early (heads.same rfl) counted rfl whole rfl rfl
  · split
    · trivial
    · rename_i f _ _ _ _ framing noted
      intro after taken
      have counted := Message.deliver_counted _ mirrors.counted taken
      rw [Message.deliver_field] at taken
      cases taken
      have heads := note_heads mirrors.heads noted
      obtain ⟨_, _, same⟩ := m.takeField_eq f
      refine mirrors.stays early heads counted (closedChunks_ofField _ _) rfl rfl rfl ?_ ?_
      · rw [same]
      · rw [same]

-- In a body of data only, no more comes than was declared.
theorem bodyTurn_mirrors (mirrors : Mirrors told lines r m) (phase : r.phase = .body) :
    (bodyTurn r bytes).Mirrors policy told lines m := by
  cases mirrors.stage with
  | before early =>
    rw [phase] at early
    cases early
  | chunks _ _ recorded =>
    obtain ⟨_, _, _, _, _, _, _, _, begun⟩ := recorded
    rw [phase] at begun
    exact absurd begun id
  | plain _ format fits index none =>
    let data := within r.remaining bytes
    -- What is taken was cut to the length still missing.
    have room : ∀ d, r.framing.declared = some d → r.seen + data.length ≤ d := by
      intro d declared
      have before := fits d declared
      have taken : data.length ≤ d - r.seen := by
        simp only [data, remaining, declared, Option.map_some, within]
        exact List.length_take_le _ _
      omega
    have moved : ∀ next : Phase, next = .body ∨ next = .done → ∀ events,
        closedChunks events = [] → Mirrors (told ++ events) lines
          { r with seen := r.seen + data.length, phase := next } (m.append data) := by
      intro next either events quiet
      refine ⟨mirrors.heads.same rfl, mirrors.counted.append data, ?_, ?_, ?_⟩
      · exact congrArg (· + data.length) mirrors.seen
      · rw [closedChunks_append, quiet, List.append_nil]
        exact mirrors.closed
      · exact .plain either format room index none
    unfold bodyTurn
    dsimp only
    split
    · intro after taken
      obtain ⟨u, first, last⟩ := (Message.collect policy).deliver_append_ok.mp taken
      rw [Message.deliver_body] at first
      cases first
      cases last
      apply moved .done (.inr rfl)
      rw [closedChunks_append, closedChunks_ofData]
      rfl
    · intro after taken
      rw [Message.deliver_body] at taken
      cases taken
      exact moved r.phase (.inl phase) _ (closedChunks_ofData _ _)

theorem Mirrors.quiet (mirrors : Mirrors told lines r m) {events : List Event}
    (quiet : closedChunks events = []) : Mirrors (told ++ events) lines r m := by
  refine ⟨mirrors.heads, mirrors.counted, mirrors.seen, ?_, mirrors.stage⟩
  rw [closedChunks_append, quiet, List.append_nil]
  exact mirrors.closed

theorem Mirrors.in_chunks (mirrors : Mirrors told lines r m) (past : r.Past)
    (inside : r.phase ≠ .body ∧ r.phase ≠ .done) :
    r.framing.format = .chunked ∧ m.chunks.flatMap (·.body) = m.body ∧
      Recorded r.phase r.index lines m.chunks := by
  cases mirrors.stage with
  | before early =>
    rw [Past, early] at past
    cases past
  | plain phase =>
    rcases phase with body | done
    · exact absurd body inside.1
    · exact absurd done inside.2
  | chunks format joined recorded => exact ⟨format, joined, recorded⟩

theorem chunk_begins (mirrors : Mirrors told lines r m) (phase : r.phase = .chunkLine)
    {line : Bytes} {extensions : List Extension} {after : Message} {next : Phase}
    (taken : (Message.collect policy).deliver m
      (extensions.map (Event.extension r.index) ++ [.extensionsDone r.index]) = (after, none))
    (begins : ∀ c : Chunk, c.seen = 0 → Begun next [line] [c]) :
    Mirrors (told ++ (extensions.map (Event.extension r.index) ++ [.extensionsDone r.index]))
      (lines ++ [line]) { r with phase := next } after := by
  obtain ⟨format, joined, recorded⟩ :=
    mirrors.in_chunks (by rw [Past, phase]; rfl) (by rw [phase]; decide)
  obtain ⟨whole, cs, begun, rest, hlines, hchunks, index, measured, between⟩ := recorded
  rw [phase] at between
  obtain ⟨rfl, rfl⟩ := between
  rw [List.append_nil] at hlines hchunks
  have count : r.index = m.chunks.length := by rw [hchunks, index]
  have counted := Message.deliver_counted _ mirrors.counted taken
  rw [count] at taken
  obtain ⟨c, empty, unseen, same⟩ := Message.deliver_chunkLine extensions taken
  subst same
  refine ⟨mirrors.heads.same rfl, counted, mirrors.seen, ?_, ?_⟩
  · rw [closedChunks_append, closedChunks_append, closedChunks_extensions]
    exact (List.append_nil _).trans mirrors.closed
  · refine .chunks format ?_ ⟨whole, cs, [line], [c], ?_, ?_, index, measured, begins c unseen⟩
    · rw [List.flatMap_append, joined, List.flatMap_singleton, empty, List.append_nil]
    · rw [hlines]
    · rw [hchunks]

theorem chunkLineTurn_mirrors (mirrors : Mirrors told lines r m) (phase : r.phase = .chunkLine) :
    (chunkLineTurn r bytes).Mirrors policy told (lines ++ sizeLine r bytes) m := by
  unfold chunkLineTurn
  cases taken : takeLine chunkLineRoom bytes with
  | tooLong => trivial
  | unfinished =>
    have none : sizeLine r bytes = [] := by simp only [sizeLine, phase, taken]
    rw [none, List.append_nil]
    exact mirrors_wait mirrors bytes
  | whole line left =>
    have one : sizeLine r bytes = [line] := by simp only [sizeLine, phase, taken]
    rw [one]
    dsimp only
    cases read : ChunkLine.ofLine line with
    | error e => trivial
    | ok l =>
      dsimp only
      split
      · trivial
      · split
        · -- The last chunk begins a record like the others; that no more follow changes nothing.
          intro after told
          rw [List.append_cons] at told ⊢
          obtain ⟨u, first, last⟩ := (Message.collect policy).deliver_append_ok.mp told
          cases last
          rw [← List.append_assoc]
          have begins : ∀ c : Chunk, c.seen = 0 → Begun (.trailer 0) [line] [c] := fun _ _ => trivial
          exact (chunk_begins mirrors phase first begins).quiet rfl
        · intro after told
          apply chunk_begins mirrors phase told
          intro c unseen
          exact ⟨line, l, c, rfl, rfl, read, by rw [unseen, Nat.zero_add]⟩

theorem chunk_grows (mirrors : Mirrors told lines r m) {missing : Nat}
    (phase : r.phase = .chunkData missing) {data : Bytes} (short : data.length ≤ missing)
    {after : Message}
    (taken : (Message.collect policy).deliver m (Event.ofData (.chunk r.index) data) = (after, none)) :
    Mirrors (told ++ Event.ofData (.chunk r.index) data) lines
      { r with seen := r.seen + data.length, phase := .chunkData (missing - data.length) } after := by
  obtain ⟨format, joined, recorded⟩ :=
    mirrors.in_chunks (by rw [Past, phase]; rfl) (by simp [phase])
  obtain ⟨whole, cs, begun, rest, hlines, hchunks, index, measured, between⟩ := recorded
  rw [phase] at between
  obtain ⟨line, l, c, rfl, rfl, read, size⟩ := between
  have counted := Message.deliver_counted _ mirrors.counted taken
  rw [← index, Message.deliver_chunk hchunks] at taken
  cases taken
  refine ⟨mirrors.heads.same rfl, counted, ?_, ?_, ?_⟩
  · exact congrArg (· + data.length) mirrors.seen
  · rw [closedChunks_append, closedChunks_ofData, List.append_nil]
    exact mirrors.closed
  · refine .chunks format ?_ ⟨whole, cs, [line], [c.append data], hlines, rfl, index, measured,
      line, l, c.append data, rfl, rfl, read, ?_⟩
    · rw [hchunks, List.flatMap_append, List.flatMap_singleton] at joined
      rw [List.flatMap_append, List.flatMap_singleton]
      exact (List.append_assoc ..).symm.trans (congrArg (· ++ data) joined)
    · simp only [Chunk.append]
      omega

theorem chunk_closes (mirrors : Mirrors told lines r m) (phase : r.phase = .chunkData 0)
    {after : Message}
    (taken : (Message.collect policy).deliver m [.dataDone (.chunk r.index)] = (after, none)) :
    Mirrors (told ++ [.dataDone (.chunk r.index)]) lines
      { r with index := r.index + 1, phase := .chunkLine } after := by
  obtain ⟨format, joined, recorded⟩ :=
    mirrors.in_chunks (by rw [Past, phase]; rfl) (by simp [phase])
  obtain ⟨whole, cs, begun, rest, hlines, hchunks, index, measured, between⟩ := recorded
  rw [phase] at between
  obtain ⟨line, l, c, rfl, rfl, read, size⟩ := between
  have counted := Message.deliver_counted _ mirrors.counted taken
  have closing : after = { m with chunks := cs ++ [c.close] } := by
    simp only [Handler.deliver, Message.collect, Prod.mk.injEq, and_true] at taken
    rw [← taken, ← index, Message.changeChunk_last hchunks]
  subst closing
  refine ⟨mirrors.heads.same rfl, counted, mirrors.seen, ?_, ?_⟩
  · rw [closedChunks_append, mirrors.closed]
    exact List.range_succ.symm
  · refine .chunks format ?_ ⟨whole ++ [line], cs ++ [c.close], [], [], ?_, ?_, ?_, ?_, rfl, rfl⟩
    · rw [hchunks, List.flatMap_append] at joined
      rw [List.flatMap_append]
      exact joined
    · rw [hlines, List.append_nil]
    · rw [List.append_nil]
    · rw [List.length_append, index]
      rfl
    · exact List.rel_append measured (.cons ⟨l, read, congrArg some size⟩ .nil)

theorem chunkDataTurn_mirrors (mirrors : Mirrors told lines r m) (missing : Nat)
    (phase : r.phase = .chunkData missing) :
    (chunkDataTurn r missing bytes).Mirrors policy told lines m := by
  have short : (bytes.take missing).length ≤ missing := List.length_take_le missing bytes
  unfold chunkDataTurn
  dsimp only
  split
  · intro after taken
    exact chunk_grows mirrors phase short taken
  · rename_i full
    have complete : missing - (bytes.take missing).length = 0 := by omega
    split
    · intro after taken
      exact chunk_grows mirrors phase short taken
    · trivial
    · intro after taken
      obtain ⟨u, first, last⟩ := (Message.collect policy).deliver_append_ok.mp taken
      have grown := chunk_grows mirrors phase short first
      rw [complete] at grown
      rw [← List.append_assoc]
      exact chunk_closes grown rfl last

theorem trailerTurn_mirrors (mirrors : Mirrors told lines r m) (size : Nat)
    (phase : r.phase = .trailer size) : (trailerTurn r size bytes).Mirrors policy told lines m := by
  obtain ⟨format, joined, recorded⟩ :=
    mirrors.in_chunks (by rw [Past, phase]; rfl) (by simp [phase])
  obtain ⟨whole, cs, begun, rest, hlines, hchunks, index, measured, _⟩ := recorded
  have moved : ∀ next : Phase, (∀ begun rest, Begun next begun rest) → ∀ events trailers,
      closedChunks events = [] →
      Mirrors (told ++ events) lines { r with phase := next } { m with trailers } := by
    intro next free events trailers quiet
    refine ⟨mirrors.heads.same rfl, mirrors.counted.same rfl rfl rfl, mirrors.seen, ?_, ?_⟩
    · rw [closedChunks_append, quiet, List.append_nil]
      exact mirrors.closed
    · exact .chunks format joined
        ⟨whole, cs, begun, rest, hlines, hchunks, index, measured, free begun rest⟩
  unfold trailerTurn
  split
  · trivial
  · exact mirrors_wait mirrors bytes
  · intro after taken
    cases taken
    exact moved .done (fun _ _ => trivial) _ m.trailers rfl
  · intro after taken
    obtain ⟨trailers, same⟩ := Message.deliver_trailer m _ taken
    subst same
    exact moved (.trailer _) (fun _ _ => trivial) _ trailers (closedChunks_ofField _ _)

theorem Mirrors.no_parts (mirrors : Mirrors told lines r m) (phase : r.phase = .preamble ∨
    (∃ size, r.phase = .partHeader size) ∨ r.phase = .partData ∨ r.phase = .partEnd ∨
    ∃ opened, r.phase = .epilogue opened) : False := by
  have past : r.Past := by
    rcases phase with h | ⟨_, h⟩ | h | h | ⟨_, h⟩ <;> rw [Past, h] <;> rfl
  have inside : r.phase ≠ .body ∧ r.phase ≠ .done := by
    rcases phase with h | ⟨_, h⟩ | h | h | ⟨_, h⟩ <;> simp [h]
  obtain ⟨_, _, recorded⟩ := mirrors.in_chunks past inside
  obtain ⟨_, _, _, _, _, _, _, _, begun⟩ := recorded
  rcases phase with h | ⟨_, h⟩ | h | h | ⟨_, h⟩ <;> rw [h] at begun <;> exact begun

theorem sizeLine_none (other : r.phase ≠ .chunkLine) : sizeLine r bytes = [] := by
  unfold sizeLine
  split
  · rename_i here _
    exact absurd here other
  · rfl

theorem turn_mirrors (mirrors : Mirrors told lines r m) :
    (turn r bytes).Mirrors policy told (lines ++ sizeLine r bytes) m := by
  by_cases chunk : r.phase = .chunkLine
  · simpa only [turn, chunk] using chunkLineTurn_mirrors bytes mirrors chunk
  · rw [sizeLine_none bytes chunk, List.append_nil]
    cases phase : r.phase with
    | start => simpa only [turn, phase] using startTurn_mirrors bytes mirrors phase
    | startLine => simpa only [turn, phase] using startLineTurn_mirrors bytes mirrors phase
    | header size => simpa only [turn, phase] using headerTurn_mirrors bytes mirrors size phase
    | body => simpa only [turn, phase] using bodyTurn_mirrors bytes mirrors phase
    | chunkLine => exact absurd phase chunk
    | chunkData missing =>
      simpa only [turn, phase] using chunkDataTurn_mirrors bytes mirrors missing phase
    | trailer size => simpa only [turn, phase] using trailerTurn_mirrors bytes mirrors size phase
    | preamble => exact (mirrors.no_parts (.inl phase)).elim
    | partHeader size => exact (mirrors.no_parts (.inr (.inl ⟨size, phase⟩))).elim
    | partData => exact (mirrors.no_parts (.inr (.inr (.inl phase)))).elim
    | partEnd => exact (mirrors.no_parts (.inr (.inr (.inr (.inl phase))))).elim
    | epilogue opened => exact (mirrors.no_parts (.inr (.inr (.inr (.inr ⟨opened, phase⟩))))).elim
    | done => simpa only [turn, phase] using mirrors_wait mirrors bytes

end Turns

section Calls

variable {policy : Policy} {told : List Event} {lines : List Bytes} {r : Reader} {m after : Message}

theorem sizeLines_onward {next : Reader} {bytes rest : Bytes} {events : List Event}
    (ran : turn r bytes = .onward events next rest) :
    sizeLines r bytes = sizeLine r bytes ++ sizeLines next rest := by
  rw [sizeLines]
  split
  · rename_i other
    rw [ran] at other
    cases other
    rfl
  · rename_i other
    exact absurd ran (other events next rest)

theorem sizeLines_pause {next : Reader} {bytes rest : Bytes} {events : List Event}
    (ran : turn r bytes = .pause events next rest) : sizeLines r bytes = [] := by
  rw [sizeLines]
  split
  · rename_i other
    rw [ran] at other
    cases other
  · rfl

theorem sizeLine_pause {next : Reader} {bytes rest : Bytes} {events : List Event}
    (ran : turn r bytes = .pause events next rest) : sizeLine r bytes = [] := by
  by_cases phase : r.phase = .chunkLine
  · unfold sizeLine
    rw [phase]
    cases taken : takeLine chunkLineRoom bytes with
    | tooLong => rfl
    | unfinished => rfl
    | whole line left =>
      simp only [turn, phase, chunkLineTurn, taken] at ran
      split at ran
      · cases ran
      · split at ran
        · cases ran
        · split at ran <;> cases ran
  · exact sizeLine_none bytes phase

theorem scan_mirrors (r : Reader) (bytes : Bytes) (mirrors : Mirrors told lines r m)
    (taken : (Message.collect policy).deliver m (scan r bytes).events = (after, none))
    (x : Reading) (ended : (scan r bytes).result = .ok x) :
    Mirrors (told ++ (scan r bytes).events) (lines ++ sizeLines r bytes) x.reader after := by
  fun_induction scan r bytes generalizing told lines m with
  | case1 r bytes events next rest ran later =>
    rename_i ih
    obtain ⟨u, first, behind⟩ := (Message.collect policy).deliver_append_ok.mp taken
    have step : (turn r bytes).Mirrors policy told (lines ++ sizeLine r bytes) m :=
      turn_mirrors bytes mirrors
    rw [ran] at step
    rw [sizeLines_onward ran, ← List.append_assoc, ← List.append_assoc]
    exact ih (step u first) behind ended
  | case2 r bytes events next rest ran =>
    cases ended
    have step : (turn r bytes).Mirrors policy told (lines ++ sizeLine r bytes) m :=
      turn_mirrors bytes mirrors
    rw [ran, sizeLine_pause ran, List.append_nil] at step
    rw [sizeLines_pause ran, List.append_nil]
    exact step after taken
  | case3 r bytes events e ran => cases ended

theorem mirrors_counting (n : Nat) (mirrors : Mirrors told lines r m) :
    Mirrors told lines (r.counting n) m := by
  refine ⟨mirrors.heads, mirrors.counted, mirrors.seen, mirrors.closed, ?_⟩
  cases mirrors.stage with
  | before early seen index chunks lines => exact .before early seen index chunks lines
  | plain phase format fits index chunks => exact .plain phase format fits index chunks
  | chunks format joined recorded => exact .chunks format joined recorded

theorem push_mirrors {x y : Reading} {more : Bytes} (mirrors : Mirrors told lines x.reader m)
    (ran : x.push (Message.collect policy) m more = (after, .ok y)) :
    Mirrors (told ++ (scan x.reader (x.rest ++ more)).events)
      (lines ++ sizeLines x.reader (x.rest ++ more)) y.reader after := by
  obtain ⟨taken, z, ended, same⟩ := read_taken ran
  rw [same]
  exact mirrors_counting _ (scan_mirrors _ _ mirrors taken z ended)

theorem finish_mirrors {next : Reader} (mirrors : Mirrors told lines r m)
    (ran : r.finish (Message.collect policy) m = (after, .ok next)) :
    Mirrors (told ++ r.ending?.getD []) lines next after := by
  have moved : next = { r with phase := .done } := by
    have result := congrArg Prod.snd ran
    exact finish_reader r next (Message.collect policy) m result
  subst moved
  cases phase : r.phase with
  | done =>
    have none : r.ending? = some [] := by simp only [ending?, phase]
    have same : { r with phase := .done } = r := by rw [← phase]
    rw [same] at ran ⊢
    simp only [finish, none, Handler.deliver, Prod.mk.injEq] at ran
    rw [none, ← ran.1]
    exact mirrors.quiet rfl
  | body =>
    cases mirrors.stage with
    | before early =>
      rw [phase] at early
      cases early
    | chunks _ _ recorded =>
      obtain ⟨_, _, _, _, _, _, _, _, begun⟩ := recorded
      rw [phase] at begun
      exact absurd begun id
    | plain _ format fits index chunks =>
      have ended : r.ending? = some [.dataDone .body] := by
        cases ends : r.ending? with
        | none => simp [finish, ends] at ran
        | some events =>
          simp only [ending?, phase] at ends
          split at ends <;> cases ends
          rfl
      simp only [finish, ended, Handler.deliver, Message.collect, Prod.mk.injEq] at ran
      rw [ended, ← ran.1]
      refine ⟨mirrors.heads, mirrors.counted, mirrors.seen, ?_, .plain (.inr rfl) format fits index chunks⟩
      rw [closedChunks_append, mirrors.closed]
      exact List.append_nil _
  | epilogue opened => exact (mirrors.no_parts (.inr (.inr (.inr (.inr ⟨opened, phase⟩))))).elim
  | _ =>
    have none : r.ending? = none := by simp only [ending?, phase]
    simp [finish, none] at ran

theorem built_mirrors {skip : Bool} {x : Reading} (built : Built policy skip told lines x m) :
    Mirrors told lines x.reader m := by
  induction built with
  | fresh => exact ⟨⟨rfl, nofun⟩, ⟨rfl, nofun⟩, rfl, rfl, .before rfl rfl rfl rfl rfl⟩
  | call _ ran ih => exact push_mirrors ih ran
  | finish _ ran ih => exact finish_mirrors ih ran

theorem Recorded.complete {phase : Phase} {count : Nat} {chunks : List Chunk}
    (recorded : Recorded phase count lines chunks) (index : Nat) (closed : index < count) :
    ∃ line c, lines[index]? = some line ∧ chunks[index]? = some c ∧ Measured line c := by
  obtain ⟨whole, cs, begun, rest, rfl, rfl, rfl, measured, _⟩ := recorded
  obtain ⟨same, each⟩ := List.forall₂_iff_get.mp measured
  have inside : index < whole.length := by omega
  refine ⟨whole[index], cs[index], ?_, ?_, each index inside closed⟩
  · rw [List.getElem?_append_left inside, List.getElem?_eq_getElem inside]
  · rw [List.getElem?_append_left closed, List.getElem?_eq_getElem closed]

theorem Mirrors.complete (mirrors : Mirrors told lines r m) (index : Nat)
    (ended : .dataDone (.chunk index) ∈ told) :
    ∃ line c, lines[index]? = some line ∧ m.chunks[index]? = some c ∧ Measured line c := by
  have closed : index ∈ closedChunks told := List.mem_filterMap.mpr ⟨_, ended, rfl⟩
  rw [mirrors.closed, List.mem_range] at closed
  cases mirrors.stage with
  | before _ _ first => rw [first] at closed; exact absurd closed (Nat.not_lt_zero index)
  | plain _ _ _ first => rw [first] at closed; exact absurd closed (Nat.not_lt_zero index)
  | chunks _ _ recorded => exact recorded.complete index closed

theorem Mirrors.unrecorded (mirrors : Mirrors told lines r m) (other : r.framing.format ≠ .chunked) :
    m.chunks = [] ∧ ∀ d, r.framing.declared = some d → r.seen ≤ d := by
  cases mirrors.stage with
  | before _ seen _ chunks =>
    refine ⟨chunks, fun d _ => ?_⟩
    rw [seen]
    exact Nat.zero_le d
  | plain _ _ fits _ chunks => exact ⟨chunks, fits⟩
  | chunks format => exact absurd format other

theorem Mirrors.joined (mirrors : Mirrors told lines r m) (chunked : r.framing.format = .chunked) :
    m.chunks.flatMap (·.body) = m.body := by
  cases mirrors.stage with
  | before _ seen _ chunks =>
    have empty : m.body = [] := by
      rw [← List.length_eq_zero_iff, ← mirrors.counted.whole, mirrors.seen, seen]
    rw [chunks, empty]
    rfl
  | plain _ format => exact absurd chunked format
  | chunks _ joined => exact joined

-- Chunks are recorded if and only if the body comes in them; their data is then the body, and those
-- that are complete have the sizes on their lines.
theorem message_mirrors_reader {policy : Policy} {skip : Bool} {told : List Event}
    {lines : List Bytes} {x : Reading} {m : Message} (built : Built policy skip told lines x m) :
    m.declared = x.reader.framing.declared ∧
      m.seen = m.body.length ∧ m.seen = x.reader.seen ∧
      (x.reader.framing.format ≠ .chunked → ∀ d, m.declared = some d → m.seen ≤ d) ∧
      (m.chunks ≠ [] → m.isChunked = true) ∧
      (x.reader.framing.format = .chunked → m.chunks.flatMap (·.body) = m.body) ∧
      (x.reader.framing.format ≠ .chunked → m.chunks = []) ∧
      (∀ c ∈ m.chunks, c.seen = c.body.length) ∧
      ∀ index, .dataDone (.chunk index) ∈ told →
        ∃ line c l, lines[index]? = some line ∧ m.chunks[index]? = some c ∧
          ChunkLine.ofLine line = .ok l ∧ c.declared = some l.size := by
  have mirrors := built_mirrors built
  have declared := mirrors.heads.declared
  refine ⟨declared, mirrors.counted.whole, mirrors.seen, ?_, ?_, mirrors.joined, ?_,
    mirrors.counted.chunks, ?_⟩
  · intro other d known
    rw [declared] at known
    rw [mirrors.seen]
    exact (mirrors.unrecorded other).2 d known
  · intro some
    apply mirrors.heads.coded
    by_contra other
    exact some (mirrors.unrecorded other).1
  · intro other
    exact (mirrors.unrecorded other).1
  · intro index ended
    obtain ⟨line, c, here, record, l, read, size⟩ := mirrors.complete index ended
    exact ⟨line, c, l, here, record, read, size⟩

theorem mirrors_in_fragments :
    let head := ascii "HTTP/1.1 200 OK\r\nTransfer-Encoding: chunked\r\n\r\n"
    ∃ told lines x m c, Built {} false told lines x m ∧
      x.reader.consumed = (head ++ ascii "2;a\r\nhi\r\n1\r\n").length ∧
      .dataDone (.chunk 0) ∈ told ∧ m.body = ascii "hi" ∧ m.chunks.flatMap (·.body) = m.body ∧
      m.chunks[0]? = some c ∧ c.declared = some 2 := by
  intro head
  let begun : Message :=
    { kind := .response, version := some .v11, status := 200, reason := some "OK".toList,
      headers := ⟨[("Transfer-Encoding".toList, ["chunked".toList])]⟩, headersComplete := true,
      body := ascii "h", seen := 1,
      chunks := [{ body := ascii "h", seen := 1, extensions := ⟨[("a".toList, [[]])]⟩ }] }
  let between : Reading :=
    ⟨{ phase := .chunkData 1, sender := .server 200, framing := ⟨.chunked, none, none⟩, seen := 1,
       consumed := 53 }, []⟩
  let more : Message :=
    { begun with
      body := ascii "hi", seen := 2,
      chunks := [ { body := ascii "hi", seen := 2, declared := some 2,
                    extensions := ⟨[("a".toList, [[]])]⟩ }, {} ] }
  let later : Reading :=
    ⟨{ phase := .chunkData 1, sender := .server 200, framing := ⟨.chunked, none, none⟩, seen := 2,
       index := 1, consumed := 59 }, []⟩
  have first : ({ reader := {} } : Reading).push (Message.collect {}) {} (head ++ ascii "2;a\r\nh")
      = (begun, .ok between) := by
    decide +kernel
  have second : between.push (Message.collect {}) begun (ascii "i\r\n1\r\n") = (more, .ok later) := by
    decide +kernel
  have built := Built.call (.call .fresh first) second
  have ended : .dataDone (.chunk 0) ∈ (scan between.reader (ascii "i\r\n1\r\n")).events := by
    decide +kernel
  obtain ⟨_, _, _, _, _, joined, _⟩ := message_mirrors_reader built
  exact ⟨_, _, _, _, _, built, by decide, List.mem_append_right _ ended, rfl, joined rfl, rfl, rfl⟩

theorem body_without_records :
    let input := ascii "HTTP/1.1 200 OK\r\nContent-Length: 2\r\n\r\nhi"
    ∃ x m, Built {} false (scan {} input).events (sizeLines {} input) x m ∧ m.body = ascii "hi" ∧
      m.chunks.flatMap (·.body) ≠ m.body := by
  intro input
  have ran : ({ reader := {} } : Reading).push (Message.collect {}) {} input
      = ({ kind := .response, version := some .v11, status := 200, reason := some "OK".toList,
           headers := ⟨[("Content-Length".toList, ["2".toList])]⟩, headersComplete := true,
           body := ascii "hi", seen := 2 },
         .ok ⟨{ phase := .done, sender := .server 200, framing := ⟨.raw, some 2, none⟩, seen := 2,
                consumed := 40 }, []⟩) := by
    decide +kernel
  exact ⟨_, _, .call .fresh ran, rfl, by decide⟩

end Calls

end HttpWire.Reader
