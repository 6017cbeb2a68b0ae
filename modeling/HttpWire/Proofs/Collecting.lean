import HttpWire.Message.Assembly
import HttpWire.Proofs.ListValues

namespace HttpWire

namespace Handler

variable {σ : Type} (handler : Handler σ) {s t : σ} {event : Event} {first last : List Event}

theorem deliver_cons_ok :
    handler.deliver s (event :: last) = (t, none) ↔
      ∃ u, handler s event = (u, none) ∧ handler.deliver u last = (t, none) := by
  rw [deliver]
  cases told : handler s event with
  | mk u refused =>
    cases refused with
    | none =>
      constructor
      · intro rest
        exact ⟨u, rfl, rest⟩
      · intro holds
        obtain ⟨_, same, rest⟩ := holds
        cases same
        exact rest
    | some e =>
      constructor
      · intro rest
        cases rest
      · intro holds
        obtain ⟨_, same, _⟩ := holds
        cases same

theorem deliver_append_ok :
    handler.deliver s (first ++ last) = (t, none) ↔
      ∃ u, handler.deliver s first = (u, none) ∧ handler.deliver u last = (t, none) := by
  induction first generalizing s with
  | nil =>
    constructor
    · intro rest
      exact ⟨s, rfl, rest⟩
    · intro holds
      obtain ⟨_, same, rest⟩ := holds
      cases same
      exact rest
  | cons event first ih =>
    rw [List.cons_append, deliver_cons_ok]
    constructor
    · intro holds
      obtain ⟨u, told, rest⟩ := holds
      obtain ⟨v, before, behind⟩ := ih.mp rest
      exact ⟨v, (handler.deliver_cons_ok).mpr ⟨u, told, before⟩, behind⟩
    · intro holds
      obtain ⟨v, before, behind⟩ := holds
      obtain ⟨u, told, rest⟩ := (handler.deliver_cons_ok).mp before
      exact ⟨u, told, ih.mpr ⟨v, rest, behind⟩⟩

end Handler

namespace Message

variable {policy : Policy} {m m' : Message}

section Frames

-- What the parts of a header change, and with it what they leave alone.

theorem takeStart_eq (m : Message) (line : StartLine) :
    ∃ kind version method uri host port status reason,
      (m.takeStart line).1
        = { m with kind, version, method, uri, host, port, status, reason } := by
  unfold takeStart
  split
  · dsimp only
    split
    · rename_i taken
      obtain ⟨_, _, same⟩ := Option.map_eq_some_iff.mp taken
      subst same
      exact ⟨_, _, _, _, _, _, _, _, rfl⟩
    · exact ⟨_, _, _, _, _, _, _, _, rfl⟩
  · exact ⟨_, _, _, _, _, _, _, _, rfl⟩

theorem addHeader_eq (m : Message) (name value : Text) :
    ∃ headers cookies, m.addHeader name value = { m with headers, cookies } := by
  unfold addHeader
  split
  · exact ⟨_, _, rfl⟩
  · exact ⟨_, _, rfl⟩

theorem applyHostField_eq (m : Message) : ∃ host port, m.applyHostField = { m with host, port } := by
  unfold applyHostField
  split
  · exact ⟨_, _, rfl⟩
  · split
    · exact ⟨_, _, rfl⟩
    · exact ⟨_, _, rfl⟩

theorem endHeaders_eq (m : Message) (policy : Policy) (format : BodyFormat) :
    ∃ host port headersComplete,
      (m.endHeaders policy format).1 = { m with host, port, headersComplete } := by
  obtain ⟨host, port, placed⟩ := m.applyHostField_eq
  unfold endHeaders
  split
  · exact ⟨_, _, _, rfl⟩
  · dsimp only
    split
    · rw [placed]
      exact ⟨_, _, _, rfl⟩
    · exact ⟨_, _, _, rfl⟩

theorem endHeaders_ok {format : BodyFormat} (ended : m.endHeaders policy format = (m', none)) :
    format ≠ .multipart ∧ ∃ host port headersComplete, m' = { m with host, port, headersComplete } := by
  refine ⟨fun parts => ?_, ?_⟩
  · unfold endHeaders at ended
    rw [if_pos parts] at ended
    cases ended
  · have same := m.endHeaders_eq policy format
    rwa [ended] at same

end Frames

section Chunks

theorem modify_last (cs : List Chunk) (c : Chunk) (change : Chunk → Chunk) :
    (cs ++ [c]).modify cs.length change = cs ++ [change c] := by
  have inside : cs.length < (cs ++ [c]).length := by simp
  rw [List.modify_eq_take_cons_drop inside]
  simp

theorem changeChunk_new (change : Chunk → Chunk) :
    m.changeChunk m.chunks.length change = { m with chunks := m.chunks ++ [change .empty] } := by
  unfold changeChunk
  rw [Nat.add_sub_cancel_left]
  exact congrArg _ (modify_last m.chunks .empty change)

theorem changeChunk_last {cs : List Chunk} {c : Chunk} (last : m.chunks = cs ++ [c])
    (change : Chunk → Chunk) :
    m.changeChunk cs.length change = { m with chunks := cs ++ [change c] } := by
  have full : cs.length + 1 - (cs ++ [c]).length = 0 := by simp
  unfold changeChunk
  rw [last, full, List.replicate_zero, List.append_nil]
  exact congrArg _ (modify_last cs c change)

theorem changeChunk_mem {index : Nat} {change : Chunk → Chunk} {c : Chunk}
    (member : c ∈ (m.changeChunk index change).chunks) :
    ∃ d, (d ∈ m.chunks ∨ d = .empty) ∧ (c = d ∨ c = change d) := by
  obtain ⟨i, here⟩ := List.mem_iff_getElem?.mp member
  unfold changeChunk at here
  rw [List.getElem?_modify] at here
  obtain ⟨d, old, same⟩ := Option.map_eq_some_iff.mp here
  refine ⟨d, ?_, ?_⟩
  · rcases List.mem_append.mp (List.mem_of_getElem? old) with present | fresh
    · exact .inl present
    · exact .inr (List.eq_of_mem_replicate fresh)
  · split at same
    · exact .inr same.symm
    · exact .inl same.symm

end Chunks

section Counting

structure Counted (m : Message) : Prop where
  whole : m.seen = m.body.length
  chunks : ∀ c ∈ m.chunks, c.seen = c.body.length

theorem Counted.change {index : Nat} {change : Chunk → Chunk} (counted : m.Counted)
    (keeps : ∀ c, c.seen = c.body.length → (change c).seen = (change c).body.length) :
    (m.changeChunk index change).Counted := by
  refine ⟨counted.whole, fun c member => ?_⟩
  obtain ⟨d, old, same⟩ := changeChunk_mem member
  have before : d.seen = d.body.length := by
    rcases old with present | rfl
    · exact counted.chunks d present
    · rfl
  rcases same with rfl | rfl
  · exact before
  · exact keeps d before

theorem Counted.append (counted : m.Counted) (data : Bytes) : (m.append data).Counted := by
  refine ⟨?_, counted.chunks⟩
  simp only [Message.append, List.length_append, counted.whole]

theorem Counted.same (counted : m.Counted) (seen : m'.seen = m.seen) (body : m'.body = m.body)
    (chunks : m'.chunks = m.chunks) : m'.Counted := by
  refine ⟨?_, ?_⟩
  · rw [seen, body]
    exact counted.whole
  · rw [chunks]
    exact counted.chunks

theorem collect_counted (counted : m.Counted) (event : Event) :
    (collect policy m event).1.Counted := by
  unfold collect
  split
  · rename_i line
    obtain ⟨_, _, _, _, _, _, _, _, same⟩ := m.takeStart_eq line
    rw [same]
    exact counted.same rfl rfl rfl
  · rename_i f
    dsimp only
    split
    · exact counted
    · obtain ⟨_, _, same⟩ := m.addHeader_eq f.name f.value
      rw [same]
      exact counted.same rfl rfl rfl
  · rename_i format
    obtain ⟨_, _, _, same⟩ := m.endHeaders_eq policy format
    rw [same]
    exact counted.same rfl rfl rfl
  · exact counted.append _
  · split
    · exact counted
    · exact counted.change fun c before => before
  · exact counted.change fun c before => before
  · refine (counted.append _).change fun c before => ?_
    simp only [Chunk.append, List.length_append, before]
  · exact counted.change fun c before => before
  · split
    · exact counted
    · exact counted.same rfl rfl rfl
  · exact counted

theorem deliver_counted (events : List Event) (counted : m.Counted)
    (told : (collect policy).deliver m events = (m', none)) : m'.Counted := by
  induction events generalizing m with
  | nil =>
    cases told
    exact counted
  | cons event events ih =>
    obtain ⟨u, first, rest⟩ := (collect policy).deliver_cons_ok.mp told
    have step : (collect policy m event).1.Counted := collect_counted counted event
    rw [first] at step
    exact ih step rest

end Counting

section Groups

def takeField (m : Message) (f : Field) : Message :=
  f.elements.foldl (fun m value => if value = [] then m else m.addHeader f.name value) m

theorem deliver_elements (m : Message) (name : Text) (elements : List Text) :
    (collect policy).deliver m (elements.map fun value => .element .header ⟨name, value⟩)
      = (elements.foldl (fun m value => if value = [] then m else m.addHeader name value) m, none) := by
  induction elements generalizing m with
  | nil => rfl
  | cons value elements ih =>
    simp only [List.map_cons, Handler.deliver, collect, List.foldl_cons]
    exact ih _

theorem deliver_field (m : Message) (f : Field) :
    (collect policy).deliver m (Event.ofField .header f) = (m.takeField f, none) :=
  deliver_elements m f.name f.elements

theorem takeField_eq (m : Message) (f : Field) :
    ∃ headers cookies, m.takeField f = { m with headers, cookies } := by
  unfold takeField
  induction f.elements generalizing m with
  | nil => exact ⟨_, _, rfl⟩
  | cons value elements ih =>
    obtain ⟨headers, cookies, first⟩ := m.addHeader_eq f.name value
    rw [List.foldl_cons]
    split
    · exact ih m
    · obtain ⟨later, more, rest⟩ := ih (m.addHeader f.name value)
      rw [rest, first]
      exact ⟨_, _, rfl⟩

theorem addHeader_values (m : Message) (name value k : Text) (list : isCookie k = false) :
    (m.addHeader name value).headers.values k
      = m.headers.values k ++ if Text.sameName name k then [value] else [] := by
  unfold addHeader
  split
  · rename_i cookie
    have differ : ¬ Text.sameName name k = true := by
      intro same
      have both : isCookie name = isCookie k := Text.sameName_congr same _
      rw [both, list] at cookie
      cases cookie
    rw [if_neg differ, List.append_nil]
    rfl
  · exact m.headers.values_insert name value k

theorem takeField_values (m : Message) (f : Field) (k : Text) (list : isCookie k = false) :
    (m.takeField f).headers.values k
      = m.headers.values k ++ if Text.sameName f.name k then f.elements.filter (· ≠ []) else [] := by
  unfold takeField
  induction f.elements generalizing m with
  | nil => simp
  | cons value elements ih =>
    rw [List.foldl_cons, ih]
    by_cases empty : value = []
    · simp [empty]
    · rw [if_neg empty, addHeader_values m f.name value k list]
      by_cases same : Text.sameName f.name k = true
      · simp [same, empty]
      · simp [same]

theorem append_nil (m : Message) : m.append [] = m := by
  unfold append
  rw [List.append_nil]
  rfl

theorem deliver_body (m : Message) (data : Bytes) :
    (collect policy).deliver m (Event.ofData .body data) = (m.append data, none) := by
  unfold Event.ofData
  split
  · rename_i empty
    subst empty
    rw [append_nil]
    rfl
  · rfl

theorem deliver_chunk {cs : List Chunk} {c : Chunk} (last : m.chunks = cs ++ [c]) (data : Bytes) :
    (collect policy).deliver m (Event.ofData (.chunk cs.length) data)
      = ({ m.append data with chunks := cs ++ [c.append data] }, none) := by
  unfold Event.ofData
  split
  · rename_i empty
    subst empty
    have same : c.append [] = c := by
      unfold Chunk.append
      rw [List.append_nil]
      rfl
    rw [append_nil, same, ← last]
    rfl
  · simp only [Handler.deliver, collect]
    rw [changeChunk_last (m := m.append data) last]

theorem deliver_extensions {cs : List Chunk} {c : Chunk} (extensions : List Extension)
    (last : m.chunks = cs ++ [c])
    (told : (collect policy).deliver m (extensions.map (Event.extension cs.length)) = (m', none)) :
    ∃ d, d.body = c.body ∧ d.seen = c.seen ∧ m' = { m with chunks := cs ++ [d] } := by
  induction extensions generalizing m c with
  | nil =>
    cases told
    exact ⟨c, rfl, rfl, by rw [← last]⟩
  | cons e extensions ih =>
    obtain ⟨u, first, rest⟩ := (collect policy).deliver_cons_ok.mp told
    unfold collect at first
    dsimp only at first
    split at first
    · cases first
    · cases first
      rw [changeChunk_last last] at rest
      obtain ⟨d, body, seen, same⟩ := ih rfl rest
      exact ⟨d, body, seen, same⟩

-- A chunk line adds a record without data, whatever extensions it has.
theorem deliver_chunkLine (extensions : List Extension)
    (told : (collect policy).deliver m
      (extensions.map (Event.extension m.chunks.length) ++ [.extensionsDone m.chunks.length])
        = (m', none)) :
    ∃ c : Chunk, c.body = [] ∧ c.seen = 0 ∧ m' = { m with chunks := m.chunks ++ [c] } := by
  obtain ⟨u, before, closing⟩ := (collect policy).deliver_append_ok.mp told
  have closed : m' = u.changeChunk m.chunks.length id := by
    simp only [Handler.deliver, collect, Prod.mk.injEq, and_true] at closing
    exact closing.symm
  cases extensions with
  | nil =>
    cases before
    rw [changeChunk_new] at closed
    exact ⟨.empty, rfl, rfl, closed⟩
  | cons e extensions =>
    obtain ⟨v, first, rest⟩ := (collect policy).deliver_cons_ok.mp before
    unfold collect at first
    dsimp only at first
    split at first
    · cases first
    · cases first
      rw [changeChunk_new] at rest
      obtain ⟨d, body, seen, same⟩ := deliver_extensions extensions rfl rest
      rw [same, changeChunk_last rfl] at closed
      exact ⟨d, body, seen, closed⟩

theorem deliver_trailer_elements (m : Message) (name : Text) (elements : List Text)
    (told : (collect policy).deliver m
      (elements.map fun value => .element .trailer ⟨name, value⟩) = (m', none)) :
    ∃ trailers, m' = { m with trailers } := by
  induction elements generalizing m with
  | nil =>
    cases told
    exact ⟨_, rfl⟩
  | cons value elements ih =>
    obtain ⟨u, first, rest⟩ := (collect policy).deliver_cons_ok.mp told
    unfold collect at first
    dsimp only at first
    split at first
    · cases first
    · cases first
      obtain ⟨trailers, same⟩ := ih (m.addTrailer name value) rest
      exact ⟨trailers, same⟩

theorem deliver_trailer (m : Message) (f : Field)
    (told : (collect policy).deliver m (Event.ofField .trailer f) = (m', none)) :
    ∃ trailers, m' = { m with trailers } := by
  obtain ⟨u, first, rest⟩ := (collect policy).deliver_cons_ok.mp told
  cases first
  exact deliver_trailer_elements m f.name f.elements rest

end Groups

end Message
end HttpWire
