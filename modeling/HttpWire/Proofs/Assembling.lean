import HttpWire.Proofs.Blending
import HttpWire.Proofs.Collecting
import HttpWire.Proofs.Faults

namespace HttpWire.Message

variable (policy : Policy)

section Collection

theorem append_append (m : Message) (a b : Bytes) : (m.append a).append b = m.append (a ++ b) := by
  simp only [append, List.append_assoc, List.length_append, Nat.add_assoc]

theorem changeChunk_twice (m : Message) (index : Nat) (first second : Chunk → Chunk) :
    (m.changeChunk index first).changeChunk index second
      = m.changeChunk index (second ∘ first) := by
  simp only [changeChunk, List.length_modify, List.length_append, List.length_replicate]
  have present : index + 1 - (m.chunks.length + (index + 1 - m.chunks.length)) = 0 := by omega
  rw [present, List.replicate_zero, List.append_nil, List.modify_modify_eq]

theorem collect_blends : (collect policy).Blends := by
  intro m place a b
  cases place with
  | body => exact congrArg (·, none) (m.append_append a b)
  | chunk index =>
    have grown : (fun c : Chunk => c.append b) ∘ (fun c : Chunk => c.append a)
        = fun c : Chunk => c.append (a ++ b) := by
      funext c
      simp only [Function.comp_apply, Chunk.append, List.append_assoc, List.length_append,
        Nat.add_assoc]
    have both := changeChunk_twice ((m.append a).append b) index (·.append a) (·.append b)
    rw [grown] at both
    have whole := congrArg (·.changeChunk index (·.append (a ++ b))) (m.append_append a b)
    exact congrArg (·, none) (both.trans whole)
  | preamble => rfl
  | part index => rfl
  | epilogue => rfl

end Collection

section Final

-- Like a reader, a message does not lack input where it is refused.

variable (m : Message)

theorem takeStart_final (line : StartLine) : (m.takeStart line).2 ≠ some .moreData := by
  unfold takeStart
  split
  · dsimp only
    split <;> nofun
  · nofun

theorem endHeaders_final (format : BodyFormat) :
    (m.endHeaders policy format).2 ≠ some .moreData := by
  unfold endHeaders
  split
  · nofun
  · intro failed
    obtain ⟨_, same⟩ := Option.ite_none_right_eq_some.mp failed
    cases same

theorem collect_final (event : Event) : (collect policy m event).2 ≠ some .moreData := by
  unfold collect
  split
  · exact m.takeStart_final _
  · nofun
  · exact m.endHeaders_final policy _
  · nofun
  · split <;> nofun
  · nofun
  · nofun
  · nofun
  · split <;> nofun
  · nofun

theorem deliver_final (events : List Event) :
    ((collect policy).deliver m events).2 ≠ some .moreData := by
  induction events generalizing m with
  | nil => nofun
  | cons event events ih =>
    rw [Handler.deliver]
    cases told : collect policy m event with
    | mk u refused =>
      cases refused with
      | none => exact ih u
      | some e =>
        have other := m.collect_final policy event
        rwa [told] at other

theorem read_final (r : Reader) (bytes : Bytes) :
    (r.read (collect policy) m bytes).2 ≠ .error .moreData := by
  unfold Reader.read
  dsimp only
  cases told : (collect policy).deliver m (r.scan bytes).events with
  | mk u refused =>
    cases refused with
    | some e =>
      have other := m.deliver_final policy (r.scan bytes).events
      rw [told] at other
      intro failed
      cases failed
      exact other rfl
    | none =>
      cases ran : (r.scan bytes).result with
      | ok x => nofun
      | error e =>
        intro failed
        cases failed
        exact r.scan_final bytes ran

theorem decode_final (charset : Charset) (bytes : Bytes) :
    charset.decode bytes ≠ .error .moreData := by
  unfold Charset.decode
  split
  · nofun
  · split <;> nofun
  · split <;> nofun
  · nofun

theorem formText_final : m.formText ≠ .error .moreData := by
  unfold formText
  split
  · nofun
  · nofun
  · exact decode_final _ _

theorem decodeBody_final : m.decodeBody ≠ .error .moreData := by
  unfold decodeBody
  split
  · nofun
  · split
    · exact map_final _ m.formText_final
    · split
      · nofun
      · nofun
      · exact map_final _ (decode_final _ _)

end Final

def decoded (m : Message) : Except Error Message :=
  if policy.keepBody then .ok m else m.decodeBody

theorem decoded_final (m : Message) : m.decoded policy ≠ .error .moreData := by
  unfold decoded
  split
  · nofun
  · exact m.decodeBody_final

theorem ofBytes_eq (bytes : Bytes) :
    ofBytes policy bytes = match Reader.read {} (collect policy) {} bytes with
      | (_, .error e) => .error e
      | (m, .ok x) =>
        if x.progress = .incomplete then .error .moreData
        else (m.decoded policy).map fun m => (m, x.reader.consumed) := by
  unfold ofBytes
  cases ran : Reader.read {} (collect policy) {} bytes with
  | mk m result =>
    cases result with
    | error e => rfl
    | ok x =>
      have used : x.reader.consumed = x.used bytes := by
        rw [Reader.read_consumed ran]
        exact Nat.zero_add _
      dsimp only
      rw [used]
      unfold decoded
      split
      · rfl
      · split <;> rfl

-- What becomes of all of the input does not depend on its fragments.
theorem ofBytes_poured (pieces : List Bytes) :
    ofBytes policy pieces.flatten = match Reader.pour (collect policy) pieces {} {} with
      | (_, .error e) => .error e
      | (m, .ok x) =>
        if x.progress = .incomplete then .error .moreData
        else (m.decoded policy).map fun m => (m, x.reader.consumed) := by
  obtain ⟨state, reader⟩ :=
    Reader.pour_whole (collect_blends policy) (Reader.fresh_idle (collect policy) {}) pieces
  rw [ofBytes_eq]
  cases cut : Reader.pour (collect policy) pieces {} {} with
  | mk m result =>
    cases whole : Reader.read {} (collect policy) {} pieces.flatten with
    | mk m' result' =>
      rw [cut, Reader.Reading.push, List.nil_append, whole] at state reader
      cases state
      cases result with
      | error e =>
        cases result' with
        | error e' =>
          cases reader
          rfl
        | ok y => cases reader
      | ok x =>
        cases result' with
        | error e' => cases reader
        | ok y =>
          obtain ⟨r, rest⟩ := x
          obtain ⟨r', rest'⟩ := y
          cases reader
          rfl

theorem pour_final (pieces : List Bytes) :
    (Reader.pour (collect policy) pieces {} {}).2 ≠ .error .moreData := by
  have reader :=
    (Reader.pour_whole (collect_blends policy) (Reader.fresh_idle (collect policy) {}) pieces).2
  have other := read_final policy {} {} pieces.flatten
  intro failed
  rw [failed, Reader.Reading.push, List.nil_append] at reader
  cases whole : (Reader.read {} (collect policy) {} pieces.flatten).2 with
  | ok x =>
    rw [whole] at reader
    cases reader
  | error e =>
    rw [whole] at reader other
    cases reader
    exact other rfl

theorem final_alone {e : Error} (other : e ≠ .moreData) (e' : Error) :
    e = e' ∧ e' ≠ .moreData ↔ e = e' :=
  and_iff_left_of_imp fun same => same ▸ other

-- They are the same message and took the same number of bytes; an error is the same one; and input
-- is lacking for the whole if the reader still waits for some after the fragments.
theorem fragments_build_as_whole (pieces : List Bytes) :
    let run := Reader.pour (collect policy) pieces {} {}
    (∀ m n, ofBytes policy pieces.flatten = .ok (m, n) ↔
      ∃ built x, run = (built, .ok x) ∧ x.progress ≠ .incomplete ∧
        built.decoded policy = .ok m ∧ x.reader.consumed = n) ∧
    (∀ e, ofBytes policy pieces.flatten = .error e ∧ e ≠ .moreData ↔
      run.2 = .error e ∨
        ∃ built x, run = (built, .ok x) ∧ x.progress ≠ .incomplete ∧
          built.decoded policy = .error e) ∧
    (ofBytes policy pieces.flatten = .error .moreData ↔
      ∃ built x, run = (built, .ok x) ∧ x.progress = .incomplete) := by
  have final := pour_final policy pieces
  rw [ofBytes_poured policy pieces]
  dsimp only
  generalize Reader.pour (collect policy) pieces {} {} = run at final ⊢
  obtain ⟨built, result⟩ := run
  cases result with
  | error e =>
    have other : e ≠ .moreData := fun same => final (congrArg Except.error same)
    simp [other, final_alone other]
  | ok x =>
    by_cases waits : x.progress = .incomplete
    · simp [waits]
    · cases read : built.decoded policy with
      | ok m => simp [waits, read, Except.map]
      | error e =>
        have other : e ≠ .moreData := fun same =>
          built.decoded_final policy (read.trans (congrArg Except.error same))
        simp [waits, read, Except.map, other, final_alone other]

end HttpWire.Message
