import HttpWire.Proofs.Mirroring
import HttpWire.Proofs.WrittenMessages

-- A reader that got behind the header has found the start line and the fields.
namespace HttpWire

namespace Reader

section Inversion

theorem progress_past (r : Reader) (some : r.progress ≠ .incomplete) : r.Past := by
  unfold progress isDone isOpenEnded at some
  unfold Past
  cases phase : r.phase <;> rw [phase] at some <;> first | rfl | exact absurd rfl some

theorem header_found (r : Reader) (size : Nat) (phase : r.phase = .header size) (bytes : Bytes)
    (x : Reading) (ended : (scan r bytes).result = .ok x) (past : x.reader.Past) :
    ∃ (lines : List Bytes) (fields : List Field) (noted settled : Framing) (rest : Bytes),
      bytes = sectionBytes lines ++ rest ∧ List.Forall₂ FieldLine lines fields ∧
      fields.foldlM Framing.note r.framing = .ok noted ∧ noted.settle r.sender = .ok settled ∧
      scan r bytes
        = (scan { r with framing := settled, phase := bodyPhase settled.format } rest).announce
            (fields.flatMap (Event.ofField .header) ++ [.headerDone settled.format]) := by
  fun_induction scan r bytes generalizing size with
  | case1 r bytes told next rest ran later ih =>
    simp only [turn, phase, headerTurn] at ran
    split at ran
    · cases ran
    · cases ran
    · -- The line that ends the section: no field is left, and the framing is settled.
      rename_i closed
      obtain ⟨whole, -⟩ := (sectionLine_closed_iff _ _ _).mp closed
      split at ran
      · cases ran
      · rename_i settled decided
        cases ran
        exact ⟨[], [], r.framing, settled, rest, whole, .nil, rfl, decided, rfl⟩
    · rename_i f after left taken
      split at ran
      · cases ran
      · rename_i fr noted
        cases ran
        obtain ⟨line, here, read, _, _⟩ := (sectionLine_field_iff _ _ _ _ _).mp taken
        obtain ⟨lines, fields, last, settled, behind, whole, reads, folded, decided, same⟩ :=
          ih after rfl ended
        refine ⟨line :: lines, f :: fields, last, settled, behind, ?_, .cons read reads, ?_, decided, ?_⟩
        · rw [here, whole, sectionBytes_cons, List.append_assoc, List.append_assoc]
        · rw [List.foldlM_cons, noted]
          exact folded
        · rw [List.flatMap_cons, List.append_assoc, ← announce_announce]
          exact congrArg (Scan.announce (Event.ofField .header f)) same
  | case2 r bytes told next rest ran =>
    -- A turn that waits stays in the header.
    cases ended
    simp only [turn, phase, headerTurn] at ran
    split at ran
    · cases ran
    · cases ran
      rw [Past, phase] at past
      cases past
    · split at ran <;> cases ran
    · split at ran <;> cases ran
  | case3 r bytes told e ran => cases ended

theorem startLine_found (bytes : Bytes) (x : Reading)
    (ended : (scan { phase := .startLine } bytes).result = .ok x) (past : x.reader.Past) :
    ∃ (line : Bytes) (start : StartLine) (rest : Bytes), bytes = line ++ (crlf ++ rest) ∧
      StartLine.ofLine line = .ok start ∧ scan { phase := .startLine } bytes
        = (scan { sender := start.sender, phase := .header 0 } rest).announce [.start start] := by
  cases taken : takeLine startLineRoom bytes with
  | tooLong =>
    have ran : turn { phase := .startLine } bytes = .fault [] .startLineTooLong := by
      simp only [turn, startLineTurn, taken]
    rw [scan_fault _ _ _ _ ran] at ended
    cases ended
  | unfinished =>
    have ran : turn { phase := .startLine } bytes = .pause [] { phase := .startLine } bytes := by
      simp only [turn, startLineTurn, taken]
    rw [scan_pause _ _ _ _ _ ran] at ended
    cases ended
    cases past
  | whole line rest =>
    cases read : StartLine.ofLine line with
    | error e =>
      have ran : turn { phase := .startLine } bytes = .fault [] e := by
        simp only [turn, startLineTurn, taken, read]
      rw [scan_fault _ _ _ _ ran] at ended
      cases ended
    | ok start =>
      have ran : turn { phase := .startLine } bytes
          = .onward [.start start] { sender := start.sender, phase := .header 0 } rest := by
        simp only [turn, startLineTurn, taken, read]
      exact ⟨line, start, rest, (takeLine_whole _ _ _ _ taken).1, read, scan_step ran⟩

theorem skipped_found (bytes : Bytes) :
    ∃ blank, bytes = (List.replicate blank crlf).flatten ++ skipEmptyLines bytes := by
  fun_induction skipEmptyLines bytes with
  | case1 => exact ⟨0, rfl⟩
  | case2 b => exact ⟨0, rfl⟩
  | case3 a b rest pair ih =>
    obtain ⟨blank, same⟩ := ih
    obtain ⟨rfl, rfl⟩ := pair
    refine ⟨blank + 1, ?_⟩
    rw [List.replicate_succ, List.flatten_cons, List.append_assoc, ← same]
    rfl
  | case4 a b rest other => exact ⟨0, rfl⟩

structure Opening (bytes : Bytes) (blank : Nat) (line : Bytes) (start : StartLine) (lines : List Bytes)
    (fields : List Field) (noted settled : Framing) (rest : Bytes) : Prop where
  whole : bytes = (List.replicate blank crlf).flatten
    ++ (line ++ (crlf ++ (sectionBytes lines ++ rest)))
  opened : StartLine.ofLine line = .ok start
  reads : List.Forall₂ FieldLine lines fields
  folded : fields.foldlM Framing.note {} = .ok noted
  decided : noted.settle start.sender = .ok settled
  scanned :
    let later :=
      scan { sender := start.sender, framing := settled, phase := bodyPhase settled.format } rest
    scan {} bytes = ⟨.start start :: (fields.flatMap (Event.ofField .header)
      ++ .headerDone settled.format :: later.events), later.result⟩

theorem message_found (bytes : Bytes) (x : Reading) (ended : (scan {} bytes).result = .ok x)
    (past : x.reader.Past) :
    ∃ blank line start lines fields noted settled rest,
      Opening bytes blank line start lines fields noted settled rest := by
  have begun : scan {} bytes = scan { phase := .startLine } (skipEmptyLines bytes) := by
    cases first : opening crlf (skipEmptyLines bytes) with
    | undecided =>
      have ran : turn {} bytes = .pause [] {} (skipEmptyLines bytes) := by
        simp only [turn, startTurn, first, Bool.false_eq_true, if_false]
      rw [scan_pause _ _ _ _ _ ran] at ended
      cases ended
      cases past
    | present after =>
      have ran : turn {} bytes = .onward [] { phase := .startLine } (skipEmptyLines bytes) := by
        simp only [turn, startTurn, first, Bool.false_eq_true, if_false]
      exact scan_step ran
    | absent =>
      have ran : turn {} bytes = .onward [] { phase := .startLine } (skipEmptyLines bytes) := by
        simp only [turn, startTurn, first, Bool.false_eq_true, if_false]
      exact scan_step ran
  obtain ⟨blank, skipped⟩ := skipped_found bytes
  rw [begun] at ended
  obtain ⟨line, start, left, first, read, named⟩ := startLine_found _ x ended past
  rw [named] at ended
  obtain ⟨lines, fields, noted, settled, rest, whole, reads, folded, decided, headed⟩ :=
    header_found { sender := start.sender, phase := .header 0 } 0 rfl left x ended past
  refine ⟨blank, line, start, lines, fields, noted, settled, rest, ?_, read, reads, folded, decided, ?_⟩
  · rw [← whole, ← first]
    exact skipped
  · rw [begun, named, headed]
    simp only [Scan.announce, List.append_assoc, List.cons_append, List.nil_append]

theorem Opening.fields_read {bytes line rest : Bytes} {blank : Nat} {start : StartLine}
    {lines : List Bytes} {fields : List Field} {noted settled : Framing}
    (headed : Opening bytes blank line start lines fields noted settled rest) :
    ∀ f ∈ fields, ∃ line, FieldLine line f := by
  intro f member
  obtain ⟨i, inside, rfl⟩ := List.getElem_of_mem member
  obtain ⟨same, each⟩ := List.forall₂_iff_get.mp headed.reads
  exact ⟨lines[i], each i (by omega) inside⟩

theorem body_found (r : Reader) (phase : r.phase = .body) (rest : Bytes) :
    ∃ data told, data.length ≤ rest.length ∧
      (scan r rest).events = Event.ofData .body data ++ told ∧
      (told = [] ∨ told = [.dataDone .body]) := by
  by_cases short : ∀ missing, r.remaining = some missing → rest.length < missing
  · rw [body_open r phase rest short]
    exact ⟨rest, [], Nat.le_refl _, (List.append_nil _).symm, .inl rfl⟩
  · simp only [not_forall, Nat.not_lt] at short
    obtain ⟨missing, left, enough⟩ := short
    rw [body_ended r phase rest missing left enough]
    exact ⟨rest.take missing, [.dataDone .body], List.length_take_le' _ _, rfl, .inr rfl⟩

end Inversion

end Reader

namespace Message

section Gathering

def placed (m : Message) : Message :=
  { (if m.kind = .request then m.applyHostField else m) with headersComplete := true }

def started (start : StartLine) : Message := (({} : Message).takeStart start).1

def headed (start : StartLine) (fields : List Field) : Message := fields.foldl takeField (started start)

def gathered (start : StartLine) (fields : List Field) (body : Bytes) : Message :=
  (headed start fields).placed.append body

theorem placed_eq (m : Message) :
    ∃ host port, m.placed = { m with host, port, headersComplete := true } := by
  unfold placed
  split
  · obtain ⟨host, port, found⟩ := m.applyHostField_eq
    rw [found]
    exact ⟨_, _, rfl⟩
  · exact ⟨_, _, rfl⟩

theorem started_bare (start : StartLine) :
    (started start).headers = .empty ∧ (started start).cookies = [] ∧ (started start).trailers = .empty ∧
      (started start).body = [] ∧ (started start).seen = 0 := by
  obtain ⟨_, _, _, _, _, _, _, _, begun⟩ := ({} : Message).takeStart_eq start
  unfold started
  rw [begun]
  exact ⟨rfl, rfl, rfl, rfl, rfl⟩

theorem deliver_fields (policy : Policy) (m : Message) (fields : List Field) :
    (collect policy).deliver m (fields.flatMap (Event.ofField .header))
      = (fields.foldl takeField m, none) := by
  induction fields generalizing m with
  | nil => rfl
  | cons f fields ih =>
    rw [List.flatMap_cons, Handler.deliver_append_ok]
    exact ⟨m.takeField f, deliver_field m f, ih _⟩

theorem endHeaders_placed (m : Message) (policy : Policy) (format : BodyFormat)
    (whole : format ≠ .multipart) : (m.endHeaders policy format).1 = m.placed := by
  unfold endHeaders
  rw [if_neg whole]
  rfl

-- There were no chunks, as fields of a transfer coding are ruled out.
structure Origin (start : StartLine) (fields : List Field) (body : Bytes) (m : Message) : Prop where
  line : ∃ line, StartLine.ofLine line = .ok start
  reads : ∀ f ∈ fields, ∃ line, FieldLine line f
  acceptable : Framing.Acceptable start.sender fields
  format : body ≠ [] → Framing.formatOf start.sender fields = .raw
  heads : ∃ fr, Reader.Heads fr m
  taken : (({} : Message).takeStart start).2 = none
  same : m = gathered start fields body

theorem isChunked_coded (m : Message) (chunked : m.isChunked = true) :
    m.headers.has "transfer-encoding" = true := by
  cases present : m.headers.contains "transfer-encoding".toList with
  | true => exact present
  | false =>
    unfold isChunked at chunked
    rw [m.headers.values_absent _ present] at chunked
    cases chunked

variable {policy : Policy} {bytes : Bytes} {m : Message} {n : Nat}

theorem ofBytes_read (kept : policy.keepBody = true) (read : ofBytes policy bytes = .ok (m, n)) :
    ∃ reading, Reader.read {} (collect policy) {} bytes = (m, .ok reading) ∧
      reading.progress ≠ .incomplete := by
  unfold ofBytes at read
  cases ran : Reader.read {} (collect policy) {} bytes with
  | mk u result =>
    rw [ran] at read
    cases result with
    | error e => cases read
    | ok reading =>
      dsimp only at read
      split at read
      · cases read
      · rename_i enough
        cases read
        exact ⟨reading, rfl, enough⟩

theorem header_told {start : StartLine} {fields : List Field} {format : BodyFormat} {behind : List Event}
    (told : (collect policy).deliver {} (.start start :: (fields.flatMap (Event.ofField .header)
      ++ .headerDone format :: behind)) = (m, none)) :
    (({} : Message).takeStart start).2 = none ∧ format ≠ .multipart ∧
      (collect policy).deliver (headed start fields).placed behind = (m, none) := by
  obtain ⟨base, begun, told⟩ := (collect policy).deliver_cons_ok.mp told
  obtain ⟨m, header, told⟩ := (collect policy).deliver_append_ok.mp told
  obtain ⟨ended, closing, later⟩ := (collect policy).deliver_cons_ok.mp told
  have first : ({} : Message).takeStart start = (base, none) := begun
  have whole := (endHeaders_ok closing).1
  rw [deliver_fields] at header
  cases header
  have outcome : ended = (fields.foldl takeField base).placed :=
    (congrArg Prod.fst closing).symm.trans (endHeaders_placed _ policy format whole)
  unfold headed started
  rw [first]
  exact ⟨rfl, whole, outcome ▸ later⟩

theorem body_taken {ended : Message} (r : Reader) (settled : Framing) (rest : Bytes)
    (unchunked : settled.format ≠ .chunked) (whole : settled.format ≠ .multipart)
    (told : (collect policy).deliver ended (Reader.scan
      { r with framing := settled, phase := Reader.bodyPhase settled.format } rest).events = (m, none)) :
    ∃ body, m = ended.append body ∧ body.length ≤ rest.length ∧
      (body ≠ [] → settled.format = .raw) := by
  cases format : settled.format with
  | chunked => exact absurd format unchunked
  | multipart => exact absurd format whole
  | empty =>
    have quiet := Reader.scan_pause { r with framing := settled, phase := .done } _ rest rest [] rfl
    rw [format, show Reader.bodyPhase .empty = .done from rfl, quiet] at told
    cases told
    exact ⟨[], (append_nil _).symm, Nat.zero_le _, fun filled => absurd rfl filled⟩
  | raw =>
    rw [format] at told
    obtain ⟨data, more, short, events, either⟩ :=
      Reader.body_found { r with framing := settled, phase := .body } rfl rest
    rw [show Reader.bodyPhase .raw = .body from rfl, events] at told
    obtain ⟨u, first, last⟩ := (collect policy).deliver_append_ok.mp told
    rw [deliver_body] at first
    cases first
    refine ⟨data, ?_, short, fun _ => rfl⟩
    rcases either with rfl | rfl
    · cases last
      rfl
    · cases last
      rfl

theorem ofBytes_origin (kept : policy.keepBody = true) (read : ofBytes policy bytes = .ok (m, n))
    (uncoded : m.headers.has "transfer-encoding" = false) :
    ∃ start fields body, Origin start fields body m ∧ body.length ≤ bytes.length := by
  obtain ⟨reading, ran, enough⟩ := ofBytes_read kept read
  have built : Reader.Built policy false _ _ reading m := .call .fresh ran
  have heads := (Reader.built_mirrors built).heads
  obtain ⟨told, y, ended, same⟩ := Reader.read_taken ran
  subst same
  have past := Reader.progress_past y.reader enough
  obtain ⟨blank, line, start, lines, fields, noted, settled, rest, found⟩ :=
    Reader.message_found bytes y ended past
  have scanned := found.scanned
  have follows := (Reader.scan_follows _ rest
    (Reader.bodyPhase_past { sender := start.sender } settled)).2 y (by rw [scanned] at ended; exact ended)
  have unchunked : settled.format ≠ .chunked := by
    intro chunked
    have coded := isChunked_coded m (heads.coded (follows.framing ▸ chunked))
    rw [uncoded] at coded
    cases coded
  rw [scanned] at told
  obtain ⟨taken, whole, later⟩ := header_told told
  obtain ⟨body, same, short, filled⟩ :=
    body_taken { sender := start.sender } settled rest unchunked whole later
  have verdict := (Reader.decided_iff start.sender fields settled.format).mp
    ⟨noted, found.folded, settled, found.decided, rfl⟩
  refine ⟨start, fields, body,
    ⟨⟨line, found.opened⟩, found.fields_read, verdict.1, ?_, ⟨_, heads⟩, taken, same⟩, ?_⟩
  · intro some
    rw [← verdict.2]
    exact filled some
  · rw [found.whole]
    simp only [List.length_append]
    omega

end Gathering

section Delivery

variable (policy : Policy) {start : StartLine} {fields : List Field} {body : Bytes}

theorem placed_fields (m : Message) : m.placed.headers = m.headers := by
  obtain ⟨host, port, same⟩ := m.placed_eq
  rw [same]

theorem deliver_plain (taken : (({} : Message).takeStart start).2 = none)
    (measured : (headed start fields).headers.has "content-length" = true) :
    (collect policy).deliver {} (Reader.plainEvents start fields body)
      = (gathered start fields body, none) := by
  have ended : collect policy (headed start fields) (.headerDone (Framing.plainFormat body))
      = ((headed start fields).placed, none) := by
    generalize headed start fields = m at measured
    have whole : Framing.plainFormat body ≠ .multipart := by
      unfold Framing.plainFormat
      split <;> nofun
    apply Prod.ext
    · exact m.endHeaders_placed policy _ whole
    · have known : (if m.kind = .request then m.applyHostField else m).headers.has "content-length"
          = true := (congrArg (FieldMap.has · "content-length") m.placed_fields).trans measured
      simp only [collect, endHeaders, if_neg whole, known, Bool.or_true, Bool.not_true, Bool.and_false,
        Bool.false_eq_true, if_false]
  have told : (collect policy).deliver (headed start fields).placed (Reader.bodyEvents body)
      = (gathered start fields body, none) := by
    unfold gathered Reader.bodyEvents
    split
    · rename_i empty
      subst empty
      rw [append_nil]
      rfl
    · rfl
  exact (collect policy).deliver_cons_ok.mpr ⟨_, Prod.ext rfl taken,
    (collect policy).deliver_append_ok.mpr ⟨_, deliver_fields policy _ fields,
      (collect policy).deliver_cons_ok.mpr ⟨_, ended, told⟩⟩⟩

variable {policy}

theorem ofBytes_plain (kept : policy.keepBody = true)
    (taken : (({} : Message).takeStart start).2 = none)
    (measured : (headed start fields).headers.has "content-length" = true)
    (written : start.Writable) (fits : start.bytes.length ≤ 6144) {lines : List Bytes}
    (reads : List.Forall₂ FieldLine lines fields)
    (room : (sectionBytes lines).length ≤ Reader.sectionRoom)
    (frames : Framing.Frames start.sender fields body) :
    let bytes := start.bytes ++ (crlf ++ (sectionBytes lines ++ body))
    ofBytes policy bytes = .ok (gathered start fields body, bytes.length) := by
  intro bytes
  obtain ⟨r, done, _, scanned⟩ := Reader.message_scan written fits reads room frames
  let reading : Reader.Reading := Reader.Reading.counted ⟨r, []⟩ bytes
  have ran : Reader.read {} (collect policy) {} bytes = (gathered start fields body, .ok reading) := by
    unfold Reader.read
    rw [scanned]
    dsimp only
    rw [deliver_plain policy taken measured]
    rfl
  have complete : reading.progress = .complete := (Reader.progress_complete _).mpr done
  unfold ofBytes
  rw [ran]
  simp only [complete, kept, reduceCtorEq, if_false, if_true]
  rfl

end Delivery

end Message
end HttpWire
