import HttpWire.Proofs.AfterHeader
import HttpWire.Proofs.FieldSection
import HttpWire.Proofs.FramingDecision

-- The end of a section is announced if its lines fit, each is a field, and together they agree.
namespace HttpWire.Reader

def Decided (sender : Sender) (fr : Framing) (fields : List Field) (format : BodyFormat) : Prop :=
  ∃ noted, fields.foldlM Framing.note fr = .ok noted ∧
    ∃ settled, noted.settle sender = .ok settled ∧ settled.format = format

def ReadAs (lines : List Bytes) (fields : List Field) : Prop :=
  List.Forall₂ (fun line f => Field.ofLine line = .ok f) lines fields

theorem decided_cons (sender : Sender) (fr : Framing) (f : Field) (fields : List Field)
    (format : BodyFormat) :
    Decided sender fr (f :: fields) format ↔
      ∃ next, fr.note f = .ok next ∧ Decided sender next fields format := by
  unfold Decided
  rw [List.foldlM_cons]
  cases noted : fr.note f with
  | error e =>
    constructor
    · intro holds
      obtain ⟨_, same, _⟩ := holds
      cases same
    · intro holds
      obtain ⟨_, same, _⟩ := holds
      cases same
  | ok next =>
    constructor
    · intro decided
      exact ⟨next, rfl, decided⟩
    · intro holds
      obtain ⟨_, same, decided⟩ := holds
      cases same
      exact decided

theorem decided_iff (sender : Sender) (fields : List Field) (format : BodyFormat) :
    Decided sender {} fields format ↔
      Framing.Acceptable sender fields ∧ format = Framing.formatOf sender fields := by
  have agree := Framing.fold_decides fields
  unfold Decided
  cases noted : fields.foldlM Framing.note {} with
  | error e =>
    rw [noted] at agree
    constructor
    · intro holds
      obtain ⟨_, same, _⟩ := holds
      cases same
    · intro holds
      obtain ⟨whole, _⟩ := holds
      exact absurd whole.consistent agree
  | ok fr =>
    rw [noted] at agree
    rw [← Framing.settle_iff agree sender format]
    constructor
    · intro holds
      obtain ⟨_, same, settled⟩ := holds
      cases same
      exact settled
    · intro settled
      exact ⟨fr, rfl, settled⟩

section Scanning

variable (r : Reader) (size : Nat) (rest : Bytes) (format : BodyFormat)

theorem bodyPhase_past (settled : Framing) :
    Past { r with framing := settled, phase := bodyPhase settled.format } := by
  cases settled.format <;> rfl

theorem header_closed :
    .headerDone format ∈ (scan { r with phase := .header size } (crlf ++ rest)).events ↔
      size + 2 ≤ sectionRoom ∧
        ∃ settled, r.framing.settle r.sender = .ok settled ∧ settled.format = format := by
  by_cases fits : size + 2 ≤ sectionRoom
  · have closed := sectionLine_end size rest fits
    cases ended : r.framing.settle r.sender with
    | error e =>
      have ran : turn { r with phase := .header size } (crlf ++ rest) = .fault [] e := by
        simp only [turn, headerTurn, closed, ended]
      rw [scan_fault _ _ _ _ ran]
      constructor
      · intro told
        cases told
      · intro holds
        obtain ⟨_, settled, same, _⟩ := holds
        cases same
    | ok settled =>
      have ran : turn { r with phase := .header size } (crlf ++ rest)
          = .onward [.headerDone settled.format]
              { r with framing := settled, phase := bodyPhase settled.format } rest := by
        simp only [turn, headerTurn, closed, ended]
      rw [scan_onward _ _ _ _ _ ran]
      constructor
      · intro told
        rcases List.mem_append.mp told with now | later
        · cases List.mem_singleton.mp now
          exact ⟨fits, settled, rfl, rfl⟩
        · -- Behind the header no turn announces its end again.
          exact absurd rfl
            (((scan_follows _ _ (bodyPhase_past r settled)).1 _ later).notHeaderDone format)
      · intro holds
        obtain ⟨_, _, same, rfl⟩ := holds
        cases same
        exact List.mem_append_left _ (List.mem_singleton_self _)
  · have long := sectionLine_exceeds size [] rest (by decide) fits
    have ran : turn { r with phase := .header size } (crlf ++ rest) = .fault [] .headerTooLong := by
      rw [List.nil_append] at long
      simp only [turn, headerTurn, long]
    rw [scan_fault _ _ _ _ ran]
    constructor
    · intro told
      cases told
    · intro whole
      exact absurd whole.1 fits

-- A line that does not fit, or is no field, or does not agree with those before it, ends
-- the reading.
theorem header_line_fault (line : Bytes) (e : Error)
    (refused : sectionLine size (line ++ (crlf ++ rest)) = .fault e) :
    (scan { r with phase := .header size } (line ++ (crlf ++ rest))).events = [] := by
  have ran : turn { r with phase := .header size } (line ++ (crlf ++ rest)) = .fault [] e := by
    simp only [turn, headerTurn, refused]
  rw [scan_fault _ _ _ _ ran]

theorem header_line_field (line : Bytes) (f : Field) (read : FieldLine line f)
    (fits : size + line.length + 2 ≤ sectionRoom) :
    .headerDone format ∈ (scan { r with phase := .header size } (line ++ (crlf ++ rest))).events ↔
      ∃ fr, r.framing.note f = .ok fr ∧ .headerDone format ∈
        (scan { r with framing := fr, phase := .header (size + line.length + 2) } rest).events := by
  have accepted := sectionLine_accepted size line rest f read fits
  cases noted : r.framing.note f with
  | error e =>
    have ran : turn { r with phase := .header size } (line ++ (crlf ++ rest)) = .fault [] e := by
      simp only [turn, headerTurn, accepted, noted]
    rw [scan_fault _ _ _ _ ran]
    constructor
    · intro told
      cases told
    · intro holds
      obtain ⟨_, same, _⟩ := holds
      cases same
  | ok fr =>
    have ran : turn { r with phase := .header size } (line ++ (crlf ++ rest))
        = .onward (Event.ofField .header f)
            { r with framing := fr, phase := .header (size + line.length + 2) } rest := by
      simp only [turn, headerTurn, accepted, noted]
    rw [scan_onward _ _ _ _ _ ran]
    constructor
    · intro told
      rcases List.mem_append.mp told with now | later
      · exact absurd rfl (notHeaderDone_ofField .header f _ now format)
      · exact ⟨fr, rfl, later⟩
    · intro holds
      obtain ⟨_, same, later⟩ := holds
      cases same
      exact List.mem_append_right _ later

theorem header_section (lines : List Bytes) (free : ∀ line ∈ lines, line ≠ [] ∧ ¬ crlf <:+: line) :
    .headerDone format ∈ (scan { r with phase := .header size } (sectionBytes lines ++ rest)).events ↔
      size + (sectionBytes lines).length ≤ sectionRoom ∧
        ∃ fields, ReadAs lines fields ∧ Decided r.sender r.framing fields format := by
  -- Line by line: the framing so far and the size of the section go along.
  induction lines generalizing r size with
  | nil =>
    rw [sectionBytes_nil, header_closed]
    constructor
    · intro holds
      obtain ⟨fits, settled⟩ := holds
      exact ⟨fits, [], .nil, r.framing, rfl, settled⟩
    · intro holds
      obtain ⟨fits, fields, reads, noted, same, settled⟩ := holds
      cases reads
      cases same
      exact ⟨fits, settled⟩
  | cons line lines ih =>
    have here := free line (List.mem_cons_self ..)
    have later := fun other member => free other (List.mem_cons_of_mem line member)
    have long : (sectionBytes (line :: lines)).length
        = line.length + 2 + (sectionBytes lines).length := by
      simp only [sectionBytes_cons, List.length_append, crlf, List.length_cons, List.length_nil]
      omega
    rw [long, sectionBytes_cons, List.append_assoc, List.append_assoc]
    by_cases fits : size + line.length + 2 ≤ sectionRoom
    · cases accepted : Field.ofLine line with
      | error e =>
        have refused :=
          sectionLine_rejected size line (sectionBytes lines ++ rest) e here.1 here.2 fits accepted
        rw [header_line_fault r size _ line e refused]
        constructor
        · intro told
          cases told
        · intro holds
          obtain ⟨_, all, reads, _⟩ := holds
          obtain ⟨f, _, read, _⟩ := List.forall₂_cons_left_iff.mp reads
          rw [accepted] at read
          cases read
      | ok f =>
        rw [header_line_field r size _ format line f ⟨here.1, here.2, accepted⟩ fits]
        constructor
        · intro holds
          obtain ⟨fr, noted, told⟩ := holds
          obtain ⟨room, fields, reads, decided⟩ := (ih { r with framing := fr } _ later).mp told
          refine ⟨by omega, f :: fields, .cons accepted reads, ?_⟩
          exact (decided_cons r.sender r.framing f fields format).mpr ⟨fr, noted, decided⟩
        · intro holds
          obtain ⟨room, all, reads, decided⟩ := holds
          obtain ⟨g, fields, read, others, rfl⟩ := List.forall₂_cons_left_iff.mp reads
          rw [accepted] at read
          cases read
          obtain ⟨fr, noted, decided⟩ := (decided_cons _ _ _ _ _).mp decided
          exact ⟨fr, noted, (ih { r with framing := fr } _ later).mpr
            ⟨by omega, fields, others, decided⟩⟩
    · -- The line does not fit, and neither does the whole section.
      have refused := sectionLine_exceeds size line (sectionBytes lines ++ rest) here.2 fits
      rw [header_line_fault r size _ line _ refused]
      constructor
      · intro told
        cases told
      · intro holds
        obtain ⟨room, _⟩ := holds
        omega

end Scanning

section Messages

inductive Opens : Bool → Bytes → Sender → Prop
  | skipped : Opens true [] .unknown
  | line (line : Bytes) (start : StartLine) (fits : line.length ≤ 6144)
      (read : StartLine.ofLine line = .ok start) : Opens false (line ++ crlf) start.sender

theorem startLine_plain (line : Bytes) (start : StartLine) (read : StartLine.ofLine line = .ok start) :
    line ≠ [] ∧ 0x0D ∉ line := by
  unfold StartLine.ofLine at read
  split at read
  · cases read
  · rename_i plain
    refine ⟨?_, fun inside => ?_⟩
    · intro same
      subst same
      cases read
    · apply plain
      exact List.any_eq_true.mpr ⟨0x0D, inside, rfl⟩

theorem opening_line_absent (line rest : Bytes) (nonempty : line ≠ []) (free : ¬ crlf <:+: line) :
    opening crlf (line ++ (crlf ++ rest)) = .absent := by
  have unlike : ¬ crlf <+: line ++ (crlf ++ rest) := by
    intro starts
    have cut := cutMark_line line rest free
    obtain ⟨more, same⟩ := starts
    have early := cutMark_line [] more (by decide)
    rw [List.nil_append, same, cut] at early
    cases early
    exact nonempty rfl
  have long : ¬ line ++ (crlf ++ rest) <+: crlf := by
    intro short
    have size := short.length_le
    have filled := List.length_pos_iff.mpr nonempty
    simp only [List.length_append, crlf, List.length_cons, List.length_nil] at size
    omega
  rw [opening, if_neg (by rwa [List.isPrefixOf_iff_prefix]),
    if_neg (by rwa [List.isPrefixOf_iff_prefix])]

theorem startLine_scan (line : Bytes) (start : StartLine) (fits : line.length ≤ 6144)
    (read : StartLine.ofLine line = .ok start) (rest : Bytes) :
    let later := scan { sender := start.sender, phase := .header 0 } rest
    scan {} (line ++ (crlf ++ rest)) = ⟨.start start :: later.events, later.result⟩ := by
  obtain ⟨nonempty, plain⟩ := startLine_plain line start read
  have free := crlf_absent line plain
  have here := opening_line_absent line rest nonempty free
  have ran : turn {} (line ++ (crlf ++ rest))
      = .onward [] { phase := .startLine } (line ++ (crlf ++ rest)) := by
    simp only [turn, startTurn, skipEmptyLines_absent _ here, here, Bool.false_eq_true, if_false]
  have taken := takeLine_line startLineRoom line rest free
    (by unfold startLineRoom; omega)
  have ran' : turn { phase := .startLine } (line ++ (crlf ++ rest))
      = .onward [.start start] { sender := start.sender, phase := .header 0 } rest := by
    simp only [turn, startLineTurn, taken, read]
  rw [scan_onward _ _ _ _ _ ran, scan_onward _ _ _ _ _ ran']
  rfl

theorem opens_scan {skip : Bool} {head : Bytes} {sender : Sender} (opens : Opens skip head sender)
    (rest : Bytes) :
    ∃ told, (∀ e ∈ told, NotHeaderDone e) ∧
      (scan { skipStartLine := skip } (head ++ rest)).events
        = told ++ (scan { skipStartLine := skip, sender, phase := .header 0 } rest).events := by
  cases opens with
  | skipped =>
    have ran : turn { skipStartLine := true } rest
        = .onward [] { skipStartLine := true, phase := .header 0 } rest := rfl
    refine ⟨[], nofun, ?_⟩
    rw [List.nil_append, scan_onward _ _ _ _ _ ran]
  | line line start fits read =>
    refine ⟨[.start start], by simp [NotHeaderDone], ?_⟩
    rw [List.append_assoc, startLine_scan line start fits read]
    rfl

-- What follows the section has no say in whether its end is announced, or with which format.
theorem headerDone_iff {skip : Bool} {head : Bytes} {sender : Sender}
    (opens : Opens skip head sender) (lines : List Bytes)
    (free : ∀ line ∈ lines, line ≠ [] ∧ ¬ crlf <:+: line) (rest : Bytes) (format : BodyFormat) :
    let fresh : Reader := { skipStartLine := skip }
    .headerDone format ∈ (fresh.read Handler.record #[] (head ++ (sectionBytes lines ++ rest))).1 ↔
      sectionSize lines ≤ 8192 ∧
        ∃ fields, ReadAs lines fields ∧ Framing.Acceptable sender fields ∧
          format = Framing.formatOf sender fields := by
  obtain ⟨told, plain, whole⟩ := opens_scan opens (sectionBytes lines ++ rest)
  have verdict := header_section { skipStartLine := skip, sender } 0 rest format lines free
  simp only [decided_iff, sectionBytes_length, Nat.zero_add] at verdict
  simp only [read, Handler.deliver_record, whole]
  rw [← Array.mem_toList_iff]
  simp only [List.nil_append, Array.toList_append]
  refine Iff.trans ?_ verdict
  constructor
  · intro member
    rcases List.mem_append.mp member with now | later
    · exact absurd rfl (plain _ now format)
    · exact later
  · intro later
    exact List.mem_append_right _ later

theorem headerDone_with_length :
    .headerDone .raw ∈ (({} : Reader).read Handler.record #[]
      ((ascii "HTTP/1.1 200 OK" ++ crlf) ++ (sectionBytes [ascii "Content-Length: 5"] ++ []))).1 := by
  have opens : Opens false (ascii "HTTP/1.1 200 OK" ++ crlf) (.server 200) :=
    .line _ (.response .v11 200 "OK".toList) (by decide) (by decide +kernel)
  have reads : ReadAs [ascii "Content-Length: 5"] [⟨"Content-Length".toList, "5".toList⟩] :=
    .cons (by decide +kernel) .nil
  exact (headerDone_iff opens _ (by decide) [] .raw).mpr
    ⟨by decide, _, reads, by decide +kernel, by decide⟩

end Messages

end HttpWire.Reader
