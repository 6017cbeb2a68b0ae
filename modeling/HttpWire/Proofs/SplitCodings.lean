import HttpWire.Proofs.FieldLines
import HttpWire.Proofs.HeaderVerdict
import HttpWire.Proofs.Utf8Blanks

-- Within a line the last coding decides; but one line that ends in chunks decides for all lines.
namespace HttpWire

section Codings

theorem trimBoth_between {α : Type} (p : α → Bool) (front middle back : List α)
    (filled : front ≠ [] ∧ back ≠ []) (first : trimBoth p front = front)
    (last : trimBoth p back = back) :
    trimBoth p (front ++ (middle ++ back)) = front ++ (middle ++ back) := by
  apply trimBoth_stable
  · intro x head
    rw [List.head?_append_of_ne_nil _ filled.1, ← first] at head
    exact trimBoth_first _ _ x head
  · intro x tail
    rw [List.getLast?_append_of_ne_nil _ (List.append_ne_nil_of_right_ne_nil _ filled.2),
      List.getLast?_append_of_ne_nil _ filled.2, ← last] at tail
    exact trimBoth_last _ _ x tail

-- Of two lists that are joined the second one has the last coding.
theorem endsChunked_joined (front back : Text) :
    Framing.endsChunked (front ++ ',' :: ' ' :: back) = Framing.endsChunked back := by
  have blank : ∀ piece : Text, Text.trim (' ' :: piece) = Text.trim piece := fun piece =>
    trimBoth_before Text.isBlank piece [' '] (List.forall_mem_singleton.mpr rfl)
  have later : splitAll ',' (' ' :: back) = growFirst ' ' (splitAll ',' back) := by
    simp [splitAll]
  unfold Framing.endsChunked
  rw [splitAll_append, later]
  rcases split : splitAll ',' back with _ | ⟨piece, _ | ⟨next, pieces⟩⟩
  · exact absurd split (splitAll_ne_nil ',' back)
  · simp [growFirst, blank]
  · have last := List.getLast?_eq_some_getLast (List.cons_ne_nil next pieces)
    simp [growFirst, last]

end Codings

section Sections

structure Alike (fields others : List Field) : Prop where
  lengths : Framing.lengthsOf others = Framing.lengthsOf fields
  chunks : Framing.sendsChunks others = Framing.sendsChunks fields
  types : Framing.typesOf others = Framing.typesOf fields

variable {fields others : List Field} {sender : Sender}

theorem Alike.symm (alike : Alike fields others) : Alike others fields :=
  ⟨alike.lengths.symm, alike.chunks.symm, alike.types.symm⟩

theorem Alike.acceptable (alike : Alike fields others)
    (acceptable : Framing.Acceptable sender fields) : Framing.Acceptable sender others := by
  obtain ⟨⟨once, readable, unambiguous, bounded⟩, promised⟩ := acceptable
  refine ⟨⟨?_, ?_, ?_, ?_⟩, ?_⟩
  · simpa [alike.lengths] using once
  · simpa [alike.lengths] using readable
  · simpa [alike.lengths, alike.chunks] using unambiguous
  · simpa [alike.types] using bounded
  · simpa [Framing.sendsParts, Framing.declaredBy, alike.lengths, alike.chunks, alike.types]
      using promised

theorem Alike.format (alike : Alike fields others) :
    Framing.formatOf sender others = Framing.formatOf sender fields := by
  simp [Framing.formatOf, Framing.formatElse, Framing.sendsParts, Framing.declaredBy,
    alike.lengths, alike.chunks, alike.types]

theorem codings_alike (before after : List Field) (f g h : Field)
    (named : ∀ k ∈ [f, g, h], k.name.named "transfer-encoding" = true)
    (ends : Framing.endsChunked h.value
      = (Framing.endsChunked f.value || Framing.endsChunked g.value)) :
    Alike (before ++ ([f, g] ++ after)) (before ++ ([h] ++ after)) := by
  have coding : ∀ k ∈ [f, g, h], k.name.named "content-length" = false ∧
      k.name.named "content-type" = false := by
    intro k member
    have named := named k member
    exact ⟨Framing.not_named _ _ _ named (by decide), Framing.not_named _ _ _ named (by decide)⟩
  simp only [List.forall_mem_cons] at named coding
  refine ⟨?_, ?_, ?_⟩
  · simp [Framing.lengthsOf, Framing.valuesOf_join, Framing.valuesOf_cons, coding]
  · simp [Framing.sendsChunks, Framing.valuesOf_join, Framing.valuesOf_cons, named, ends,
      Bool.or_assoc]
  · simp [Framing.typesOf, Framing.valuesOf_join, Framing.valuesOf_cons, coding]

end Sections

section Lines

theorem sectionSize_before (before : List Bytes) {lines others : List Bytes}
    (less : sectionSize lines ≤ sectionSize others) :
    sectionSize (before ++ lines) ≤ sectionSize (before ++ others) := by
  induction before with
  | nil => exact less
  | cons line before ih =>
    simp only [List.cons_append, sectionSize]
    omega

structure CodingLine (line value : Bytes) : Prop where
  parts : ∃ name, FieldParts line name value ∧
    (Utf8.lossy name).named "transfer-encoding" = true
  filled : value ≠ []

def listed (v w : Bytes) : Bytes := v ++ (ascii ", " ++ w)

def codingLine (value : Bytes) : Bytes := ascii "Transfer-Encoding: " ++ value

theorem lossy_listed (v w : Bytes) :
    Utf8.lossy (listed v w) = Utf8.lossy v ++ ',' :: ' ' :: Utf8.lossy w := by
  have comma := Utf8.lossy_append_ascii 0x2C (by decide) (0x20 :: w) v
  have space := Utf8.lossy_append_ascii 0x20 (by decide) w []
  rw [List.nil_append] at space
  rw [space] at comma
  exact comma

variable {line other v w : Bytes}

theorem CodingLine.field (coding : CodingLine line v) :
    ∃ f, Field.ofLine line = .ok f ∧ f.name.named "transfer-encoding" = true ∧
      f.value = Utf8.lossy v := by
  obtain ⟨name, parts, named⟩ := coding.parts
  exact ⟨_, parts.ofLine, named, rfl⟩

theorem CodingLine.length_le (coding : CodingLine line v) : v.length + 18 ≤ line.length := by
  obtain ⟨name, parts, named⟩ := coding.parts
  have whole := parts.length_le
  have long := Utf8.lossy_length name
  have same : (Utf8.lossy name).length = 17 := by
    simpa [Text.lower] using congrArg List.length (beq_iff_eq.mp named)
  omega

theorem codingLine_coding (value : Bytes) (filled : value ≠ [])
    (bare : trimBoth Text.isBlankByte value = value)
    (plain : value.any Field.isControlByte = false) :
    CodingLine (codingLine value) value := by
  have begun : ∀ b, (ascii "Transfer-Encoding").head? = some b → Text.isBlankByte b = false := by
    intro b first
    cases first
    rfl
  have ended : ∀ b, (ascii "Transfer-Encoding").getLast? = some b → Text.isBlankByte b = false := by
    intro b last
    cases last
    rfl
  refine ⟨⟨ascii "Transfer-Encoding", ⟨⟨[0x20], [], ?_, List.forall_mem_singleton.mpr rfl, nofun⟩,
    by decide, begun, ended, by decide, bare, ?_⟩, by decide +kernel⟩, filled⟩
  · simp [codingLine, ascii]
  · intro b member
    have name : (ascii "Transfer-Encoding: ").any Field.isControlByte = false := by decide
    rcases List.mem_append.mp member with inName | inside
    · exact Bool.eq_false_iff.mpr (List.any_eq_false.mp name b inName)
    · exact Bool.eq_false_iff.mpr (List.any_eq_false.mp plain b inside)

theorem CodingLine.listed (first : CodingLine line v) (last : CodingLine other w) :
    CodingLine (codingLine (listed v w)) (listed v w) := by
  obtain ⟨name, parts, _⟩ := first.parts
  obtain ⟨name', parts', _⟩ := last.parts
  have comma : (ascii ", ").any Field.isControlByte = false := by decide
  apply codingLine_coding
  · simp [HttpWire.listed, first.filled]
  · exact trimBoth_between _ _ _ _ ⟨first.filled, last.filled⟩ parts.bare parts'.bare
  · have plain : v.any Field.isControlByte = false := by simpa using parts.value_plain
    have plain' : w.any Field.isControlByte = false := by simpa using parts'.value_plain
    simp only [HttpWire.listed, List.any_append, plain, plain', comma, Bool.or_false]

theorem CodingLine.unbroken (coding : CodingLine line v) : line ≠ [] ∧ ¬ crlf <:+: line := by
  obtain ⟨name, parts, _⟩ := coding.parts
  have long := coding.length_le
  refine ⟨List.ne_nil_of_length_pos (by omega), crlf_absent line fun inside => ?_⟩
  exact absurd (parts.plain _ inside) (by decide)

end Lines

namespace Reader

section Openings

inductive Headed : Bool → Bytes → Prop
  | skipped : Headed true []
  | line (line : Bytes) (nonempty : line ≠ []) (free : ¬ crlf <:+: line) :
    Headed false (line ++ crlf)

theorem Headed.opens {skip : Bool} {head : Bytes} (headed : Headed skip head) :
    (∃ sender, Opens skip head sender) ∨
      ∀ rest, (scan { skipStartLine := skip } (head ++ rest)).events = [] := by
  cases headed with
  | skipped => exact .inl ⟨.unknown, .skipped⟩
  | line line nonempty free =>
    have reads : ∀ rest, scan {} ((line ++ crlf) ++ rest)
        = scan { phase := .startLine } (line ++ (crlf ++ rest)) := by
      intro rest
      have here := opening_line_absent line rest nonempty free
      have ran : turn {} (line ++ (crlf ++ rest))
          = .onward [] { phase := .startLine } (line ++ (crlf ++ rest)) := by
        simp [turn, startTurn, skipEmptyLines_absent _ here, here]
      rw [List.append_assoc, scan_onward _ _ _ _ _ ran]
      rfl
    have refused : ∀ e, (∀ rest, turn { phase := .startLine } (line ++ (crlf ++ rest)) = .fault [] e) →
        ∀ rest, (scan {} ((line ++ crlf) ++ rest)).events = [] := by
      intro e ran rest
      rw [reads, scan_fault _ _ _ _ (ran rest)]
    by_cases fits : line.length ≤ 6144
    · have taken := fun rest => takeLine_line startLineRoom line rest free
        (by unfold startLineRoom; omega)
      cases read : StartLine.ofLine line with
      | ok start => exact .inl ⟨_, .line line start fits read⟩
      | error e =>
        right
        apply refused e
        intro rest
        simp [turn, startLineTurn, taken, read]
    · right
      apply refused .startLineTooLong
      intro rest
      have long : takeLine startLineRoom (line ++ (crlf ++ rest)) = .tooLong := by
        unfold takeLine startLineRoom
        rw [cutMark_line line rest free]
        exact if_neg (by omega)
      simp [turn, startLineTurn, long]

end Openings

section Merging

theorem readAs_within (before after lines : List Bytes) (known fields : List Field)
    (reads : ReadAs lines known) :
    ReadAs (before ++ (lines ++ after)) fields ↔
      ∃ front back, ReadAs before front ∧ ReadAs after back ∧
        fields = front ++ (known ++ back) := by
  constructor
  · intro all
    induction before generalizing fields with
    | nil =>
      induction reads generalizing fields with
      | nil => exact ⟨[], fields, .nil, all, rfl⟩
      | cons read _ ih =>
        obtain ⟨g, later, same, others, rfl⟩ := List.forall₂_cons_left_iff.mp all
        rw [read] at same
        cases same
        obtain ⟨front, back, none, rest, rfl⟩ := ih later others
        cases none
        exact ⟨[], back, .nil, rest, rfl⟩
    | cons line before ih =>
      obtain ⟨g, later, same, others, rfl⟩ := List.forall₂_cons_left_iff.mp all
      obtain ⟨front, back, first, rest, rfl⟩ := ih later others
      exact ⟨g :: front, back, .cons same first, rest, rfl⟩
  · rintro ⟨front, back, first, rest, rfl⟩
    exact List.rel_append first (List.rel_append reads rest)

def told (skip : Bool) (head : Bytes) (lines : List Bytes) (rest : Bytes) : Array Event :=
  (({ skipStartLine := skip } : Reader).read Handler.record #[]
    (head ++ (sectionBytes lines ++ rest))).1

variable {skip : Bool} {head : Bytes} {sender : Sender} {before after : List Bytes}
  {first last : Bytes} {v w : Bytes}

theorem told_iff (opens : Opens skip head sender) (lines : List Bytes)
    (free : ∀ line ∈ lines, line ≠ [] ∧ ¬ crlf <:+: line) (rest : Bytes) (format : BodyFormat) :
    .headerDone format ∈ told skip head lines rest ↔
      sectionSize lines ≤ sectionRoom ∧ ∃ fields, ReadAs lines fields ∧
        Framing.Acceptable sender fields ∧ format = Framing.formatOf sender fields := by
  obtain ⟨early, plain, whole⟩ := opens_scan opens (sectionBytes lines ++ rest)
  have verdict := header_section { skipStartLine := skip, sender } 0 rest format lines free
  have absent : .headerDone format ∉ early := fun now => plain _ now format rfl
  simp only [decided_iff, sectionBytes_length, Nat.zero_add] at verdict
  simpa [told, read, Handler.deliver_record, whole, absent] using verdict

theorem told_alike (headed : Headed skip head) (lines others : List Bytes)
    {known more : List Field} (reads : ReadAs lines known) (reads' : ReadAs others more)
    (alike : ∀ front back, Alike (front ++ (known ++ back)) (front ++ (more ++ back)))
    (free : ∀ line ∈ before ++ (lines ++ after), line ≠ [] ∧ ¬ crlf <:+: line)
    (free' : ∀ line ∈ before ++ (others ++ after), line ≠ [] ∧ ¬ crlf <:+: line)
    (fits : sectionSize (before ++ (lines ++ after)) ≤ sectionRoom)
    (fits' : sectionSize (before ++ (others ++ after)) ≤ sectionRoom)
    (rest : Bytes) (format : BodyFormat) :
    .headerDone format ∈ told skip head (before ++ (lines ++ after)) rest ↔
      .headerDone format ∈ told skip head (before ++ (others ++ after)) rest := by
  rcases headed.opens with ⟨sender, opens⟩ | silent
  · rw [told_iff opens _ free, told_iff opens _ free']
    simp only [readAs_within before after _ _ _ reads, readAs_within before after _ _ _ reads']
    constructor
    · rintro ⟨-, _, ⟨front, back, read, read', rfl⟩, acceptable, rfl⟩
      have same := alike front back
      exact ⟨fits', _, ⟨front, back, read, read', rfl⟩, same.acceptable acceptable,
        same.format.symm⟩
    · rintro ⟨-, _, ⟨front, back, read, read', rfl⟩, acceptable, rfl⟩
      have same := (alike front back).symm
      exact ⟨fits, _, ⟨front, back, read, read', rfl⟩, same.acceptable acceptable,
        same.format.symm⟩
  · simp [told, read, Handler.deliver_record, silent]

theorem told_listed (headed : Headed skip head) {a b : Bytes}
    (one : CodingLine first v) (other : CodingLine last w)
    (filled : CodingLine (codingLine (listed a b)) (listed a b))
    (short : (codingLine (listed a b)).length + 2 ≤ first.length + last.length + 4)
    (ends : Framing.endsChunked (Utf8.lossy b)
      = (Framing.endsChunked (Utf8.lossy v) || Framing.endsChunked (Utf8.lossy w)))
    (free : ∀ line ∈ before ++ first :: last :: after, line ≠ [] ∧ ¬ crlf <:+: line)
    (fits : sectionSize (before ++ first :: last :: after) ≤ sectionRoom)
    (rest : Bytes) (format : BodyFormat) :
    .headerDone format ∈ told skip head (before ++ first :: last :: after) rest ↔
      .headerDone format ∈ told skip head (before ++ codingLine (listed a b) :: after) rest := by
  obtain ⟨f, read, named, value⟩ := one.field
  obtain ⟨g, read', named', value'⟩ := other.field
  obtain ⟨h, read'', named'', value''⟩ := filled.field
  have reads : ReadAs [first, last] [f, g] := .cons read (.cons read' .nil)
  have reads' : ReadAs [codingLine (listed a b)] [h] := .cons read'' .nil
  refine told_alike headed [first, last] [codingLine (listed a b)] reads reads'
    (fun front back => ?_) free ?_ fits ?_ rest format
  · apply codings_alike
    · simp [named, named', named'']
    · rw [value, value', value'', lossy_listed, endsChunked_joined, ends]
  · intro line member
    simp only [List.mem_append, List.mem_cons, List.not_mem_nil, or_false] at member
    rcases member with early | rfl | late
    · exact free line (by simp [early])
    · exact filled.unbroken
    · exact free line (by simp [late])
  · refine Nat.le_trans (sectionSize_before before ?_) fits
    simp only [List.singleton_append, sectionSize]
    omega

-- The exception is a first list that ends in chunks before one that does not: then the two lines are
-- like one line with the lists in the other order.
theorem split_codings_merge (headed : Headed skip head) (one : CodingLine first v)
    (other : CodingLine last w)
    (free : ∀ line ∈ before ++ first :: last :: after, line ≠ [] ∧ ¬ crlf <:+: line)
    (fits : sectionSize (before ++ first :: last :: after) ≤ 8192) (rest : Bytes)
    (format : BodyFormat) :
    let ends value := Framing.endsChunked (Utf8.lossy value)
    let apart := told skip head (before ++ first :: last :: after) rest
    let merged a b := told skip head (before ++ codingLine (listed a b) :: after) rest
    ((ends v = true → ends w = true) →
      (.headerDone format ∈ apart ↔ .headerDone format ∈ merged v w)) ∧
    (ends v = true → ends w = false →
      (.headerDone format ∈ apart ↔ .headerDone format ∈ merged w v)) := by
  have long := one.length_le
  have long' := other.length_le
  have size : ∀ a b : Bytes, (codingLine (listed a b)).length = a.length + b.length + 21 := by
    intro a b
    simp [codingLine, listed, ascii]
    omega
  constructor
  · intro ordered
    apply told_listed headed one other (one.listed other) (by rw [size]; omega) ?_ free fits
    cases ends : Framing.endsChunked (Utf8.lossy v) with
    | false => rfl
    | true => exact ordered ends
  · intro chunked plain
    apply told_listed headed one other (other.listed one) (by rw [size]; omega) ?_ free fits
    simp_all

theorem split_codings_merged :
    .headerDone .chunked ∈ told false (ascii "HTTP/1.1 200 OK" ++ crlf)
      [codingLine (listed (ascii "gzip") (ascii "Chunked"))] [] := by
  have headed : Headed false (ascii "HTTP/1.1 200 OK" ++ crlf) :=
    .line _ (by decide) (crlf_absent _ (by decide))
  have one : CodingLine (codingLine (ascii "gzip")) (ascii "gzip") :=
    codingLine_coding _ (by decide) (by decide) (by decide)
  have other : CodingLine (codingLine (ascii "Chunked")) (ascii "Chunked") :=
    codingLine_coding _ (by decide) (by decide) (by decide)
  have free : ∀ line ∈ [] ++ codingLine (ascii "gzip") :: codingLine (ascii "Chunked") :: [],
      line ≠ [] ∧ ¬ crlf <:+: line :=
    List.forall_mem_cons.mpr ⟨one.unbroken, List.forall_mem_singleton.mpr other.unbroken⟩
  have merge := split_codings_merge headed one other free (by decide) [] .chunked
  exact (merge.1 (by decide)).mp (by decide +kernel)

-- A body in chunks on two lines, and one up to the end of input on one.
theorem split_codings_disagree :
    let head := ascii "HTTP/1.1 200 OK" ++ crlf
    let merged := [codingLine (listed (ascii "chunked") (ascii "gzip"))]
    .headerDone .chunked ∈
        told false head [codingLine (ascii "chunked"), codingLine (ascii "gzip")] [] ∧
      .headerDone .chunked ∉ told false head merged [] ∧
      .headerDone .raw ∈ told false head merged [] := by
  decide +kernel

end Merging

end Reader

end HttpWire
