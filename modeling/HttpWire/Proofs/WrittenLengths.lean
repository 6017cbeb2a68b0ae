import HttpWire.Proofs.FieldLines
import HttpWire.Proofs.WrittenFields

-- A writer looks less closely at a length than a reader.
namespace HttpWire

section Letters

def IsLetter (c : Char) : Prop :=
  (65 ≤ c.toNat ∧ c.toNat ≤ 90) ∨ (97 ≤ c.toNat ∧ c.toNat ≤ 122)

theorem toLower_apart {p : Char → Bool} (letters : ∀ c, IsLetter c → p c = false) (c : Char) :
    p c.toLower = p c := by
  rcases toLower_cases c with same | ⟨upper, moved⟩
  · rw [same]
  · rw [letters c (.inl upper), letters c.toLower (.inr (by omega))]

theorem letter_plain (c : Char) (letter : IsLetter c) :
    Text.isBlank c = false ∧ Text.isControl c = false := by
  have apart : ∀ d : Char, (d.toNat < 65 ∨ 122 < d.toNat) → c ≠ d := by
    rintro d outside rfl
    unfold IsLetter at letter
    omega
  constructor
  · simp [Text.isBlank, apart ' ' (by decide), apart '\t' (by decide)]
  · unfold IsLetter at letter
    simp [Text.isControl, apart '\t' (by decide)]
    omega

theorem fieldName_named (name : Text) (k : String) (plain : FieldName (Text.lower k.toList))
    (named : name.named k = true) : FieldName name := by
  have same : name.map Char.toLower = Text.lower k.toList := beq_iff_eq.mp named
  have blank := fun c => toLower_apart (fun c letter => (letter_plain c letter).1) c
  have control := fun c => toLower_apart (fun c letter => (letter_plain c letter).2) c
  rw [← same] at plain
  refine ⟨?_, ?_, ?_, ?_, ?_⟩
  · simpa using plain.nonempty
  · intro c first
    rw [← blank]
    exact plain.first _ (by simp [first])
  · intro c last
    rw [← blank]
    exact plain.last _ (by simp [last])
  · intro inside
    exact plain.colon (List.mem_map.mpr ⟨':', inside, by decide⟩)
  · intro c inside
    rw [← control]
    exact plain.plain _ (List.mem_map_of_mem inside)

theorem lower_uncontrolled (t : Text) (plain : t.Uncontrolled) : (Text.lower t).Uncontrolled := by
  intro c member
  obtain ⟨d, inside, rfl⟩ := List.mem_map.mp member
  rw [toLower_apart fun c letter => (letter_plain c letter).2]
  exact plain d inside

end Letters

section Rows

variable (charset : Option Text)

theorem entryLines_name (entry : Text × List Text) :
    ∀ row ∈ Writer.entryLines charset entry, row.1 = entry.1 := by
  intro row member
  unfold Writer.entryLines at member
  split at member
  · obtain ⟨_, _, rfl⟩ := List.mem_map.mp member
    rfl
  · split at member <;> rw [List.mem_singleton.mp member]

theorem rows_other (k : String) (rows : List (Text × Text))
    (other : ∀ row ∈ rows, row.1.named k = false) : rows.filter (·.1.named k) = [] := by
  rw [List.filter_eq_nil_iff]
  intro row member
  simp [other row member]

theorem entryLines_named (k : String) (entries : List (Text × List Text))
    (distinct : (entries.map Prod.fst).Pairwise fun a b => Text.sameName a b = false)
    (list : Message.isCookie k.toList = false) (untyped : Text.named k.toList "content-type" = false) :
    (entries.flatMap (Writer.entryLines charset)).filter (·.1.named k)
      = ((entries.find? (FieldMap.isFor k.toList)).map fun entry =>
          (entry.1, Text.commaJoined entry.2)).toList := by
  -- Names are distinct, so a second entry for `k` never comes.
  induction entries with
  | nil => rfl
  | cons entry entries ih =>
    rw [List.map_cons, List.pairwise_cons] at distinct
    obtain ⟨alone, distinct⟩ := distinct
    rw [List.flatMap_cons, List.filter_append]
    cases here : entry.1.named k with
    | false =>
      have elsewhere : ¬ FieldMap.isFor k.toList entry = true := by
        simpa [FieldMap.isFor, Text.named] using here
      have none : ∀ row ∈ Writer.entryLines charset entry, row.1.named k = false := by
        intro row member
        rw [entryLines_name charset entry row member, here]
      rw [rows_other k _ none, List.nil_append, List.find?_cons_of_neg elsewhere]
      exact ih distinct
    | true =>
      have same : Text.sameName entry.1 k.toList = true := here
      have later : (entries.flatMap (Writer.entryLines charset)).filter (·.1.named k) = [] := by
        apply rows_other
        intro row member
        obtain ⟨other, inside, line⟩ := List.mem_flatMap.mp member
        have differ := alone other.1 (List.mem_map_of_mem inside)
        rw [entryLines_name charset other row line]
        rwa [Text.sameName_symm, Text.sameName_congr_right same] at differ
      have cookie : Message.isCookie entry.1 = false := by
        rw [← list]
        exact Text.sameName_congr same _
      have type : entry.1.named "content-type" = false := by
        rw [← untyped]
        exact Text.sameName_congr same _
      have one : Writer.entryLines charset entry = [(entry.1, Text.commaJoined entry.2)] := by
        simp [Writer.entryLines, cookie, type]
      rw [later, one, List.append_nil, List.find?_cons_of_pos (by exact here)]
      simp [here]

variable {headers : FieldMap} (date : Text) (cookies : List Text) (body : Bytes)

theorem length_row (formed : headers.WellFormed) (uncoded : headers.has "transfer-encoding" = false) :
    ∃ row, (Writer.fieldLines date headers cookies charset body).filter (·.1.named "content-length")
        = [row] ∧ row.1.named "content-length" = true ∧
      row.2 = (headers.joined? "content-length".toList).getD (Numeral.decimal body.length) := by
  have given := entryLines_named charset "content-length" headers.entries formed.distinct
    (by decide) (by decide)
  have bare := rows_other "content-length" (cookies.map (Prod.mk "Set-Cookie".toList)) (by
    intro row member
    obtain ⟨_, _, rfl⟩ := List.mem_map.mp member
    rfl)
  have dated := rows_other "content-length"
    (if headers.has "date" then [] else [("Date".toList, date)]) (by
      intro row member
      split at member
      · cases member
      · rw [List.mem_singleton.mp member]
        rfl)
  unfold Writer.fieldLines Writer.isCoded
  rw [List.filter_append, List.filter_append, List.filter_append, given, bare, dated, uncoded,
    FieldMap.joined?_find?, List.append_nil, List.append_nil, Bool.false_or]
  unfold FieldMap.has
  rw [FieldMap.contains_find?]
  cases found : headers.entries.find? (FieldMap.isFor "content-length".toList) with
  | none => exact ⟨("Content-Length".toList, Numeral.decimal body.length), rfl, rfl, rfl⟩
  | some entry =>
    have here : FieldMap.isFor "content-length".toList entry = true := List.find?_some found
    exact ⟨(entry.1, Text.commaJoined entry.2), rfl, here, rfl⟩

end Rows

section Values

variable {headers : FieldMap} {body : Bytes}

theorem signedBelow?_unsigned (bound : Nat) (t : Text) (unsigned : t.head? ≠ some '+') :
    Numeral.signedBelow? bound t = Numeral.below? bound t := by
  unfold Numeral.signedBelow?
  split
  · exact absurd rfl unsigned
  · rfl

theorem length?_signed (t : Text) (signed : t.head? = some '+') : Framing.length? t = none := by
  cases read : Framing.length? t with
  | none => rfl
  | some n =>
    have digit := length_digits read '+' (List.mem_of_head? signed)
    cases digit

theorem length?_list (t : Text) (comma : ',' ∈ t) : Framing.length? (Text.trim t) = none := by
  cases read : Framing.length? (Text.trim t) with
  | none => rfl
  | some n =>
    obtain ⟨before, behind, whole, front, back⟩ := trimBoth_parts Text.isBlank t
    rw [whole] at comma
    simp only [List.mem_append] at comma
    rcases comma with here | here | here
    · cases front _ here
    · cases length_digits read _ here
    · cases back _ here

-- Of several values a writer looks at the first one only, and it allows a plus sign.
def Overlooked (headers : FieldMap) (body : Bytes) : Prop :=
  ∃ first more, headers.values "content-length".toList = first :: more ∧
    Numeral.signedBelow? Numeral.wordBound (Text.trim first) = some body.length ∧
    (more ≠ [] ∨ (Text.trim first).head? = some '+')

theorem commaJoined_comma (first : Text) (more : List Text) (filled : more ≠ []) :
    ',' ∈ Text.commaJoined (first :: more) := by
  cases more with
  | nil => exact absurd rfl filled
  | cons next more => simp [commaJoined_cons]

theorem length?_passed (first : Text) (more : List Text)
    (passed : Numeral.signedBelow? Numeral.wordBound (Text.trim first) = some body.length) :
    Framing.length? (Text.trim (Text.commaJoined (first :: more))) = some body.length ↔
      ¬ (more ≠ [] ∨ (Text.trim first).head? = some '+') := by
  by_cases several : more ≠ []
  · rw [length?_list _ (commaJoined_comma first more several)]
    simp [several]
  · obtain rfl : more = [] := not_not.mp several
    rw [commaJoined_one]
    by_cases signed : (Text.trim first).head? = some '+'
    · rw [length?_signed _ signed]
      simp [signed]
    · rw [signedBelow?_unsigned _ _ signed] at passed
      simp [signed, Framing.length?, passed]

theorem values_given (formed : headers.WellFormed) (value : Text)
    (given : headers.joined? "content-length".toList = some value) :
    ∃ first more, headers.values "content-length".toList = first :: more ∧
      value = Text.commaJoined (first :: more) := by
  rw [FieldMap.joined?_find?] at given
  obtain ⟨entry, found, rfl⟩ := Option.map_eq_some_iff.mp given
  have filled := formed.filled entry (List.mem_of_find?_eq_some found)
  obtain ⟨first, more, whole⟩ := List.exists_cons_of_ne_nil filled
  exact ⟨first, more, by rw [headers.values_found _ found, whole], by rw [whole]⟩

theorem lengthFits_given (formed : headers.WellFormed) (value : Text)
    (given : headers.joined? "content-length".toList = some value) :
    Writer.lengthFits headers body = true ↔
      Framing.length? (Text.trim value) = some body.length ∨ Overlooked headers body := by
  obtain ⟨first, more, values, rfl⟩ := values_given formed value given
  have passes : Writer.lengthFits headers body = true ↔
      Numeral.signedBelow? Numeral.wordBound (Text.trim first) = some body.length := by
    unfold Writer.lengthFits FieldMap.first?
    rw [values]
    simp
  rw [passes]
  constructor
  · intro passed
    by_cases loose : more ≠ [] ∨ (Text.trim first).head? = some '+'
    · exact .inr ⟨first, more, values, passed, loose⟩
    · exact .inl ((length?_passed first more passed).mpr loose)
  · rintro (read | ⟨_, _, same, passed, _⟩)
    · by_cases several : more ≠ []
      · rw [length?_list _ (commaJoined_comma first more several)] at read
        cases read
      · obtain rfl : more = [] := not_not.mp several
        rw [commaJoined_one] at read
        simpa [trim_trim] using length_signed read
    · rw [values, List.cons.injEq] at same
      rwa [same.1]

theorem length?_given (formed : headers.WellFormed) (value : Text)
    (given : headers.joined? "content-length".toList = some value)
    (fits : Writer.lengthFits headers body = true) :
    Framing.length? (Text.trim value) = some body.length ↔ ¬ Overlooked headers body := by
  constructor
  · rintro read ⟨first, more, values, passed, loose⟩
    obtain ⟨first', more', values', rfl⟩ := values_given formed value given
    rw [values, List.cons.injEq] at values'
    obtain ⟨rfl, rfl⟩ := values'
    exact (length?_passed first more passed).mp read loose
  · exact ((lengthFits_given formed value given).mp fits).resolve_right

end Values

namespace Writer

inductive Job where
  | request (method : Method) (uri : Text) (version : Version) (headers : FieldMap) (body : Bytes)
  | response (version : Version) (status : Nat) (reason : Text) (headers : FieldMap) (body : Bytes)
  | message (m : Message)

namespace Job

def headers : Job → FieldMap
  | request _ _ _ headers _ => headers
  | response _ _ _ headers _ => headers
  | message m => m.headers

def cookies : Job → List Text
  | message m => m.cookies
  | _ => []

def charset : Job → Option Text
  | message m => m.charset
  | _ => none

def body : Job → Bytes
  | request _ _ _ _ body => body
  | response _ _ _ _ body => body
  | message m => m.body

def start : Job → Except Error StartLine
  | request method uri version _ _ => requestLine method uri version
  | response version status reason _ _ => .ok (statusLine version status reason)
  | message m => startLine m

def run (date : Text) : Job → Except Error Bytes
  | request method uri version headers body => Writer.request date method uri version headers body
  | response version status reason headers body =>
    Writer.response date version status reason headers body
  | message m => Writer.message date m

structure Clean (job : Job) : Prop where
  names : ∀ entry ∈ job.headers.entries, entry.1.Uncontrolled
  values : ∀ entry ∈ job.headers.entries, ∀ value ∈ entry.2, value.Uncontrolled
  cookies : ∀ value ∈ job.cookies, value.Uncontrolled

variable (date : Text) (job : Job)

theorem run_eq :
    job.run date = job.start.bind fun start =>
      fields date start job.headers job.cookies job.charset job.body := by
  cases job <;> rfl

theorem requestLine_error (method : Method) (uri : Text) (version : Version) (e : Error)
    (refused : requestLine method uri version = .error e) : e = .invalidUse := by
  unfold requestLine at refused
  split at refused <;> cases refused
  rfl

theorem start_error (e : Error) (refused : job.start = .error e) : e = .invalidUse := by
  cases job with
  | request method uri version => exact requestLine_error method uri version e refused
  | response => cases refused
  | message m =>
    change startLine m = .error e at refused
    unfold startLine at refused
    split at refused
    · cases refused
      rfl
    · split at refused
      · cases refused
        rfl
      · split at refused
        · exact requestLine_error _ _ _ e refused
        · cases refused
          rfl
      · split at refused
        · cases refused
          rfl
        · cases refused

variable {date job}

-- The charset that a message adds to its type is a part of one of its values.
theorem label_inside (t : Text) (label : job.charset = some t) :
    ∃ part, t = Text.lower part ∧
      (part = [] ∨ ∃ entry ∈ job.headers.entries, ∃ value ∈ entry.2, part <:+: value) := by
  cases job with
  | request => cases label
  | response => cases label
  | message m =>
    obtain ⟨found, last, rfl⟩ := Option.map_eq_some_iff.mp label
    refine ⟨found, rfl, ?_⟩
    have part := valuesOf_inside _ _ _ (List.mem_of_getLast? last)
    cases given : m.headers.first? "content-type".toList with
    | none =>
      rw [given] at part
      exact .inl (List.infix_nil.mp part)
    | some value =>
      rw [given] at part
      obtain ⟨entry, member, own⟩ := FieldMap.values_member (List.mem_of_head? given)
      exact .inr ⟨entry, member, value, own, part⟩

theorem Clean.label (clean : job.Clean) (t : Text) (label : job.charset = some t) :
    t.Uncontrolled := by
  obtain ⟨part, rfl, rfl | ⟨entry, member, value, own, inside⟩⟩ := label_inside t label
  · exact fun c => nofun
  · apply lower_uncontrolled
    exact fun c here => clean.values entry member value own c (inside.subset here)

theorem run_written (date : Text) (uncoded : job.headers.has "transfer-encoding" = false) :
    job.run date = .error .invalidUse ∨ ∃ start, job.start = .ok start ∧
      Writer.lengthFits job.headers job.body = true ∧ job.run date = .ok (assemble start
        (fieldLines date job.headers job.cookies job.charset job.body) job.body) := by
  rw [run_eq]
  cases started : job.start with
  | error e =>
    rw [start_error job e started]
    exact .inl rfl
  | ok start =>
    cases fits : Writer.lengthFits job.headers job.body with
    | false =>
      left
      simp [Except.bind, fields, isCoded, uncoded, fits]
    | true =>
      right
      simp [Except.bind, fields, isCoded, uncoded, fits]

theorem lines_plain (seconds : Int) (clean : job.Clean) :
    ∀ row ∈ fieldLines (Date.render seconds) job.headers job.cookies job.charset job.body,
      row.1.Uncontrolled ∧ row.2.Uncontrolled :=
  writtenLines_plain job.headers job.cookies job.body seconds clean.label
    (by decide) clean.names clean.values clean.cookies

end Job
end Writer

section Lengths

theorem ofLine_name (name value : Text) (f : Field) (colon : ':' ∉ name)
    (read : Field.ofLine (rowBytes name value) = .ok f) : f.name = name := by
  obtain ⟨bytes, _, parts, rfl⟩ := (ofLine_iff _ _).mp read
  obtain ⟨before, behind, whole, -, -⟩ := parts.whole
  have first : cutAt 0x3A (rowBytes name value) = some (Utf8.encode name, 0x20 :: Utf8.encode value) :=
    cutAt_first _ _ _ (encode_free 0x3A (by decide) name colon)
  rw [whole, cutAt_first _ _ _ parts.colon, Option.some.injEq, Prod.mk.injEq] at first
  rw [first.1]
  exact Utf8.lossy_encode name

-- A reader finds the name of a length in one line and in no other, unless the line's own name has a
-- colon in it.
structure OneLength (rows : List (Text × Text)) (row : Text × Text) : Prop where
  unbroken : ∀ r ∈ rows, ¬ crlf <:+: rowBytes r.1 r.2
  only : rows.filter (·.1.named "content-length") = [row]
  read : Field.ofLine (rowBytes row.1 row.2) = .ok ⟨row.1, Text.trim row.2⟩
  others : ∀ r ∈ rows, ∀ f, Field.ofLine (rowBytes r.1 r.2) = .ok f →
    f.name.named "content-length" = true → r = row ∨ ':' ∈ r.1

theorem oneLength (rows : List (Text × Text)) (row : Text × Text)
    (plain : ∀ r ∈ rows, r.1.Uncontrolled ∧ r.2.Uncontrolled)
    (only : rows.filter (·.1.named "content-length") = [row]) : OneLength rows row := by
  have inside : row ∈ rows.filter (·.1.named "content-length") := by simp [only]
  obtain ⟨member, named⟩ := List.mem_filter.mp inside
  have name := fieldName_named row.1 "content-length" (by decide) named
  refine ⟨fun r inside => ?_, only, ofLine_row name (plain row member).2, ?_⟩
  · apply crlf_absent
    intro broken
    have own := plain r inside
    simp only [rowBytes, List.mem_append, List.mem_cons] at broken
    rcases broken with inName | same | same | inValue
    · exact absurd (encode_controls r.1 own.1 _ inName) (by decide)
    · cases same
    · cases same
    · exact absurd (encode_controls r.2 own.2 _ inValue) (by decide)
  · intro r inside f read found
    by_cases colon : ':' ∈ r.1
    · exact .inr colon
    · left
      rw [ofLine_name r.1 r.2 f colon read] at found
      have kept : r ∈ rows.filter (·.1.named "content-length") := List.mem_filter.mpr ⟨inside, found⟩
      simpa [only] using kept

-- Another length that is given is refused, but for the first of several values and a plus sign.
theorem written_lengths_agree (seconds : Int) (job : Writer.Job) (built : job.headers.Built)
    (uncoded : job.headers.has "transfer-encoding" = false) (clean : job.Clean)
    (word : job.body.length < Numeral.wordBound) :
    let written := job.run (Date.render seconds)
    (∀ bytes, written = .ok bytes → ∃ start rows row, job.start = .ok start ∧
      bytes = start.bytes ++ (crlf ++ (rowsBytes rows ++ job.body)) ∧ OneLength rows row ∧
      (Framing.length? (Text.trim row.2) = some job.body.length ↔
        ¬ Overlooked job.headers job.body)) ∧
    ∀ value, job.headers.joined? "content-length".toList = some value →
      Framing.length? (Text.trim value) ≠ some job.body.length →
      written = .error .invalidUse ∨ Overlooked job.headers job.body := by
  intro written
  have formed := built.wellFormed
  have outcome := Writer.Job.run_written (Date.render seconds) uncoded
  constructor
  · intro bytes succeeded
    rcases outcome with failed | ⟨start, started, fits, done⟩
    · rw [show written = _ from failed] at succeeded
      cases succeeded
    · rw [show written = _ from done] at succeeded
      cases succeeded
      obtain ⟨row, only, named, value⟩ := length_row job.charset (Date.render seconds) job.cookies
        job.body formed uncoded
      refine ⟨start, _, row, started, assemble_eq _ _ _,
        oneLength _ _ (Writer.Job.lines_plain seconds clean) only, ?_⟩
      rw [value]
      cases given : job.headers.joined? "content-length".toList with
      | some value => exact length?_given formed value given fits
      | none =>
        have none : job.headers.values "content-length".toList = [] := by
          rw [FieldMap.joined?_find?, Option.map_eq_none_iff] at given
          unfold FieldMap.values
          rw [given]
        have bare : ¬ Overlooked job.headers job.body := by
          rintro ⟨first, more, some, -⟩
          rw [none] at some
          cases some
        have whole := (Framing.length?_iff _ _).mpr
          ⟨decimal_isLength _ word, (decimalValue_decimal _).symm⟩
        simpa [bare, length_trim whole] using whole
  · intro value given differs
    rcases outcome with failed | ⟨start, started, fits, done⟩
    · exact .inl failed
    · exact .inr (((lengthFits_given formed value given).mp fits).resolve_left differs)

theorem written_length_agrees :
    let headers := FieldMap.empty.insert "content-length".toList " 5\t".toList
    let job := Writer.Job.request .put "/".toList .v11 headers (ascii "hello")
    ∃ bytes rows row, job.run (Date.render 0) = .ok bytes ∧ OneLength rows row ∧
      Framing.length? (Text.trim row.2) = some 5 := by
  intro headers job
  have clean : job.Clean := ⟨by decide, by decide, nofun⟩
  have both := written_lengths_agree 0 job (.insert _ _ .empty) (by decide) clean (by decide)
  have passed : (job.run (Date.render 0)).isOk = true := by decide +kernel
  cases written : job.run (Date.render 0) with
  | error e =>
    rw [written] at passed
    cases passed
  | ok bytes =>
    obtain ⟨_, rows, row, -, -, one, agrees⟩ := both.1 bytes written
    refine ⟨bytes, rows, row, rfl, one, agrees.mpr ?_⟩
    rintro ⟨first, more, values, -, loose⟩
    obtain ⟨rfl, rfl⟩ : " 5\t".toList = first ∧ [] = more := List.cons.inj values
    exact absurd loose (by decide)

theorem signed_length_written :
    let headers := FieldMap.empty.insert "Content-Length".toList "+5".toList
    let job := Writer.Job.response .v11 200 [] headers (ascii "hello")
    ∃ bytes, job.run (Date.render 0) = .ok bytes ∧
      (({} : Reader).read Handler.record #[] bytes).2 = .error .contentLengthMalformed := by
  intro headers job
  have failed : (job.run (Date.render 0)).toOption.map
      (fun bytes => (({} : Reader).read Handler.record #[] bytes).2)
        = some (.error .contentLengthMalformed) := by
    decide +kernel
  obtain ⟨bytes, written, refused⟩ := Option.map_eq_some_iff.mp failed
  refine ⟨bytes, ?_, refused⟩
  cases outcome : job.run (Date.render 0) with
  | error e =>
    rw [outcome] at written
    cases written
  | ok given =>
    rw [outcome] at written
    exact congrArg _ (Option.some.inj written)

end Lengths

end HttpWire
