import HttpWire.Proofs.ListValues
import HttpWire.Proofs.StartLines
import HttpWire.Writer

namespace HttpWire

section Joining

theorem commaJoined_uncontrolled (pieces : List Text) (plain : ∀ piece ∈ pieces, piece.Uncontrolled) :
    (Text.commaJoined pieces).Uncontrolled := by
  induction pieces with
  | nil => exact nofun
  | cons x pieces ih =>
    have first := plain x (List.mem_cons_self ..)
    have later := ih fun piece member => plain piece (List.mem_cons_of_mem x member)
    cases pieces with
    | nil =>
      rw [commaJoined_one]
      exact first
    | cons y pieces =>
      rw [commaJoined_cons]
      intro c member
      rcases List.mem_append.mp member with here | behind
      · exact first c here
      · rcases List.mem_cons.mp behind with rfl | behind
        · rfl
        · rcases List.mem_cons.mp behind with rfl | behind
          · rfl
          · exact later c behind

end Joining

section Rows

def rowField (row : Text × Text) : Field := ⟨row.1, Text.trim row.2⟩

def rowsBytes (rows : List (Text × Text)) : Bytes :=
  sectionBytes (rows.map fun row => rowBytes row.1 row.2)

theorem rows_read (rows : List (Text × Text))
    (plain : ∀ row ∈ rows, FieldName row.1 ∧ row.2.Uncontrolled) :
    List.Forall₂ FieldLine (rows.map fun row => rowBytes row.1 row.2) (rows.map rowField) := by
  rw [List.forall₂_map_left_iff, List.forall₂_map_right_iff, List.forall₂_same]
  intro row member
  obtain ⟨named, uncontrolled⟩ := plain row member
  exact fieldLine_row named uncontrolled

theorem assemble_eq (start : StartLine) (rows : List (Text × Text)) (body : Bytes) :
    Writer.assemble start rows body = start.bytes ++ (crlf ++ (rowsBytes rows ++ body)) := by
  unfold Writer.assemble rowsBytes sectionBytes
  simp only [line_eq, List.flatMap_map, List.append_assoc]

end Rows

-- Cookies are read back one by one, all other values of a name as one.
def entryFields (entry : Text × List Text) : List Field :=
  if Message.isCookie entry.1 then entry.2.map fun value => ⟨entry.1, Text.trim value⟩
  else [⟨entry.1, Text.trim (Text.commaJoined entry.2)⟩]

def addedFields (date : Text) (headers : FieldMap) (body : Bytes) : List Field :=
  (if headers.has "content-length" then []
    else [⟨"Content-Length".toList, Numeral.decimal body.length⟩])
    ++ (if headers.has "date" then [] else [⟨"Date".toList, date⟩])

def writtenFields (date : Text) (headers : FieldMap) (cookies : List Text) (body : Bytes) :
    List Field :=
  headers.entries.flatMap entryFields
    ++ cookies.map (fun value => ⟨"Set-Cookie".toList, Text.trim value⟩)
    ++ addedFields date headers body

section Written

variable (date : Text) (headers : FieldMap) (cookies : List Text) (body : Bytes)

theorem entryLines_fields (entry : Text × List Text) :
    (Writer.entryLines none entry).map rowField = entryFields entry := by
  unfold Writer.entryLines entryFields
  split
  · rw [List.map_map]
    rfl
  · split <;> rfl

theorem fieldLines_fields (trimmed : Text.trim date = date)
    (uncoded : headers.has "transfer-encoding" = false) :
    (Writer.fieldLines date headers cookies none body).map rowField
      = writtenFields date headers cookies body := by
  have length : Text.trim (Numeral.decimal body.length) = Numeral.decimal body.length :=
    trim_stable _ fun c member => (digit_plain c (decimal_digits _ c member)).1
  unfold Writer.fieldLines writtenFields addedFields Writer.isCoded
  simp only [List.map_append, List.map_flatMap, entryLines_fields, List.map_map, uncoded,
    Bool.false_or, List.append_assoc]
  congr 2
  congr 1
  · split
    · rfl
    · simp only [List.map_cons, List.map_nil, rowField, length]
  · split
    · rfl
    · simp only [List.map_cons, List.map_nil, rowField, trimmed]

structure Presentable (headers : FieldMap) (cookies : List Text) : Prop where
  names : ∀ entry ∈ headers.entries, FieldName entry.1
  values : ∀ entry ∈ headers.entries, ∀ value ∈ entry.2, value.Uncontrolled
  cookies : ∀ value ∈ cookies, value.Uncontrolled

theorem length_named : FieldName "Content-Length".toList := by decide

theorem date_named : FieldName "Date".toList := by decide

theorem cookie_named : FieldName "Set-Cookie".toList := by decide

theorem contentType_uncontrolled (value : Text) (charset : Option Text) (plain : value.Uncontrolled)
    (label : ∀ t, charset = some t → t.Uncontrolled) : (Writer.contentType value charset).Uncontrolled := by
  unfold Writer.contentType
  split
  · exact plain
  · rename_i t
    split
    · exact plain
    · have mark : Text.Uncontrolled "; charset=".toList := by decide
      intro c member
      simp only [List.mem_append] at member
      rcases member with (given | between) | last
      · exact plain c given
      · exact mark c between
      · exact label t rfl c last

variable {named : Text → Prop} {charset : Option Text}

theorem entryLines_plain (label : ∀ t, charset = some t → t.Uncontrolled) (entry : Text × List Text)
    (name : named entry.1) (plain : ∀ value ∈ entry.2, value.Uncontrolled) :
    ∀ row ∈ Writer.entryLines charset entry, named row.1 ∧ row.2.Uncontrolled := by
  have joined := commaJoined_uncontrolled entry.2 plain
  intro row member
  unfold Writer.entryLines at member
  split at member
  · obtain ⟨value, inside, rfl⟩ := List.mem_map.mp member
    exact ⟨name, plain value inside⟩
  · split at member
    · rw [List.mem_singleton.mp member]
      exact ⟨name, contentType_uncontrolled _ _ joined label⟩
    · rw [List.mem_singleton.mp member]
      exact ⟨name, joined⟩

theorem writtenLines_plain (seconds : Int) (label : ∀ t, charset = some t → t.Uncontrolled)
    (added : named "Content-Length".toList ∧ named "Date".toList ∧ named "Set-Cookie".toList)
    (names : ∀ entry ∈ headers.entries, named entry.1)
    (values : ∀ entry ∈ headers.entries, ∀ value ∈ entry.2, value.Uncontrolled)
    (plain : ∀ value ∈ cookies, value.Uncontrolled) :
    ∀ row ∈ Writer.fieldLines (Date.render seconds) headers cookies charset body,
      named row.1 ∧ row.2.Uncontrolled := by
  intro row member
  unfold Writer.fieldLines at member
  simp only [List.append_assoc, List.mem_append] at member
  rcases member with given | cookie | length | dated
  · obtain ⟨entry, inside, here⟩ := List.mem_flatMap.mp given
    exact entryLines_plain label entry (names entry inside) (values entry inside) row here
  · obtain ⟨value, inside, rfl⟩ := List.mem_map.mp cookie
    exact ⟨added.2.2, plain value inside⟩
  · split at length
    · cases length
    · rw [List.mem_singleton.mp length]
      exact ⟨added.1, (decimal_plain _).uncontrolled⟩
  · split at dated
    · cases dated
    · rw [List.mem_singleton.mp dated]
      exact ⟨added.2.1, (Date.render_plain seconds).uncontrolled⟩

theorem fieldLines_plain (seconds : Int) (presentable : Presentable headers cookies) :
    ∀ row ∈ Writer.fieldLines (Date.render seconds) headers cookies none body,
      FieldName row.1 ∧ row.2.Uncontrolled :=
  writtenLines_plain headers cookies body seconds nofun ⟨length_named, date_named, cookie_named⟩
    presentable.names presentable.values presentable.cookies

end Written

section Values

theorem entryFields_name (entry : Text × List Text) : ∀ f ∈ entryFields entry, f.name = entry.1 := by
  intro f member
  unfold entryFields at member
  split at member
  · obtain ⟨_, _, rfl⟩ := List.mem_map.mp member
    rfl
  · rw [List.mem_singleton.mp member]

-- A name that is not the one of cookies stands in one line at most.
theorem valuesOf_entries (k : String) (entries : List (Text × List Text))
    (distinct : (entries.map Prod.fst).Pairwise fun a b => Text.sameName a b = false)
    (plain : Message.isCookie k.toList = false) :
    Framing.valuesOf k (entries.flatMap entryFields)
      = ((entries.find? (FieldMap.isFor k.toList)).map fun entry =>
          Text.trim (Text.commaJoined entry.2)).toList := by
  induction entries with
  | nil => rfl
  | cons entry entries ih =>
    rw [List.map_cons, List.pairwise_cons] at distinct
    obtain ⟨alone, distinct⟩ := distinct
    rw [List.flatMap_cons, Framing.valuesOf_join]
    by_cases here : FieldMap.isFor k.toList entry = true
    · -- No later entry has the same name.
      have later : Framing.valuesOf k (entries.flatMap entryFields) = [] := by
        apply Framing.valuesOf_other
        intro f member
        obtain ⟨other, inside, field⟩ := List.mem_flatMap.mp member
        have differ := alone other.1 (List.mem_map_of_mem inside)
        rw [entryFields_name other f field]
        unfold Text.named
        rw [Text.sameName_symm, ← Text.sameName_congr here]
        exact differ
      have one : entryFields entry = [⟨entry.1, Text.trim (Text.commaJoined entry.2)⟩] := by
        unfold entryFields
        have same : Message.isCookie entry.1 = Message.isCookie k.toList := Text.sameName_congr here _
        rw [same, plain]
        rfl
      rw [later, one, List.append_nil, List.find?_cons_of_pos here]
      unfold Framing.valuesOf
      rw [List.filter_cons_of_pos (by exact here)]
      rfl
    · have none : Framing.valuesOf k (entryFields entry) = [] := by
        apply Framing.valuesOf_other
        intro f member
        rw [entryFields_name entry f member]
        exact Bool.eq_false_iff.mpr here
      rw [none, List.nil_append, List.find?_cons_of_neg here]
      exact ih distinct

variable (date : Text)

section Names

variable {headers : FieldMap} (cookies : List Text) (body : Bytes)

theorem written_values (formed : headers.WellFormed) (k : String)
    (plain : Message.isCookie k.toList = false) :
    Framing.valuesOf k (writtenFields date headers cookies body)
      = ((headers.joined? k.toList).map Text.trim).toList
        ++ Framing.valuesOf k (addedFields date headers body) := by
  have given := valuesOf_entries k headers.entries formed.distinct plain
  have none : Framing.valuesOf k
      (cookies.map fun value => ⟨"Set-Cookie".toList, Text.trim value⟩) = [] := by
    apply Framing.valuesOf_other
    intro f member
    obtain ⟨_, _, rfl⟩ := List.mem_map.mp member
    have lower : Text.sameName "Set-Cookie".toList "set-cookie".toList = true := by decide
    unfold Text.named
    rw [Text.sameName_symm, Text.sameName_congr_right lower]
    exact plain
  unfold writtenFields
  rw [Framing.valuesOf_join, Framing.valuesOf_join, given, none, List.append_nil, FieldMap.joined?_find?,
    Option.map_map]
  rfl

theorem added_lengths :
    Framing.lengthsOf (addedFields date headers body)
      = if headers.has "content-length" then [] else [Numeral.decimal body.length] := by
  unfold Framing.lengthsOf addedFields
  rw [Framing.valuesOf_join]
  split <;> split <;> rfl

theorem added_other (k : String) (length : Text.named "Content-Length".toList k = false)
    (dated : Text.named "Date".toList k = false) :
    Framing.valuesOf k (addedFields date headers body) = [] := by
  apply Framing.valuesOf_other
  intro f member
  rcases List.mem_append.mp member with inside | inside
  · split at inside
    · cases inside
    · rw [List.mem_singleton.mp inside]
      exact length
  · split at inside
    · cases inside
    · rw [List.mem_singleton.mp inside]
      exact dated

end Names

variable {headers : FieldMap} {body : Bytes}

def LengthFits (headers : FieldMap) (body : Bytes) : Prop :=
  headers.has "content-length" = true → ∃ value,
    headers.values "content-length".toList = [value] ∧ Framing.length? value = some body.length

theorem LengthFits.written (fits : LengthFits headers body) (formed : headers.WellFormed)
    (word : body.length < Numeral.wordBound) (cookies : List Text) :
    ∃ value, Framing.lengthsOf (writtenFields date headers cookies body) = [value] ∧
      Framing.IsLength value ∧ Framing.decimalValue value = body.length := by
  have all := written_values date cookies body formed "content-length" (by decide)
  have added : Framing.lengthsOf (addedFields date headers body) = _ := added_lengths date body
  unfold Framing.lengthsOf at added ⊢
  rw [all, added]
  by_cases given : headers.has "content-length" = true
  · obtain ⟨value, only, read⟩ := fits given
    obtain ⟨whole, same⟩ := (Framing.length?_iff value body.length).mp read
    have joined : headers.joined? "content-length".toList = some value := by
      unfold FieldMap.joined?
      rw [if_pos (by exact given), only, commaJoined_one]
    refine ⟨value, ?_, whole, same.symm⟩
    rw [joined, if_pos given, Option.map_some, length_trim read]
    rfl
  · have none : headers.joined? "content-length".toList = none := by
      unfold FieldMap.joined?
      rw [if_neg (by exact given)]
    refine ⟨Numeral.decimal body.length, ?_, decimal_isLength _ word, decimalValue_decimal _⟩
    rw [none, if_neg given]
    rfl

theorem LengthFits.accepted (fits : LengthFits headers body)
    (uncoded : headers.has "transfer-encoding" = false) (start : StartLine) (cookies : List Text)
    (charset : Option Text) :
    Writer.fields date start headers cookies charset body
      = .ok (Writer.assemble start (Writer.fieldLines date headers cookies charset body) body) := by
  have whole : Writer.lengthFits headers body = true := by
    unfold Writer.lengthFits FieldMap.first?
    by_cases given : headers.has "content-length" = true
    · obtain ⟨value, only, read⟩ := fits given
      rw [only, List.head?_cons]
      simp only [length_signed read, BEq.rfl]
    · have none := headers.values_absent "content-length".toList (Bool.eq_false_iff.mpr given)
      rw [none]
      rfl
  unfold Writer.fields Writer.isCoded
  rw [uncoded, if_neg (by simp), whole]
  rfl

theorem written_unchunked (formed : headers.WellFormed)
    (uncoded : headers.has "transfer-encoding" = false) (cookies : List Text) :
    Framing.sendsChunks (writtenFields date headers cookies body) = false := by
  have absent : headers.contains "transfer-encoding".toList = false := uncoded
  have none : headers.joined? "transfer-encoding".toList = none := by
    unfold FieldMap.joined?
    rw [absent, if_neg Bool.false_ne_true]
  unfold Framing.sendsChunks
  rw [written_values date cookies body formed _ (by decide),
    added_other _ _ _ (by decide) (by decide), none]
  rfl

theorem written_types (formed : headers.WellFormed) (cookies : List Text) :
    Framing.typesOf (writtenFields date headers cookies body)
      = ((headers.joined? "content-type".toList).map Text.trim).toList := by
  unfold Framing.typesOf
  rw [written_values date cookies body formed _ (by decide),
    added_other _ _ _ (by decide) (by decide), List.append_nil]

end Values

end HttpWire
