import HttpWire.Proofs.ReadMessages

-- Values that are no list are joined into one when they are written and collected again.
namespace HttpWire

namespace Message

section Taking

variable (m : Message) (f : Field)

theorem takeField_cookie (cookie : isCookie f.name = true) :
    m.takeField f = { m with cookies := m.cookies ++ [f.value].filter (· ≠ []) } := by
  have whole : Field.isWhole f.name = true := by
    rw [Field.isWhole_congr (b := "set-cookie".toList) cookie]
    decide
  unfold takeField Field.elements
  rw [if_pos whole, List.foldl_cons, List.foldl_nil]
  by_cases empty : f.value = []
  · rw [if_pos empty, empty]
    simp
  · rw [if_neg empty, addHeader, if_pos cookie, addCookie]
    simp [empty]

theorem takeField_list (other : isCookie f.name = false) :
    m.takeField f = { m with
      headers := (f.elements.filter (· ≠ [])).foldl (fun h value => h.insert f.name value) m.headers } := by
  unfold takeField
  induction f.elements generalizing m with
  | nil => rfl
  | cons value elements ih =>
    rw [List.foldl_cons, ih]
    by_cases empty : value = []
    · simp [empty]
    · simp [empty, addHeader, other]

theorem takeFields_whole (k : String) (whole : Field.isWhole k.toList = true)
    (other : isCookie k.toList = false) (fields : List Field) :
    (fields.foldl takeField m).headers.values k.toList
      = m.headers.values k.toList ++ (Framing.valuesOf k fields).filter (· ≠ []) := by
  induction fields generalizing m with
  | nil => exact (List.append_nil _).symm
  | cons f fields ih =>
    rw [List.foldl_cons, ih, takeField_values m f _ other, List.append_assoc]
    congr 1
    unfold Framing.valuesOf Field.elements Text.named
    by_cases same : Text.sameName f.name k.toList = true
    · rw [if_pos same, List.filter_cons_of_pos (by exact same), List.map_cons, Field.isWhole_congr same,
        if_pos whole, ← List.filter_append]
      rfl
    · rw [if_neg same, List.filter_cons_of_neg (by exact same), List.nil_append]

end Taking

end Message

section Tidiness

structure Element (name value : Text) : Prop where
  bare : Bare value
  plain : value.Uncontrolled
  free : Field.isWhole name = false → ',' ∉ value

structure FieldMap.Tidy (headers : FieldMap) : Prop where
  built : headers.Built
  names : ∀ entry ∈ headers.entries, FieldName entry.1 ∧ Message.isCookie entry.1 = false
  values : ∀ entry ∈ headers.entries, ∀ value ∈ entry.2, Element entry.1 value

theorem FieldMap.Tidy.insert {headers : FieldMap} {name value : Text} (tidy : headers.Tidy)
    (named : FieldName name) (other : Message.isCookie name = false) (element : Element name value) :
    (headers.insert name value).Tidy := by
  refine ⟨.insert name value tidy.built, fun entry member => ?_, fun entry member v inside => ?_⟩
  · rcases mem_insert member with kept | rfl | ⟨old, before, _, rfl⟩
    · exact tidy.names entry kept
    · exact ⟨named, other⟩
    · exact tidy.names old before
  · rcases mem_insert member with kept | rfl | ⟨old, before, same, rfl⟩
    · exact tidy.values entry kept v inside
    · rw [List.mem_singleton.mp inside]
      exact element
    · rcases List.mem_append.mp inside with earlier | new
      · exact tidy.values old before v earlier
      · rw [List.mem_singleton.mp new]
        refine ⟨element.bare, element.plain, fun list => element.free ?_⟩
        rw [← Field.isWhole_congr same]
        exact list

structure Message.Collected (m : Message) : Prop where
  headers : m.headers.Tidy
  cookies : ∀ value ∈ m.cookies, Bare value ∧ value.Uncontrolled

theorem takeField_collected {m : Message} {line : Bytes} {f : Field} (collected : m.Collected)
    (read : FieldLine line f) : (m.takeField f).Collected := by
  obtain ⟨named, plain, trimmed⟩ := read.writable
  have elements : ∀ value ∈ f.elements.filter (· ≠ []), Element f.name value := by
    intro value member
    obtain ⟨inside, filled⟩ := List.mem_filter.mp member
    obtain ⟨bare, within, free⟩ := elements_bare f trimmed value inside (of_decide_eq_true filled)
    exact ⟨bare, fun c here => plain c (within here), free⟩
  cases cookie : Message.isCookie f.name with
  | true =>
    rw [m.takeField_cookie f cookie]
    refine ⟨collected.headers, fun value member => ?_⟩
    rcases List.mem_append.mp member with old | new
    · exact collected.cookies value old
    · obtain ⟨same, filled⟩ := List.mem_filter.mp new
      rw [List.mem_singleton.mp same] at filled ⊢
      exact ⟨⟨of_decide_eq_true filled, trimmed⟩, plain⟩
  | false =>
    rw [m.takeField_list f cookie]
    refine ⟨?_, collected.cookies⟩
    exact List.foldlRecOn _ _ collected.headers fun _ before value member =>
      before.insert named cookie (elements value member)

theorem takeFields_collected {m : Message} (fields : List Field) (collected : m.Collected)
    (reads : ∀ f ∈ fields, ∃ line, FieldLine line f) :
    (fields.foldl Message.takeField m).Collected :=
  List.foldlRecOn fields _ collected fun _ before f member =>
    let ⟨_, read⟩ := reads f member
    takeField_collected before read

end Tidiness

section Regrouping

def regroup (entry : Text × List Text) : Text × List Text :=
  (entry.1, if Field.isWhole entry.1 then [Text.commaJoined entry.2] else entry.2)

theorem commaJoined_regroup (entry : Text × List Text) :
    Text.commaJoined (regroup entry).2 = Text.commaJoined entry.2 := by
  unfold regroup
  split
  · exact commaJoined_one _
  · rfl

theorem entryLines_regroup (entry : Text × List Text) (other : Message.isCookie entry.1 = false) :
    Writer.entryLines none (regroup entry) = Writer.entryLines none entry := by
  have name : (regroup entry).1 = entry.1 := rfl
  unfold Writer.entryLines
  rw [name, other, commaJoined_regroup]
  rfl

theorem regroup_filled (entry : Text × List Text) (filled : entry.2 ≠ []) : (regroup entry).2 ≠ [] := by
  unfold regroup
  split
  · exact List.cons_ne_nil _ _
  · exact filled

structure Regular (entry : Text × List Text) : Prop where
  other : Message.isCookie entry.1 = false
  filled : entry.2 ≠ []
  elements : ∀ value ∈ entry.2, Bare value ∧ (Field.isWhole entry.1 = false → ',' ∉ value)

theorem Regular.takeField {entry : Text × List Text} (regular : Regular entry) (m : Message)
    (absent : m.headers.contains entry.1 = false) :
    (entryFields entry).foldl Message.takeField m
      = { m with headers := ⟨m.headers.entries ++ [regroup entry]⟩ } := by
  have joined := commaJoined_bare entry.2 regular.filled fun value member =>
    (regular.elements value member).1
  let f : Field := ⟨entry.1, Text.commaJoined entry.2⟩
  have one : entryFields entry = [f] := by
    unfold entryFields
    rw [regular.other, if_neg Bool.false_ne_true, joined.trimmed]
  have elements : f.elements.filter (· ≠ []) = (regroup entry).2 := by
    unfold Field.elements regroup
    by_cases whole : Field.isWhole entry.1 = true
    · rw [if_pos whole, if_pos whole]
      simp [f, joined.filled]
    · rw [if_neg whole, if_neg whole, listElements_joined _ regular.filled fun value member =>
        ⟨(regular.elements value member).1,
          (regular.elements value member).2 (Bool.eq_false_iff.mpr whole)⟩,
        List.filter_eq_self]
      intro value member
      exact decide_eq_true (regular.elements value member).1.filled
  rw [one, List.foldl_cons, List.foldl_nil, m.takeField_list f regular.other, elements,
    FieldMap.insert_all absent _ (regroup_filled entry regular.filled)]
  rfl

theorem takeField_entries (entries : List (Text × List Text)) (m : Message)
    (regular : ∀ entry ∈ entries, Regular entry)
    (distinct : ((m.headers.entries ++ entries).map Prod.fst).Pairwise
      fun a b => Text.sameName a b = false) :
    (entries.flatMap entryFields).foldl Message.takeField m
      = { m with headers := ⟨m.headers.entries ++ entries.map regroup⟩ } := by
  induction entries generalizing m with
  | nil =>
    rw [List.map_nil, List.append_nil]
    rfl
  | cons entry entries ih =>
    have absent : m.headers.contains entry.1 = false := by
      rw [List.map_append, List.pairwise_append] at distinct
      unfold FieldMap.contains
      rw [List.any_eq_false]
      intro old member
      rw [FieldMap.isFor, distinct.2.2 old.1 (List.mem_map_of_mem member) entry.1 (List.mem_cons_self ..)]
      exact Bool.false_ne_true
    rw [List.flatMap_cons, List.foldl_append,
      (regular entry (List.mem_cons_self ..)).takeField m absent, ih]
    · rw [List.map_cons, List.append_assoc]
      rfl
    · exact fun other member => regular other (List.mem_cons_of_mem entry member)
    · simpa [regroup] using distinct

theorem takeField_cookies (cookies : List Text) (m : Message) (bare : ∀ value ∈ cookies, Bare value) :
    (cookies.map fun value => Field.mk "Set-Cookie".toList (Text.trim value)).foldl Message.takeField m
      = { m with cookies := m.cookies ++ cookies } := by
  induction cookies generalizing m with
  | nil =>
    rw [List.append_nil]
    rfl
  | cons value cookies ih =>
    have first := bare value (List.mem_cons_self ..)
    have cookie : Message.isCookie "Set-Cookie".toList = true := by decide
    rw [List.map_cons, List.foldl_cons, m.takeField_cookie _ cookie, first.trimmed,
      ih _ fun other member => bare other (List.mem_cons_of_mem value member)]
    simp [first.filled]

end Regrouping

section Completing

def completed (date : Text) (headers : FieldMap) (body : Bytes) : FieldMap :=
  let measured := if headers.has "content-length" then headers
    else headers.insert "Content-Length".toList (Numeral.decimal body.length)
  if headers.has "date" then measured else measured.insert "Date".toList date

def addedEntries (date : Text) (headers : FieldMap) (body : Bytes) : List (Text × List Text) :=
  (if headers.has "content-length" then []
    else [("Content-Length".toList, [Numeral.decimal body.length])])
    ++ (if headers.has "date" then [] else [("Date".toList, [date])])

def rewritten (date : Text) (headers : FieldMap) (body : Bytes) : FieldMap :=
  ⟨(completed date headers body).entries.map regroup⟩

variable (date : Text) (headers : FieldMap) (body : Bytes)

theorem addedFields_entries (trimmed : Text.trim date = date) :
    addedFields date headers body = (addedEntries date headers body).flatMap entryFields := by
  have length : Text.trim (Numeral.decimal body.length) = Numeral.decimal body.length :=
    trim_stable _ fun c member => (digit_plain c (decimal_digits _ c member)).1
  have cookies : Message.isCookie "Content-Length".toList = false ∧
      Message.isCookie "Date".toList = false := by decide
  unfold addedFields addedEntries
  rw [List.flatMap_append]
  congr 1
  · split
    · rfl
    · rw [List.flatMap_singleton, entryFields, cookies.1, if_neg Bool.false_ne_true, commaJoined_one,
        length]
  · split
    · rfl
    · rw [List.flatMap_singleton, entryFields, cookies.2, if_neg Bool.false_ne_true, commaJoined_one,
        trimmed]

theorem completed_entries :
    (completed date headers body).entries = headers.entries ++ addedEntries date headers body := by
  have new : ∀ (m : FieldMap) (name value : Text), m.contains name = false →
      (m.insert name value).entries = m.entries ++ [(name, [value])] := by
    intro m name value absent
    exact congrArg FieldMap.entries (FieldMap.insert_all absent [value] (List.cons_ne_nil _ _))
  have length : headers.has "content-length" = headers.contains "Content-Length".toList :=
    headers.contains_congr (by decide)
  have dated : headers.has "date" = headers.contains "Date".toList := headers.contains_congr (by decide)
  unfold completed addedEntries
  rw [length, dated]
  cases measured : headers.contains "Content-Length".toList with
  | true =>
    cases present : headers.contains "Date".toList with
    | true => exact (List.append_nil _).symm
    | false => exact new headers _ date present
  | false =>
    have grown := new headers _ (Numeral.decimal body.length) measured
    cases present : headers.contains "Date".toList with
    | true => exact grown
    | false =>
      have absent : (headers.insert "Content-Length".toList (Numeral.decimal body.length)).contains
          "Date".toList = false := by
        unfold FieldMap.contains at present ⊢
        rw [grown, List.any_append, present]
        rfl
      refine (new _ _ date absent).trans ?_
      rw [grown, List.append_assoc]
      rfl

variable {headers}

theorem completed_tidy (tidy : headers.Tidy) (seconds : Int) :
    (completed (Date.render seconds) headers body).Tidy := by
  have length : Element "Content-Length".toList (Numeral.decimal body.length) :=
    ⟨⟨Nat.toDigits_ne_nil, trim_stable _ fun c member => (digit_plain c (decimal_digits _ c member)).1⟩,
      (decimal_plain _).uncontrolled,
      fun _ inside => (digit_plain _ (decimal_digits _ _ inside)).2.1 rfl⟩
  have dated : Element "Date".toList (Date.render seconds) :=
    ⟨⟨Date.render_ne_nil seconds, Date.render_trim seconds⟩, (Date.render_plain seconds).uncontrolled,
      fun list => absurd list (by decide)⟩
  have measured : (if headers.has "content-length" then headers
      else headers.insert "Content-Length".toList (Numeral.decimal body.length)).Tidy := by
    split
    · exact tidy
    · exact tidy.insert length_named (by decide) length
  unfold completed
  dsimp only
  split
  · exact measured
  · exact measured.insert date_named (by decide) dated

theorem FieldMap.Tidy.regular (tidy : headers.Tidy) (entry : Text × List Text)
    (member : entry ∈ headers.entries) : Regular entry :=
  ⟨(tidy.names entry member).2, tidy.built.wellFormed.filled entry member, fun value inside =>
    ⟨(tidy.values entry member value inside).bare, (tidy.values entry member value inside).free⟩⟩

theorem written_collected (seconds : Int) {m : Message} (collected : m.Collected) (base : Message)
    (empty : base.headers = .empty) (uncookied : base.cookies = []) :
    (writtenFields (Date.render seconds) m.headers m.cookies body).foldl Message.takeField base
      = { base with
          headers := rewritten (Date.render seconds) m.headers body
          cookies := m.cookies } := by
  have tidy := completed_tidy body collected.headers seconds
  have split := completed_entries (Date.render seconds) m.headers body
  have regular : ∀ entry ∈ m.headers.entries ++ addedEntries (Date.render seconds) m.headers body,
      Regular entry := by
    rw [← split]
    exact tidy.regular
  have distinct := tidy.built.wellFormed.distinct
  rw [split] at distinct
  let H : FieldMap := ⟨m.headers.entries.map regroup⟩
  have first : (m.headers.entries.flatMap entryFields).foldl Message.takeField base
      = { base with headers := H } := by
    rw [takeField_entries _ base fun entry member => regular entry (List.mem_append_left _ member)]
    · rw [empty]
      rfl
    · rw [empty]
      exact collected.headers.built.wellFormed.distinct
  have second := takeField_cookies m.cookies { base with headers := H }
    fun value member => (collected.cookies value member).1
  have third := takeField_entries (addedEntries (Date.render seconds) m.headers body)
    { base with headers := H, cookies := base.cookies ++ m.cookies }
    (fun entry member => regular entry (List.mem_append_right _ member))
    (by rw [List.map_append] at distinct ⊢; rw [List.map_map]; exact distinct)
  unfold writtenFields
  rw [List.foldl_append, List.foldl_append, first, second,
    addedFields_entries _ _ _ (Date.render_trim seconds), third]
  unfold rewritten
  rw [split, List.map_append, uncookied]
  rfl

section Lookup

variable (k : Text)

theorem find?_regroup (entries : List (Text × List Text)) :
    (entries.map regroup).find? (FieldMap.isFor k) = (entries.find? (FieldMap.isFor k)).map regroup :=
  List.find?_map

def Kept (headers : FieldMap) (k : Text) : Prop :=
  headers.contains k = true ∨ (k.named "content-length" = false ∧ k.named "date" = false)

theorem isFor_length (values : List Text) :
    FieldMap.isFor k ("Content-Length".toList, values) = k.named "content-length" := by
  have lower : Text.sameName "Content-Length".toList "content-length".toList = true := by decide
  exact (Text.sameName_symm _ _).trans (Text.sameName_congr_right lower k)

theorem isFor_date (values : List Text) :
    FieldMap.isFor k ("Date".toList, values) = k.named "date" := by
  have lower : Text.sameName "Date".toList "date".toList = true := by decide
  exact (Text.sameName_symm _ _).trans (Text.sameName_congr_right lower k)

theorem completed_find? (headers : FieldMap) (kept : Kept headers k) :
    (completed date headers body).entries.find? (FieldMap.isFor k)
      = headers.entries.find? (FieldMap.isFor k) := by
  rw [completed_entries, List.find?_append]
  rcases kept with present | ⟨length, dated⟩
  · rw [FieldMap.contains_find?, Option.isSome_iff_exists] at present
    obtain ⟨entry, found⟩ := present
    rw [found, Option.some_or]
  · have none : (addedEntries date headers body).find? (FieldMap.isFor k) = none := by
      rw [List.find?_eq_none]
      intro entry member
      rcases List.mem_append.mp member with inside | inside
      · split at inside
        · cases inside
        · rw [List.mem_singleton.mp inside, isFor_length, length]
          exact Bool.false_ne_true
      · split at inside
        · cases inside
        · rw [List.mem_singleton.mp inside, isFor_date, dated]
          exact Bool.false_ne_true
    rw [none, Option.or_none]

theorem rewritten_joined (headers : FieldMap) (kept : Kept headers k) :
    (rewritten date headers body).joined? k = headers.joined? k := by
  unfold rewritten
  rw [FieldMap.joined?_find?, FieldMap.joined?_find?, find?_regroup, completed_find? _ _ _ headers kept,
    Option.map_map]
  simp only [Function.comp_def, commaJoined_regroup]

theorem rewritten_contains (headers : FieldMap) (kept : Kept headers k) :
    (rewritten date headers body).contains k = headers.contains k := by
  unfold rewritten
  rw [FieldMap.contains_find?, FieldMap.contains_find?, find?_regroup,
    completed_find? _ _ _ headers kept, Option.isSome_map]

-- One by one they are, unless several that are no list were joined.
theorem rewritten_values (formed : headers.WellFormed) (kept : Kept headers k)
    (single : Field.isWhole k = false ∨ (headers.values k).length ≤ 1) :
    (rewritten date headers body).values k = headers.values k := by
  have values : ∀ m : FieldMap, m.values k = ((m.entries.find? (FieldMap.isFor k)).map Prod.snd).getD [] := by
    intro m
    unfold FieldMap.values
    cases m.entries.find? (FieldMap.isFor k) <;> rfl
  rw [values, values headers]
  unfold rewritten
  rw [find?_regroup, completed_find? _ _ _ headers kept]
  cases found : headers.entries.find? (FieldMap.isFor k) with
  | none => rfl
  | some entry =>
    have here : FieldMap.isFor k entry = true := List.find?_some found
    have whole : Field.isWhole entry.1 = Field.isWhole k := Field.isWhole_congr here
    simp only [Option.map_some, Option.getD_some, regroup, whole]
    split
    · rename_i unlisted
      rcases single with listed | few
      · rw [listed] at unlisted
        cases unlisted
      · obtain ⟨value, only⟩ := formed.one k found few
        rw [only, commaJoined_one]
    · rfl

end Lookup

section Settled

theorem rewritten_complete (headers : FieldMap) :
    (rewritten date headers body).has "content-length" = true ∧
      (rewritten date headers body).has "date" = true := by
  have any : ∀ k : String, (rewritten date headers body).has k
      = (headers.has k || (addedEntries date headers body).any (FieldMap.isFor k.toList)) := by
    intro k
    unfold FieldMap.has FieldMap.contains rewritten
    rw [completed_entries, List.any_map, List.any_append]
    rfl
  rw [any, any]
  unfold addedEntries
  constructor
  · cases measured : headers.has "content-length" with
    | true => rfl
    | false =>
      rw [Bool.false_or, if_neg Bool.false_ne_true, List.any_append, List.any_cons, isFor_length,
        Text.named, Text.sameName_refl]
      rfl
  · cases dated : headers.has "date" with
    | true => rfl
    | false =>
      rw [Bool.false_or, if_neg Bool.false_ne_true, List.any_append, List.any_cons, isFor_date,
        Text.named, Text.sameName_refl, Bool.true_or, Bool.or_true]

theorem rewritten_formed (tidy : headers.Tidy) (seconds : Int) :
    (rewritten (Date.render seconds) headers body).WellFormed := by
  have formed := (completed_tidy body tidy seconds).built.wellFormed
  refine ⟨?_, fun entry member => ?_⟩
  · unfold rewritten
    rw [List.map_map]
    exact formed.distinct
  · obtain ⟨old, before, rfl⟩ := List.mem_map.mp member
    exact regroup_filled old (formed.filled old before)

theorem LengthFits.rewritten (fits : LengthFits headers body) (formed : headers.WellFormed)
    (word : body.length < Numeral.wordBound) :
    LengthFits (HttpWire.rewritten date headers body) body := by
  intro _
  by_cases given : headers.has "content-length" = true
  · obtain ⟨value, only, read⟩ := fits given
    refine ⟨value, ?_, read⟩
    rw [rewritten_values _ _ _ formed (.inl given) (.inl (by decide)), only]
  · have absent : headers.contains "content-length".toList = false := Bool.eq_false_iff.mpr given
    have named := (isFor_length "content-length".toList [Numeral.decimal body.length]).trans
      (Text.sameName_refl _)
    refine ⟨Numeral.decimal body.length, ?_, (Framing.length?_iff _ _).mpr
      ⟨decimal_isLength _ word, (decimalValue_decimal _).symm⟩⟩
    unfold FieldMap.values HttpWire.rewritten
    rw [find?_regroup, completed_entries, List.find?_append, headers.find?_absent _ absent, Option.none_or]
    unfold addedEntries
    rw [if_neg given, List.singleton_append, List.find?_cons_of_pos named]
    rfl

-- Written once more, the fields are the same lines, if those that were added before did not stand
-- behind cookies.
theorem fieldLines_rewritten (later : Text) (tidy : headers.Tidy)
    (uncoded : headers.has "transfer-encoding" = false) (cookies : List Text)
    (ordered : cookies = [] ∨
      (headers.has "content-length" = true ∧ headers.has "date" = true)) :
    Writer.fieldLines later (rewritten date headers body) cookies none body
      = Writer.fieldLines date headers cookies none body := by
  obtain ⟨measured, dated⟩ := rewritten_complete date body headers
  have given : (headers.entries.map regroup).flatMap (Writer.entryLines none)
      = headers.entries.flatMap (Writer.entryLines none) := by
    rw [List.flatMap_map]
    exact List.flatMap_congr fun entry member => entryLines_regroup entry (tidy.names entry member).2
  have added : ((addedEntries date headers body).map regroup).flatMap (Writer.entryLines none)
      = (if headers.has "content-length" then []
          else [("Content-Length".toList, Numeral.decimal body.length)])
        ++ (if headers.has "date" then [] else [("Date".toList, date)]) := by
    have plain : ∀ name value : Text, Message.isCookie name = false → name.named "content-type" = false →
        [(name, [value])].flatMap (fun entry => Writer.entryLines none (regroup entry))
          = [(name, value)] := by
      intro name value other untyped
      rw [List.flatMap_singleton, entryLines_regroup _ other]
      unfold Writer.entryLines
      rw [other, untyped, commaJoined_one]
      rfl
    unfold addedEntries
    rw [List.flatMap_map, List.flatMap_append]
    congr 1
    · split
      · rfl
      · exact plain _ _ (by decide) (by decide)
    · split
      · rfl
      · exact plain _ _ (by decide) (by decide)
  unfold Writer.fieldLines Writer.isCoded
  rw [measured, dated, Bool.or_true, if_pos rfl, if_pos rfl, List.append_nil, List.append_nil, uncoded,
    Bool.false_or]
  unfold rewritten
  rw [completed_entries, List.map_append, List.flatMap_append, given, added]
  rcases ordered with none | ⟨length, date⟩
  · subst none
    simp only [List.map_nil, List.append_nil, List.append_assoc]
  · rw [if_pos length, if_pos date]
    simp only [List.append_nil]

end Settled

end Completing

end HttpWire
