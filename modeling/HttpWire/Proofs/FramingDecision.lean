import HttpWire.Framing
import Mathlib.Data.List.Induction

-- The reader decides line by line; the order of the lines does not matter.
namespace HttpWire.Framing

def valuesOf (name : String) (fields : List Field) : List Text :=
  (fields.filter (·.name.named name)).map (·.value)

def lengthsOf (fields : List Field) : List Text := valuesOf "content-length" fields

def typesOf (fields : List Field) : List Text := valuesOf "content-type" fields

def sendsChunks (fields : List Field) : Bool :=
  (valuesOf "transfer-encoding" fields).any endsChunked

def isMultipart (value : Text) : Bool := (MediaType.ofValue value).isMultipart

def sendsParts (fields : List Field) : Bool := (typesOf fields).any isMultipart

def boundaryOf (value : Text) : Bytes :=
  Utf8.encode (((MediaType.ofValue value).valuesOf "boundary").headD [])

def decimalValue (digits : Text) : Nat := digits.foldl (fun n c => n * 10 + (c.toNat - 48)) 0

structure IsLength (value : Text) : Prop where
  nonempty : value ≠ []
  digits : ∀ c ∈ value, c.isDigit = true
  fits : decimalValue value < Numeral.wordBound

instance (value : Text) : Decidable (IsLength value) :=
  decidable_of_iff (value ≠ [] ∧ value.all Char.isDigit = true ∧ decimalValue value < Numeral.wordBound)
    ⟨fun ⟨nonempty, digits, fits⟩ => ⟨nonempty, List.all_eq_true.mp digits, fits⟩,
      fun ⟨nonempty, digits, fits⟩ => ⟨nonempty, List.all_eq_true.mpr digits, fits⟩⟩

structure Decimal (bound : Nat) (t : Text) (n : Nat) : Prop where
  nonempty : t ≠ []
  digits : ∀ c ∈ t, c.isDigit = true
  value : decimalValue t = n
  fits : n < bound

def declaredBy (fields : List Field) : Option Nat := (lengthsOf fields).head?.map decimalValue

structure Consistent (fields : List Field) : Prop where
  once : (lengthsOf fields).length ≤ 1
  readable : ∀ value ∈ lengthsOf fields, IsLength value
  unambiguous : lengthsOf fields = [] ∨ sendsChunks fields = false
  bounded : ∀ value ∈ typesOf fields, isMultipart value = true →
    1 ≤ (boundaryOf value).length ∧ (boundaryOf value).length ≤ 70

instance (fields : List Field) : Decidable (Consistent fields) :=
  decidable_of_iff ((lengthsOf fields).length ≤ 1 ∧ (∀ value ∈ lengthsOf fields, IsLength value) ∧
      (lengthsOf fields = [] ∨ sendsChunks fields = false) ∧
      ∀ value ∈ typesOf fields, isMultipart value = true →
        1 ≤ (boundaryOf value).length ∧ (boundaryOf value).length ≤ 70)
    ⟨fun ⟨once, readable, unambiguous, bounded⟩ => ⟨once, readable, unambiguous, bounded⟩,
      fun ⟨once, readable, unambiguous, bounded⟩ => ⟨once, readable, unambiguous, bounded⟩⟩

def needsLength : Sender → Bool
  | .unknown => true
  | .client method => !method.bodyless
  | .server _ => false

def forbidsBody : Sender → Bool
  | .server status => (100 ≤ status ∧ status ≤ 199) ∨ status = 204 ∨ status = 304
  | _ => false

structure Acceptable (sender : Sender) (fields : List Field) : Prop where
  consistent : Consistent fields
  promised : needsLength sender = true → sendsParts fields = true →
    sendsChunks fields = true ∨ declaredBy fields ≠ none

instance (sender : Sender) (fields : List Field) : Decidable (Acceptable sender fields) :=
  decidable_of_iff (Consistent fields ∧ (needsLength sender = true → sendsParts fields = true →
      sendsChunks fields = true ∨ declaredBy fields ≠ none))
    ⟨fun ⟨consistent, promised⟩ => ⟨consistent, promised⟩,
      fun ⟨consistent, promised⟩ => ⟨consistent, promised⟩⟩

def formatElse (unframed : BodyFormat) (fields : List Field) : BodyFormat :=
  if sendsChunks fields then .chunked
  else
    match declaredBy fields with
    | some 0 => .empty
    | some _ => if sendsParts fields then .multipart else .raw
    | none => unframed

def formatOf (sender : Sender) (fields : List Field) : BodyFormat :=
  if forbidsBody sender then .empty
  else
    match sender with
    | .server _ => formatElse (if sendsParts fields then .multipart else .raw) fields
    | _ => formatElse .empty fields

section Formats

variable {sender : Sender} {unframed : BodyFormat} {fields : List Field}

theorem formatElse_raw (raw : formatElse unframed fields = .raw)
    (kept : unframed = .raw → sendsParts fields = false) : sendsParts fields = false := by
  unfold formatElse at raw
  split at raw
  · cases raw
  · split at raw
    · cases raw
    · split at raw
      · cases raw
      · rename_i none
        exact Bool.eq_false_iff.mpr none
    · exact kept raw

theorem formatOf_raw (raw : formatOf sender fields = .raw) :
    sendsParts fields = false ∧ forbidsBody sender = false := by
  unfold formatOf at raw
  split at raw
  · cases raw
  · rename_i allowed
    refine ⟨?_, Bool.eq_false_iff.mpr allowed⟩
    split at raw
    · apply formatElse_raw raw
      intro ended
      split at ended
      · cases ended
      · rename_i none
        exact Bool.eq_false_iff.mpr none
    · exact formatElse_raw raw nofun

theorem formatElse_chunked (other : unframed ≠ .chunked) :
    formatElse unframed fields = .chunked ↔ sendsChunks fields = true := by
  unfold formatElse
  split
  · rename_i chunks
    simp [chunks]
  · rename_i plain
    split
    · simp [plain]
    · split <;> simp [plain]
    · simp [plain, other]

theorem formatOf_chunked (allowed : forbidsBody sender = false) :
    formatOf sender fields = .chunked ↔ sendsChunks fields = true := by
  unfold formatOf
  simp only [allowed, Bool.false_eq_true, if_false]
  split
  · apply formatElse_chunked
    split <;> decide
  · exact formatElse_chunked nofun

end Formats

section Values

theorem valuesOf_join (name : String) (fields more : List Field) :
    valuesOf name (fields ++ more) = valuesOf name fields ++ valuesOf name more := by
  simp [valuesOf]

theorem valuesOf_cons (name : String) (f : Field) (fields : List Field) :
    valuesOf name (f :: fields)
      = (if f.name.named name then [f.value] else []) ++ valuesOf name fields := by
  by_cases same : f.name.named name = true
  · simp [valuesOf, same]
  · simp [valuesOf, same]

theorem valuesOf_other (name : String) (fields : List Field)
    (other : ∀ f ∈ fields, f.name.named name = false) : valuesOf name fields = [] := by
  simpa [valuesOf] using other

theorem valuesOf_append (name : String) (fields : List Field) (f : Field) :
    valuesOf name (fields ++ [f])
      = valuesOf name fields ++ if f.name.named name then [f.value] else [] := by
  simp [valuesOf_join, valuesOf_cons, valuesOf_other]

theorem not_named (t : Text) (a b : String) (same : t.named a = true)
    (differ : Text.lower a.toList ≠ Text.lower b.toList) : t.named b = false := by
  unfold Text.named Text.sameName at same ⊢
  rw [beq_iff_eq] at same
  rw [same]
  exact beq_false_of_ne differ

theorem below?_iff (bound : Nat) (t : Text) (n : Nat) :
    Numeral.below? bound t = some n ↔ Decimal bound t n := by
  unfold Numeral.below? Numeral.ofDigits?
  rw [Option.filter_eq_some_iff]
  constructor
  · rintro ⟨digits, fits⟩
    split at digits
    · rename_i real
      cases digits
      exact ⟨real.1, List.all_eq_true.mp real.2, rfl, of_decide_eq_true fits⟩
    · cases digits
  · rintro ⟨nonempty, digits, rfl, fits⟩
    rw [if_pos ⟨nonempty, List.all_eq_true.mpr digits⟩]
    exact ⟨rfl, decide_eq_true fits⟩

-- No digit is a plus sign, so one in front is told apart from the digits.
theorem signedBelow?_iff (bound : Nat) (t : Text) (n : Nat) :
    Numeral.signedBelow? bound t = some n ↔
      ∃ digits, (t = digits ∨ t = '+' :: digits) ∧ Decimal bound digits n := by
  constructor
  · intro read
    unfold Numeral.signedBelow? at read
    split at read
    · exact ⟨_, .inr rfl, (below?_iff _ _ _).mp read⟩
    · exact ⟨_, .inl rfl, (below?_iff _ _ _).mp read⟩
  · rintro ⟨digits, rfl | rfl, decimal⟩
    · unfold Numeral.signedBelow?
      split
      · cases decimal.digits '+' (List.mem_cons_self ..)
      · exact (below?_iff _ _ _).mpr decimal
    · exact (below?_iff _ _ _).mpr decimal

theorem length?_iff (value : Text) (n : Nat) :
    length? value = some n ↔ IsLength value ∧ n = decimalValue value := by
  unfold length?
  rw [below?_iff]
  constructor
  · rintro ⟨nonempty, digits, rfl, fits⟩
    exact ⟨⟨nonempty, digits, fits⟩, rfl⟩
  · rintro ⟨⟨nonempty, digits, fits⟩, rfl⟩
    exact ⟨nonempty, digits, rfl, fits⟩

theorem boundary?_iff (value : Text) (found : Option Bytes) :
    boundary? value = .ok found ↔
      if isMultipart value then
        (1 ≤ (boundaryOf value).length ∧ (boundaryOf value).length ≤ 70) ∧
          found = some (boundaryOf value)
      else found = none := by
  unfold boundary? isMultipart boundaryOf boundaryLimit
  dsimp only
  generalize Utf8.encode (((MediaType.ofValue value).valuesOf "boundary").headD []) = boundary
  have empty : boundary = [] ↔ ¬ 1 ≤ boundary.length := by
    rw [← List.length_eq_zero_iff]
    omega
  split
  · by_cases bad : boundary = [] ∨ 70 < boundary.length
    · have outside : ¬ (1 ≤ boundary.length ∧ boundary.length ≤ 70) := by
        rw [empty] at bad
        omega
      rw [if_pos bad]
      simp only [reduceCtorEq, outside, false_and]
    · have inside : 1 ≤ boundary.length ∧ boundary.length ≤ 70 := by
        rw [empty] at bad
        omega
      rw [if_neg bad]
      simp only [Except.ok.injEq, inside, and_self, true_and]
      exact eq_comm
  · simp only [Except.ok.injEq]
    exact eq_comm

-- What one more field adds, by its name. No field has two of these names.

variable (fields : List Field) (f : Field)

theorem length_added (named : f.name.named "content-length" = true) :
    lengthsOf (fields ++ [f]) = lengthsOf fields ++ [f.value] ∧
      sendsChunks (fields ++ [f]) = sendsChunks fields ∧
      typesOf (fields ++ [f]) = typesOf fields := by
  have coding := not_named f.name "content-length" "transfer-encoding" named (by decide)
  have type := not_named f.name "content-length" "content-type" named (by decide)
  unfold lengthsOf sendsChunks typesOf
  simp [valuesOf_append, named, coding, type]

theorem coding_added (named : f.name.named "transfer-encoding" = true) :
    lengthsOf (fields ++ [f]) = lengthsOf fields ∧
      sendsChunks (fields ++ [f]) = (sendsChunks fields || endsChunked f.value) ∧
      typesOf (fields ++ [f]) = typesOf fields := by
  have length := not_named f.name "transfer-encoding" "content-length" named (by decide)
  have type := not_named f.name "transfer-encoding" "content-type" named (by decide)
  unfold lengthsOf sendsChunks typesOf
  simp [valuesOf_append, named, length, type]

theorem type_added (named : f.name.named "content-type" = true) :
    lengthsOf (fields ++ [f]) = lengthsOf fields ∧
      sendsChunks (fields ++ [f]) = sendsChunks fields ∧
      typesOf (fields ++ [f]) = typesOf fields ++ [f.value] := by
  have length := not_named f.name "content-type" "content-length" named (by decide)
  have coding := not_named f.name "content-type" "transfer-encoding" named (by decide)
  unfold lengthsOf sendsChunks typesOf
  simp [valuesOf_append, named, length, coding]

theorem other_added (length : ¬ f.name.named "content-length" = true)
    (coding : ¬ f.name.named "transfer-encoding" = true)
    (type : ¬ f.name.named "content-type" = true) :
    lengthsOf (fields ++ [f]) = lengthsOf fields ∧
      sendsChunks (fields ++ [f]) = sendsChunks fields ∧
      typesOf (fields ++ [f]) = typesOf fields := by
  unfold lengthsOf sendsChunks typesOf
  simp [valuesOf_append, length, coding, type]

end Values

section Noting

def tally (fields : List Field) : BodyFormat :=
  formatElse (if sendsParts fields then .multipart else .empty) fields

structure Noted (fields : List Field) (fr : Framing) : Prop where
  consistent : Consistent fields
  declared : fr.declared = declaredBy fields
  format : fr.format = tally fields

def Decides (fields : List Field) : Except Error Framing → Prop
  | .ok fr => Noted fields fr
  | .error _ => ¬ Consistent fields

theorem tally_chunked (fields : List Field) : tally fields = .chunked ↔ sendsChunks fields = true := by
  unfold tally formatElse
  cases sendsChunks fields with
  | true => exact ⟨fun _ => rfl, fun _ => rfl⟩
  | false =>
    cases declaredBy fields with
    | none => cases sendsParts fields <;> exact ⟨nofun, nofun⟩
    | some n => cases n <;> cases sendsParts fields <;> exact ⟨nofun, nofun⟩

theorem declaredBy_none (fields : List Field) : declaredBy fields = none ↔ lengthsOf fields = [] := by
  unfold declaredBy
  cases lengthsOf fields with
  | nil => exact ⟨fun _ => rfl, fun _ => rfl⟩
  | cons value values => exact ⟨nofun, nofun⟩

theorem Consistent.before {fields : List Field} {f : Field} (all : Consistent (fields ++ [f])) :
    Consistent fields := by
  have values : ∀ name, ∃ more, valuesOf name (fields ++ [f]) = valuesOf name fields ++ more :=
    fun name => ⟨_, valuesOf_append name fields f⟩
  obtain ⟨once, readable, unambiguous, bounded⟩ := all
  obtain ⟨lengths, grown⟩ := values "content-length"
  obtain ⟨codings, coded⟩ := values "transfer-encoding"
  obtain ⟨types, typed⟩ := values "content-type"
  unfold lengthsOf typesOf sendsChunks at *
  rw [grown] at once readable unambiguous
  rw [coded] at unambiguous
  rw [typed] at bounded
  refine ⟨?_, ?_, ?_, ?_⟩
  · rw [List.length_append] at once
    unfold lengthsOf
    omega
  · intro value member
    exact readable value (List.mem_append_left _ member)
  · rcases unambiguous with none | plain
    · exact .inl (List.append_eq_nil_iff.mp none).1
    · rw [List.any_append, Bool.or_eq_false_iff] at plain
      exact .inr plain.1
  · intro value member
    exact bounded value (List.mem_append_left _ member)

theorem Consistent.same_lengths {fields more : List Field} (agree : Consistent fields)
    (lengths : lengthsOf more = lengthsOf fields)
    (unambiguous : lengthsOf fields = [] ∨ sendsChunks more = false)
    (bounded : ∀ value ∈ typesOf more, isMultipart value = true →
      1 ≤ (boundaryOf value).length ∧ (boundaryOf value).length ≤ 70) : Consistent more := by
  refine ⟨?_, ?_, ?_, bounded⟩
  · rw [lengths]
    exact agree.once
  · rw [lengths]
    exact agree.readable
  · rw [lengths]
    exact unambiguous

variable {fields : List Field} {fr : Framing} {f : Field}

-- A length may follow neither chunks nor another length.
theorem Noted.refuses_length (noted : Noted fields fr)
    (named : f.name.named "content-length" = true)
    (taken : fr.format = .chunked ∨ fr.declared.isSome = true) : ¬ Consistent (fields ++ [f]) := by
  obtain ⟨lengths, chunks, _⟩ := length_added fields f named
  intro all
  rcases taken with chunked | given
  · rw [noted.format, tally_chunked] at chunked
    rcases all.unambiguous with none | plain
    · rw [lengths] at none
      exact absurd none (by simp)
    · rw [chunks, chunked] at plain
      cases plain
  · have some : lengthsOf fields ≠ [] := by
      intro none
      rw [noted.declared, (declaredBy_none fields).mpr none] at given
      cases given
    have once := all.once
    have before := List.length_pos_iff.mpr some
    rw [lengths, List.length_append, List.length_singleton] at once
    omega

theorem noteLength_decides (noted : Noted fields fr) (named : f.name.named "content-length" = true) :
    Decides (fields ++ [f]) (fr.noteLength f.value) := by
  obtain ⟨lengths, chunks, types⟩ := length_added fields f named
  have ⟨consistent, declared, format⟩ := noted
  unfold noteLength
  split
  · rename_i taken
    exact noted.refuses_length named taken
  · rename_i free
    rw [not_or, Bool.not_eq_true, Option.isSome_eq_false_iff, Option.isNone_iff_eq_none] at free
    obtain ⟨notChunked, undeclared⟩ := free
    rw [declared, declaredBy_none] at undeclared
    rw [format, tally_chunked, Bool.not_eq_true] at notChunked
    cases read : length? f.value with
    | none =>
      intro all
      have whole := all.readable f.value (by rw [lengths]; simp)
      rw [(length?_iff f.value _).mpr ⟨whole, rfl⟩] at read
      cases read
    | some length =>
      obtain ⟨whole, rfl⟩ := (length?_iff f.value length).mp read
      -- No length came before, so this one decides.
      have only : lengthsOf (fields ++ [f]) = [f.value] := by rw [lengths, undeclared]; rfl
      have told : declaredBy (fields ++ [f]) = some (decimalValue f.value) := by
        unfold declaredBy
        rw [only]
        rfl
      have parts : sendsParts (fields ++ [f]) = sendsParts fields := by rw [sendsParts, types]; rfl
      refine ⟨⟨?_, ?_, ?_, ?_⟩, told.symm, ?_⟩
      · rw [only]
        exact Nat.le_refl _
      · rw [only]
        simpa using whole
      · rw [chunks]
        exact .inr notChunked
      · rw [types]
        exact consistent.bounded
      · have before := (declaredBy_none fields).mpr undeclared
        dsimp only
        rw [format]
        unfold tally formatElse
        rw [told, chunks, parts, notChunked, before]
        cases decimalValue f.value with
        | zero => rfl
        | succ n => cases sendsParts fields <;> rfl

theorem noteCoding_decides (noted : Noted fields fr)
    (named : f.name.named "transfer-encoding" = true) :
    Decides (fields ++ [f]) (fr.noteCoding f.value) := by
  obtain ⟨lengths, chunks, types⟩ := coding_added fields f named
  have ⟨consistent, declared, format⟩ := noted
  have told : declaredBy (fields ++ [f]) = declaredBy fields := by rw [declaredBy, lengths]; rfl
  have parts : sendsParts (fields ++ [f]) = sendsParts fields := by rw [sendsParts, types]; rfl
  unfold noteCoding
  split
  · rename_i chunked
    rw [chunked, Bool.or_true] at chunks
    split
    · rename_i given
      intro all
      rcases all.unambiguous with none | plain
      · rw [lengths, ← declaredBy_none, ← declared] at none
        rw [none] at given
        cases given
      · rw [chunks] at plain
        cases plain
    · rename_i free
      rw [Bool.not_eq_true, Option.isSome_eq_false_iff, Option.isNone_iff_eq_none] at free
      rw [declared, declaredBy_none] at free
      have agree := consistent.same_lengths lengths (.inl free)
        (by rw [types]; exact consistent.bounded)
      exact ⟨agree, by rw [told]; exact declared, ((tally_chunked _).mpr chunks).symm⟩
  · rename_i plain
    rw [Bool.not_eq_true] at plain
    rw [plain, Bool.or_false] at chunks
    have agree := consistent.same_lengths lengths (by rw [chunks]; exact consistent.unambiguous)
      (by rw [types]; exact consistent.bounded)
    refine ⟨agree, by rw [told]; exact declared, ?_⟩
    rw [format, tally, tally, formatElse, formatElse, told, chunks, parts]

theorem noteType_decides (noted : Noted fields fr) (named : f.name.named "content-type" = true) :
    Decides (fields ++ [f]) (fr.noteType f.value) := by
  obtain ⟨lengths, chunks, types⟩ := type_added fields f named
  have ⟨consistent, declared, format⟩ := noted
  have told : declaredBy (fields ++ [f]) = declaredBy fields := by rw [declaredBy, lengths]; rfl
  have parts : sendsParts (fields ++ [f]) = (sendsParts fields || isMultipart f.value) := by
    rw [sendsParts, types]
    simp [sendsParts]
  have last : f.value ∈ typesOf (fields ++ [f]) := by rw [types]; simp
  -- What the earlier fields agree on holds; only the new boundary is in question.
  have agree : (isMultipart f.value = true →
      1 ≤ (boundaryOf f.value).length ∧ (boundaryOf f.value).length ≤ 70) →
      Consistent (fields ++ [f]) := by
    intro usable
    apply consistent.same_lengths lengths (by rw [chunks]; exact consistent.unambiguous)
    intro value member
    rw [types] at member
    rcases List.mem_append.mp member with old | new
    · exact consistent.bounded value old
    · rw [List.mem_singleton.mp new]
      exact usable
  unfold noteType
  cases read : boundary? f.value with
  | error e =>
    intro all
    have whole := boundary?_iff f.value
    by_cases multipart : isMultipart f.value = true
    · have usable := all.bounded f.value last multipart
      rw [(whole _).mpr (by rw [if_pos multipart]; exact ⟨usable, rfl⟩)] at read
      cases read
    · rw [(whole none).mpr (by rw [if_neg multipart])] at read
      cases read
  | ok found =>
    have meant := (boundary?_iff f.value found).mp read
    by_cases multipart : isMultipart f.value = true
    · rw [if_pos multipart] at meant
      obtain ⟨usable, rfl⟩ := meant
      refine ⟨agree fun _ => usable, by rw [told]; exact declared, ?_⟩
      rw [multipart, Bool.or_true] at parts
      dsimp only
      rw [format, declared]
      unfold tally formatElse
      rw [told, chunks, parts]
      cases sendsChunks fields with
      | true => rfl
      | false =>
        cases declaredBy fields with
        | none => cases sendsParts fields <;> rfl
        | some n => cases n <;> cases sendsParts fields <;> rfl
    · rw [if_neg multipart] at meant
      cases meant
      refine ⟨agree fun real => absurd real multipart, by rw [told]; exact declared, ?_⟩
      rw [Bool.not_eq_true] at multipart
      rw [multipart, Bool.or_false] at parts
      dsimp only
      rw [format, tally, tally, formatElse, formatElse, told, chunks, parts]

theorem note_decides (noted : Noted fields fr) : Decides (fields ++ [f]) (fr.note f) := by
  unfold note
  split
  · rename_i named
    exact noteLength_decides noted named
  · rename_i length
    split
    · rename_i named
      exact noteCoding_decides noted named
    · rename_i coding
      split
      · rename_i named
        exact noteType_decides noted named
      · rename_i type
        obtain ⟨lengths, chunks, types⟩ := other_added fields f length coding type
        have agree := noted.consistent.same_lengths lengths
          (by rw [chunks]; exact noted.consistent.unambiguous)
          (by rw [types]; exact noted.consistent.bounded)
        refine ⟨agree, ?_, ?_⟩
        · rw [declaredBy, lengths]
          exact noted.declared
        · rw [tally, formatElse, declaredBy, sendsParts, lengths, chunks, types]
          exact noted.format

theorem noted_nil : Noted [] {} := by
  refine ⟨⟨Nat.zero_le _, nofun, .inl rfl, nofun⟩, rfl, rfl⟩

-- A section is noted if and only if its fields agree.
theorem fold_decides (fields : List Field) : Decides fields (fields.foldlM note {}) := by
  induction fields using List.reverseRecOn with
  | nil => exact noted_nil
  | append_singleton fields f ih =>
    rw [List.foldlM_append]
    cases before : fields.foldlM note {} with
    | error e =>
      rw [before] at ih
      exact fun all => ih all.before
    | ok fr =>
      rw [before] at ih
      have step : Decides (fields ++ [f]) (fr.note f) := note_decides ih
      simp only [List.foldlM_cons, List.foldlM_nil, bind_pure]
      exact step

end Noting

section Settling

variable {fields : List Field} {fr : Framing}

theorem formatElse_framed (a b : BodyFormat)
    (framed : sendsChunks fields = true ∨ declaredBy fields ≠ none) :
    formatElse a fields = formatElse b fields := by
  unfold formatElse
  cases declared : declaredBy fields with
  | some n => cases n <;> rfl
  | none =>
    rcases framed with chunks | real
    · rw [chunks]
      rfl
    · exact absurd declared real

theorem formatElse_unframed (a : BodyFormat) (chunks : sendsChunks fields = false)
    (declared : declaredBy fields = none) : formatElse a fields = a := by
  unfold formatElse
  rw [chunks, declared]
  rfl

theorem framed_iff (noted : Noted fields fr) :
    fr.format = .chunked ∨ fr.declared.isSome = true ↔
      sendsChunks fields = true ∨ declaredBy fields ≠ none := by
  rw [noted.format, tally_chunked, noted.declared, Option.ne_none_iff_isSome]

theorem parts_iff (noted : Noted fields fr) (chunks : sendsChunks fields = false)
    (declared : declaredBy fields = none) : fr.format = .multipart ↔ sendsParts fields = true := by
  rw [noted.format, tally, formatElse_unframed _ chunks declared]
  cases sendsParts fields <;> decide

theorem settleRequest_iff (noted : Noted fields fr) (quiet : Bool) (format : BodyFormat) :
    (∃ settled, fr.settleRequest quiet = .ok settled ∧ settled.format = format) ↔
      (quiet = false → sendsParts fields = true →
        sendsChunks fields = true ∨ declaredBy fields ≠ none) ∧
      format = formatElse .empty fields := by
  have framed := framed_iff noted
  unfold settleRequest
  -- A length or chunks decide; without either there is no body.
  by_cases known : sendsChunks fields = true ∨ declaredBy fields ≠ none
  · rw [if_pos (framed.mpr known), formatElse_framed _ _ known]
    constructor
    · intro holds
      obtain ⟨settled, same, rfl⟩ := holds
      cases same
      exact ⟨fun _ _ => known, noted.format⟩
    · intro holds
      obtain ⟨_, rfl⟩ := holds
      exact ⟨fr, rfl, noted.format⟩
  · rw [if_neg (fun one => known (framed.mp one))]
    have plain := not_or.mp known
    rw [Bool.not_eq_true, not_not] at plain
    have parts := parts_iff noted plain.1 plain.2
    rw [formatElse_unframed _ plain.1 plain.2]
    split
    · rename_i bad
      have loud : quiet = false := by simpa using bad.2
      constructor
      · intro holds
        obtain ⟨settled, same, _⟩ := holds
        cases same
      · intro holds
        obtain ⟨promised, _⟩ := holds
        exact absurd (promised loud (parts.mp bad.1)) known
    · rename_i fine
      constructor
      · intro holds
        obtain ⟨settled, same, rfl⟩ := holds
        cases same
        refine ⟨fun loud promised => ?_, rfl⟩
        exact absurd ⟨parts.mpr promised, by simp [loud]⟩ fine
      · intro holds
        obtain ⟨_, rfl⟩ := holds
        exact ⟨_, rfl, rfl⟩

theorem settleResponse_format (noted : Noted fields fr) (status : Nat) :
    (fr.settleResponse status).format = formatOf (.server status) fields := by
  have quiet : Status.bodyless status = forbidsBody (.server status) := by
    unfold Status.bodyless forbidsBody
    simp [Bool.beq_eq_decide_eq, Bool.or_assoc]
  unfold settleResponse formatOf
  rw [quiet]
  split
  · rfl
  · by_cases known : sendsChunks fields = true ∨ declaredBy fields ≠ none
    · have kept := (framed_iff noted).mpr known
      rw [if_pos (or_assoc.mp (.inl kept))]
      exact noted.format.trans (formatElse_framed _ _ known)
    · have plain := not_or.mp known
      rw [Bool.not_eq_true, not_not] at plain
      have unframed := not_or.mp fun one => known ((framed_iff noted).mp one)
      have parts := parts_iff noted plain.1 plain.2
      dsimp only
      rw [formatElse_unframed _ plain.1 plain.2]
      by_cases promised : sendsParts fields = true
      · rw [if_pos (.inr (.inr (parts.mpr promised))), if_pos promised]
        exact parts.mpr promised
      · rw [if_neg promised, if_neg]
        intro either
        rcases either with chunks | given | multipart
        · exact unframed.1 chunks
        · exact unframed.2 given
        · exact promised (parts.mp multipart)

theorem settle_iff (noted : Noted fields fr) (sender : Sender) (format : BodyFormat) :
    (∃ settled, fr.settle sender = .ok settled ∧ settled.format = format) ↔
      Acceptable sender fields ∧ format = formatOf sender fields := by
  have acceptable : Acceptable sender fields ↔ (needsLength sender = true →
      sendsParts fields = true → sendsChunks fields = true ∨ declaredBy fields ≠ none) :=
    ⟨fun whole => whole.promised, fun promised => ⟨noted.consistent, promised⟩⟩
  rw [acceptable]
  cases sender with
  | unknown =>
    have request := settleRequest_iff noted false format
    simpa [settle, formatOf, needsLength, forbidsBody] using request
  | client method =>
    have request := settleRequest_iff noted method.bodyless format
    simpa [settle, formatOf, needsLength, forbidsBody] using request
  | server status =>
    rw [← settleResponse_format noted status]
    simp only [settle, needsLength, Bool.false_eq_true, false_implies, true_and]
    constructor
    · intro holds
      obtain ⟨settled, same, rfl⟩ := holds
      cases same
      rfl
    · intro same
      subst same
      exact ⟨_, rfl, rfl⟩

theorem settle_keeps {next : Framing} (sender : Sender) (settled : fr.settle sender = .ok next) :
    next.declared = fr.declared ∧ (next.format = .chunked → fr.format = .chunked) := by
  have request : ∀ quiet, fr.settleRequest quiet = .ok next →
      next.declared = fr.declared ∧ (next.format = .chunked → fr.format = .chunked) := by
    intro quiet settled
    unfold settleRequest at settled
    split at settled
    · cases settled
      exact ⟨rfl, id⟩
    · split at settled
      · cases settled
      · cases settled
        exact ⟨rfl, nofun⟩
  cases sender with
  | unknown => exact request false settled
  | client method => exact request method.bodyless settled
  | server status =>
    cases settled
    unfold settleResponse
    split
    · exact ⟨rfl, nofun⟩
    · split
      · exact ⟨rfl, id⟩
      · exact ⟨rfl, nofun⟩

end Settling

end HttpWire.Framing
