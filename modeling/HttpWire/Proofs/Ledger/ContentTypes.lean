import HttpWire.Proofs.Ledger.Keeping

-- Media type and charset are written into one value and read out of it again.
namespace HttpWire

section Grammar

def Charset.isName (label : Text) : Bool :=
  label != [] && label.all fun c => c.isAlphanum || c == '-' || c == '_'

def MediaType.isTokenChar (c : Char) : Bool :=
  c.isAlphanum || "!#$%&'*+-.^_`|~".toList.contains c

def MediaType.isToken (t : Text) : Bool := t != [] && t.all isTokenChar

def MediaType.IsPlain (media : Text) : Prop :=
  ∃ type subtype, media = type ++ '/' :: subtype ∧ isToken type = true ∧ isToken subtype = true

theorem trim_unblank (t : Text) (space : ' ' ∉ t) (tab : '\t' ∉ t) : Text.trim t = t := by
  refine trim_stable t fun c member => ?_
  rw [Bool.eq_false_iff, ne_eq, Text.isBlank_iff, not_or]
  exact ⟨fun same => space (same ▸ member), fun same => tab (same ▸ member)⟩

theorem alphanum_lower (c : Char) (given : c.isAlphanum = true) : c.toLower.isAlphanum = true := by
  rcases toLower_cases c with same | ⟨upper, moved⟩
  · rwa [same]
  · have low : 97 ≤ c.toLower.toNat := by omega
    have high : c.toLower.toNat ≤ 122 := by omega
    have small : c.toLower.isLower = true := Bool.and_eq_true_iff.mpr
      ⟨decide_eq_true (UInt32.le_iff_toNat_le.mpr low), decide_eq_true (UInt32.le_iff_toNat_le.mpr high)⟩
    show (c.toLower.isUpper || c.toLower.isLower || c.toLower.isDigit) = true
    rw [small, Bool.or_true, Bool.true_or]

namespace Charset

variable {label : Text}

theorem isName_iff : isName label = true ↔
    label ≠ [] ∧ ∀ c ∈ label, c.isAlphanum = true ∨ c = '-' ∨ c = '_' := by
  simp [isName, or_assoc]

section Names

variable (name : isName label = true)
include name

theorem name_lacks {d : Char} (outside : d.isAlphanum = false ∧ d ≠ '-' ∧ d ≠ '_') : d ∉ label := by
  intro member
  rcases (isName_iff.mp name).2 d member with alphanumeric | dash | underscore
  · rw [outside.1] at alphanumeric
    cases alphanumeric
  · exact outside.2.1 dash
  · exact outside.2.2 underscore

theorem name_trim : Text.trim label = label :=
  trim_unblank label (name_lacks name (by decide)) (name_lacks name (by decide))

theorem name_bare : trimBoth (fun c => c == '"' || c == ' ') label = label := by
  refine trimBoth_free _ label fun c member => ?_
  rw [Bool.or_eq_false_iff, beq_eq_false_iff_ne, beq_eq_false_iff_ne]
  exact ⟨fun same => name_lacks name (by decide) (same ▸ member),
    fun same => name_lacks name (by decide) (same ▸ member)⟩

theorem name_unquote : Text.unquote label = label := by
  refine trimBoth_free _ label fun c member => ?_
  rw [beq_eq_false_iff_ne]
  exact fun same => name_lacks name (by decide) (same ▸ member)

theorem name_lower : isName (Text.lower label) = true := by
  obtain ⟨filled, all⟩ := isName_iff.mp name
  refine isName_iff.mpr ⟨by simpa [Text.lower] using filled, fun c member => ?_⟩
  obtain ⟨d, inside, rfl⟩ := List.mem_map.mp member
  rcases all d inside with alphanumeric | rfl | rfl
  · exact .inl (alphanum_lower d alphanumeric)
  · exact .inr (.inl rfl)
  · exact .inr (.inr rfl)

theorem ofLabel_lower : ofLabel (Text.lower label) = ofLabel label := by
  unfold ofLabel
  simp only [name_bare name, name_bare (name_lower name), Text.named_lower]

end Names

end Charset

namespace MediaType

variable {media : Text}

theorem isToken_mem {t : Text} (token : isToken t = true) (c : Char) (member : c ∈ t) :
    isTokenChar c = true := by
  unfold isToken at token
  rw [Bool.and_eq_true, List.all_eq_true] at token
  exact token.2 c member

theorem IsPlain.lacks (plain : IsPlain media) {d : Char} (outside : isTokenChar d = false ∧ d ≠ '/') :
    d ∉ media := by
  obtain ⟨type, subtype, rfl, first, second⟩ := plain
  have free (t : Text) (token : isToken t = true) : d ∉ t := by
    intro member
    have char := isToken_mem token d member
    rw [outside.1] at char
    cases char
  intro member
  rcases List.mem_append.mp member with before | rest
  · exact free type first before
  · rcases List.mem_cons.mp rest with slash | behind
    · exact outside.2 slash
    · exact free subtype second behind

theorem IsPlain.trim (plain : IsPlain media) : Text.trim media = media :=
  trim_unblank media (plain.lacks (by decide)) (plain.lacks (by decide))

theorem IsPlain.filled (plain : IsPlain media) : media ≠ [] := by
  obtain ⟨type, subtype, rfl, _, _⟩ := plain
  simp

end MediaType

end Grammar

section Reading

namespace MediaType

theorem ofValue_bare (value : Text) (free : ';' ∉ value) : ofValue value = ⟨Text.trim value, []⟩ := by
  unfold ofValue
  rw [splitAll_free _ _ free]
  rfl

theorem ofValue_labelled (media : Text) {label : Text} (free : ';' ∉ media)
    (name : Charset.isName label = true) : ofValue (media ++ [';', ' '] ++ ("charset=".toList ++ label))
      = ⟨Text.trim media, [("charset".toList, label)]⟩ := by
  have behind : ';' ∉ " charset".toList ++ '=' :: label := by
    have lacks : ';' ∉ label := Charset.name_lacks name (by decide)
    simp [lacks]
  have whole : media ++ [';', ' '] ++ ("charset=".toList ++ label)
      = media ++ ';' :: (" charset".toList ++ '=' :: label) := by simp
  have cut : cutAt '=' (" charset".toList ++ '=' :: label) = some (" charset".toList, label) :=
    cutAt_first '=' _ _ (by decide)
  unfold ofValue
  rw [whole, splitAll_cut _ _ _ free, splitAll_free _ _ behind]
  simp only [List.filterMap_cons, List.filterMap_nil, parameter?, cut, Option.map_some, Charset.name_trim name]
  rfl

end MediaType

namespace Message

variable {m : Message}

theorem setHeader_type (m : Message) (value : Text) :
    (m.setHeader "Content-Type".toList value).mediaType = MediaType.ofValue value := by
  have other : isCookie "Content-Type".toList = false := by decide
  have same : Text.sameName "Content-Type".toList "content-type".toList = true := by decide
  have alone : (m.headers.put "Content-Type".toList value).values "content-type".toList = [value] := by
    unfold FieldMap.put
    rw [FieldMap.values_upsert, if_pos same, ite_self]
  unfold setHeader mediaType FieldMap.first?
  rw [other, if_neg Bool.false_ne_true, alone]
  rfl

theorem setHeader_notes (m : Message) (value : Text) :
    (m.setHeader "Content-Type".toList value).notes = m.notes.typed (MediaType.ofValue value) := by
  have other : isCookie "Content-Type".toList = false := by decide
  have aside : FieldMap.SameBut "Content-Type".toList
      (m.setHeader "Content-Type".toList value).headers m.headers := by
    unfold setHeader
    rw [other]
    exact m.headers.upsert_elsewhere _ _ value
  rw [notes_from m, setHeader_type, declared_congr (aside "content-length".toList (by decide)),
    isChunked_congr (aside "transfer-encoding".toList (by decide))]
  rfl

theorem essence_bare (m : Message) :
    ';' ∉ m.mediaType.essence ∧ Text.trim m.mediaType.essence = m.mediaType.essence := by
  unfold mediaType
  rw [essence_eq, trim_trim]
  refine ⟨fun inside => ?_, rfl⟩
  have before := List.mem_takeWhile_imp ((trimBoth_inside Text.isBlank _).subset inside)
  simp at before

theorem charset_lower {label : Text} (given : m.charset = some label) : Text.lower label = label := by
  unfold charset at given
  obtain ⟨raw, _, rfl⟩ := Option.map_eq_some_iff.mp given
  exact Text.lower_lower raw

theorem contentType_essence {media : Text} (given : m.contentType = some media) :
    m.mediaType.essence = media ∧ media ≠ [] := by
  unfold contentType at given
  split at given
  · cases given
  · rename_i filled
    cases given
    exact ⟨rfl, filled⟩

end Message

end Reading

section Setting

namespace Message

variable {m : Message} {label : Text}

theorem valuesOf_label (essence : Text) (name : Charset.isName label = true) :
    MediaType.valuesOf ⟨essence, [("charset".toList, label)]⟩ "charset" = [label] := by
  have kept : [("charset".toList, label)].filter (fun row => Text.named row.1 "charset")
      = [("charset".toList, label)] := rfl
  unfold MediaType.valuesOf
  rw [kept, List.map_singleton, Charset.name_unquote name]

theorem typed_labelled (n : Notes) (essence : Text) (name : Charset.isName label = true) :
    n.typed ⟨essence, [("charset".toList, label)]⟩ =
      { n.typed ⟨essence, []⟩ with
        charset := some (Text.lower label)
        textCharset := Charset.ofLabel label } := by
  unfold Notes.typed
  rw [valuesOf_label essence name, List.getLast?_singleton, Option.map_some]
  dsimp only
  rw [Charset.ofLabel_lower name]
  rfl

theorem typed_bare (n : Notes) {essence : Text} (filled : essence ≠ []) :
    n.typed ⟨essence, []⟩ =
      { n with
        contentType := some essence
        charset := none
        textCharset := .unknown
        isForm := essence.named "application/x-www-form-urlencoded" } := by
  unfold Notes.typed
  rw [if_neg filled]
  rfl

theorem essence_untyped (untyped : m.contentType = none) : m.mediaType.essence = [] := by
  unfold contentType at untyped
  split at untyped
  · assumption
  · cases untyped

-- Of a message that has a type, the notes are those of the type alone and of the charset.
theorem notes_bare {media : Text} (given : m.contentType = some media) :
    m.notes.typed ⟨media, []⟩ = { m.notes with charset := none, textCharset := .unknown } := by
  obtain ⟨rfl, filled⟩ := contentType_essence given
  rw [typed_bare _ filled]
  unfold notes
  rw [given]
  rfl

theorem setCharset_notes {media : Text} (given : m.contentType = some media)
    (name : Charset.isName label = true) : (m.setCharset label).notes =
      { m.notes with charset := some (Text.lower label), textCharset := Charset.ofLabel label } := by
  obtain ⟨same, filled⟩ := contentType_essence given
  obtain ⟨free, trimmed⟩ := m.essence_bare
  rw [same] at free trimmed
  have described : m.setCharset label
      = m.setHeader "Content-Type".toList (media ++ [';', ' '] ++ ("charset=".toList ++ label)) := by
    unfold setCharset describe
    rw [given]
  rw [described, setHeader_notes, MediaType.ofValue_labelled _ free name, trimmed,
    typed_labelled _ _ name, notes_bare given]

-- Without a type the charset stands where a type is looked for.
theorem setCharset_untyped (untyped : m.contentType = none) (name : Charset.isName label = true) :
    (m.setCharset label).notes =
      { m.notes with
        contentType := some ("charset=".toList ++ label)
        charset := none
        textCharset := .unknown } := by
  have described : m.setCharset label
      = m.setHeader "Content-Type".toList ("charset=".toList ++ label) := by
    unfold setCharset describe
    rw [untyped]
  have lacks (d : Char) (outside : d.isAlphanum = false ∧ d ≠ '-' ∧ d ≠ '_')
      (other : d ∉ "charset=".toList) : d ∉ "charset=".toList ++ label := by
    intro inside
    exact (List.mem_append.mp inside).elim other (Charset.name_lacks name outside)
  have trimmed : Text.trim ("charset=".toList ++ label) = "charset=".toList ++ label :=
    trim_unblank _ (lacks ' ' (by decide) (by decide)) (lacks '\t' (by decide) (by decide))
  rw [described, setHeader_notes, MediaType.ofValue_bare _ (lacks ';' (by decide) (by decide)), trimmed,
    typed_bare _ (by simp)]
  have before : m.notes.isForm = false := by
    show m.mediaType.isForm = false
    unfold MediaType.isForm
    rw [essence_untyped untyped]
    rfl
  have now : Text.named ("charset=".toList ++ label) "application/x-www-form-urlencoded" = false := rfl
  rw [now, ← before]

theorem setContentType_notes {media : Text} (plain : MediaType.IsPlain media)
    (named : ∀ label, m.charset = some label → Charset.isName label = true) :
    (m.setContentType media).notes =
      { m.notes with
        contentType := some media
        isForm := Text.named media "application/x-www-form-urlencoded" } := by
  have free : ';' ∉ media := plain.lacks (by decide)
  cases given : m.charset with
  | none =>
    have described : m.setContentType media = m.setHeader "Content-Type".toList media := by
      unfold setContentType describe
      rw [given]
    rw [described, setHeader_notes, MediaType.ofValue_bare _ free, plain.trim, typed_bare _ plain.filled]
    unfold notes textCharset
    rw [given]
  | some label =>
    have name := named label given
    have described : m.setContentType media = m.setHeader "Content-Type".toList
        (media ++ [';', ' '] ++ ("charset=".toList ++ label)) := by
      unfold setContentType describe
      rw [given]
    rw [described, setHeader_notes, MediaType.ofValue_labelled _ free name, plain.trim,
      typed_labelled _ _ name, typed_bare _ plain.filled]
    unfold notes textCharset
    rw [given, charset_lower given]

end Message

namespace Ledger

theorem charset_settings {l : Ledger} (begun : Begun l) (edits : List Message.Edit) :
    let now := l.run edits
    (∀ label, Charset.isName label = true → now.notes.contentType ≠ none →
      (now.edit (.setCharset label)).notes =
        { now.notes with
          charset := some (Text.lower label), textCharset := Charset.ofLabel label }) ∧
    (∀ label, Charset.isName label = true → now.notes.contentType = none →
      (now.edit (.setCharset label)).notes =
        { now.notes with
          contentType := some ("charset=".toList ++ label)
          charset := none, textCharset := .unknown }) ∧
    ∀ media, MediaType.IsPlain media →
      (∀ label, now.notes.charset = some label → Charset.isName label = true) →
      (now.edit (.setContentType media)).notes =
        { now.notes with
          contentType := some media
          isForm := Text.named media "application/x-www-form-urlencoded" } := by
  obtain ⟨first, _, rfl⟩ := begun.ledger
  rw [first.ledger_run]
  intro now
  refine ⟨fun label name typed => ?_, fun label name untyped => ?_, fun media plain named => ?_⟩
  · obtain ⟨media, given⟩ := Option.ne_none_iff_exists'.mp typed
    rw [Message.ledger_edit]
    exact Message.setCharset_notes given name
  · rw [Message.ledger_edit]
    exact Message.setCharset_untyped untyped name
  · rw [Message.ledger_edit]
    exact Message.setContentType_notes plain named

theorem charset_settings_of_response :
    let bare := response 200 "OK".toList
    let now := bare.run
      [.setHeader "Content-Type".toList "text/plain; charset=ISO-8859-1; format=flowed".toList]
    Begun bare ∧ now.notes.contentType ≠ none ∧ bare.notes.contentType = none ∧
      Charset.isName "UTF-8".toList = true ∧ MediaType.IsPlain "application/json".toList ∧
      (now.edit (.setCharset "UTF-8".toList)).notes =
        { contentType := some "text/plain".toList, charset := some "utf-8".toList, textCharset := .utf8 } ∧
      (bare.edit (.setCharset "UTF-8".toList)).notes =
        { contentType := some "charset=UTF-8".toList } ∧
      (now.edit (.setContentType "application/json".toList)).notes =
        { contentType := some "application/json".toList, charset := some "iso-8859-1".toList,
          textCharset := .latin1 } := by
  intro bare now
  have begun : Begun bare := .response 200 "OK".toList
  have name : Charset.isName "UTF-8".toList = true := by decide
  have plain : MediaType.IsPlain "application/json".toList :=
    ⟨"application".toList, "json".toList, rfl, by decide, by decide⟩
  have typed : now.notes.contentType ≠ none := by decide
  have named (label : Text) (given : now.notes.charset = some label) : Charset.isName label = true := by
    have held : now.notes.charset = some "iso-8859-1".toList := by decide
    cases held.symm.trans given
    decide
  obtain ⟨set, _, changed⟩ := charset_settings begun
    [.setHeader "Content-Type".toList "text/plain; charset=ISO-8859-1; format=flowed".toList]
  obtain ⟨_, misplaced, _⟩ := charset_settings begun []
  exact ⟨begun, typed, rfl, name, plain, (set _ name typed).trans (by decide),
    (misplaced _ name rfl).trans (by decide), (changed _ plain named).trans (by decide)⟩

theorem charset_taken_for_type :
    let before := response 200 "OK".toList
    let after := before.edit (.setCharset "utf-8".toList)
    Charset.isName "utf-8".toList = true ∧ after.notes.charset = none ∧
      after.notes.textCharset ≠ Charset.ofLabel "utf-8".toList ∧
      after.notes.contentType ≠ before.notes.contentType := by
  decide

end Ledger

end Setting

end HttpWire
