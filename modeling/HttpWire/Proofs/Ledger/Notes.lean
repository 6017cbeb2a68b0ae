import HttpWire.Message.Basic
import HttpWire.Proofs.ChunkLineForm
import HttpWire.Proofs.FieldMaps
import HttpWire.Proofs.ListValues

-- When a field has changed, what was noted of it is noted anew, and the rest is kept.
namespace HttpWire

structure Notes where
  contentType : Option Text := none
  charset : Option Text := none
  textCharset : Charset := .unknown
  isForm : Bool := false
  declared : Option Nat := none
  isChunked : Bool := false
  deriving DecidableEq

namespace Notes

section Taking

def noteMedia (n : Notes) (media : Text) : Notes :=
  if media = [] then n
  else
    { n with
      isForm := media.named "application/x-www-form-urlencoded"
      contentType := some media }

def noteParameter (n : Notes) (piece : Text) : Notes :=
  match cutAt '=' piece with
  | none => n
  | some (name, value) =>
    if (Text.trim name).named "charset" then
      let label := Text.lower (Text.unquote (Text.trim value))
      { n with textCharset := Charset.ofLabel label, charset := some label }
    else n

def noteType (n : Notes) (headers : FieldMap) : Notes :=
  let blank : Notes := { declared := n.declared, isChunked := n.isChunked }
  match headers.first? "content-type".toList with
  | none => blank
  | some value =>
    match (splitAll ';' value).map Text.trim with
    | [] => blank
    | media :: parameters => parameters.foldl noteParameter (blank.noteMedia media)

def noteLength (n : Notes) (headers : FieldMap) : Notes :=
  { n with
    declared := (headers.first? "content-length".toList).bind fun value =>
      Numeral.signedBelow? Numeral.wordBound (Text.trim value) }

def noteCoding (n : Notes) (headers : FieldMap) : Notes :=
  { n with
    isChunked := (headers.values "transfer-encoding".toList).any fun value =>
      "chunked".toList.isPrefixOf (Text.lower (Text.trim value)) }

def update (n : Notes) (headers : FieldMap) (name : Text) : Notes :=
  if name.named "content-type" then n.noteType headers
  else if name.named "content-length" then n.noteLength headers
  else if name.named "transfer-encoding" then n.noteCoding headers
  else n

end Taking

section Types

def typed (n : Notes) (t : MediaType) : Notes :=
  let label := (t.valuesOf "charset").getLast?.map Text.lower
  { n with
    contentType := if t.essence = [] then none else some t.essence
    charset := label
    textCharset := match label with
      | some label => Charset.ofLabel label
      | none => .unknown
    isForm := t.isForm }

def withLabel (n : Notes) : Option Text → Notes
  | none => n
  | some label => { n with textCharset := Charset.ofLabel label, charset := some label }

def label? (piece : Text) : Option Text :=
  (MediaType.parameter? piece).bind fun row =>
    if row.1.named "charset" then some (Text.lower (Text.unquote row.2)) else none

theorem noteParameter_eq (n : Notes) (piece : Text) :
    n.noteParameter piece = n.withLabel (label? piece) := by
  unfold noteParameter label? MediaType.parameter?
  cases cutAt '=' piece with
  | none => rfl
  | some sides =>
    simp only [Option.map_some, Option.bind_some]
    split <;> rfl

theorem noteParameters_eq (n : Notes) (pieces : List Text) :
    pieces.foldl noteParameter n = n.withLabel (pieces.filterMap label?).getLast? := by
  induction pieces generalizing n with
  | nil => rfl
  | cons piece pieces ih =>
    rw [List.foldl_cons, ih, noteParameter_eq]
    cases here : label? piece with
    | none => simp [here, withLabel]
    | some label =>
      rw [List.filterMap_cons_some here, List.getLast?_cons]
      cases (pieces.filterMap label?).getLast? <;> rfl

theorem parameter?_trim (piece : Text) :
    MediaType.parameter? (Text.trim piece) = MediaType.parameter? piece := by
  have free : ∀ blanks : Text, (∀ c ∈ blanks, Text.isBlank c = true) → '=' ∉ blanks := by
    intro blanks all member
    cases all _ member
  obtain ⟨before, behind, whole, front, back⟩ := trimBoth_parts Text.isBlank piece
  have cut := congrArg (cutAt '=') whole
  rw [cutAt_before _ _ _ (free before front), cutAt_behind _ _ _ (free behind back)] at cut
  unfold MediaType.parameter?
  rw [cut, Option.map_map, Option.map_map]
  apply Option.map_congr
  intro sides _
  simp only [Function.comp_apply, Text.trim, trimBoth_before _ _ before front,
    trimBoth_behind _ _ behind back]

theorem label?_trim (piece : Text) : label? (Text.trim piece) = label? piece := by
  unfold label?
  rw [parameter?_trim]

theorem labels_eq (pieces : List Text) (essence : Text) :
    (MediaType.valuesOf ⟨essence, pieces.filterMap MediaType.parameter?⟩ "charset").map Text.lower
      = pieces.filterMap label? := by
  unfold MediaType.valuesOf
  induction pieces with
  | nil => rfl
  | cons piece pieces ih =>
    rw [List.filterMap_cons, List.filterMap_cons, ← ih]
    cases here : MediaType.parameter? piece with
    | none => simp [here, label?]
    | some row =>
      by_cases charset : row.1.named "charset" = true
      · simp [here, charset, label?]
      · simp [here, charset, label?]

theorem typed_eq (n : Notes) (essence : Text) (pieces : List Text) :
    (noteMedia { declared := n.declared, isChunked := n.isChunked } essence).withLabel
        (pieces.filterMap label?).getLast?
      = n.typed ⟨essence, pieces.filterMap MediaType.parameter?⟩ := by
  unfold typed
  rw [← List.getLast?_map, labels_eq]
  unfold noteMedia MediaType.isForm
  by_cases unnamed : essence = []
  · rw [if_pos unnamed, unnamed]
    cases (pieces.filterMap label?).getLast? <;> rfl
  · simp only [if_neg unnamed]
    cases (pieces.filterMap label?).getLast? <;> rfl

theorem noteType_eq (n : Notes) (m : Message) : n.noteType m.headers = n.typed m.mediaType := by
  unfold noteType Message.mediaType
  cases m.headers.first? "content-type".toList with
  | none => rfl
  | some value =>
    obtain ⟨pieces, parts⟩ := splitAll_cons ';' value
    simp only [Option.getD_some, MediaType.ofValue, parts, List.map_cons, noteParameters_eq,
      List.filterMap_map, Function.comp_def, label?_trim]
    exact typed_eq n _ pieces

end Types

section Codings

theorem beginsWithName_lower (t : Text) (name : String) (lowered : Text.lower name.toList = name.toList) :
    name.toList.isPrefixOf (Text.lower t) = t.beginsWithName name := by
  unfold Text.beginsWithName
  rw [Bool.eq_iff_iff, List.isPrefixOf_iff_prefix, List.prefix_iff_eq_take, Text.sameName_iff, lowered,
    Text.lower, Text.lower, List.map_take]
  exact eq_comm

theorem noteCoding_eq (n : Notes) (m : Message) :
    n.noteCoding m.headers = { n with isChunked := m.isChunked } := by
  have same (value : Text) := beginsWithName_lower (Text.trim value) "chunked" (by decide)
  simp only [noteCoding, Message.isChunked, same]

end Codings

end Notes

section Currency

def Notes.sources : List String := ["content-type", "content-length", "transfer-encoding"]

def FieldMap.Alike (headers other : FieldMap) : Prop :=
  ∀ k ∈ Notes.sources, headers.values k.toList = other.values k.toList

theorem FieldMap.Alike.refl (headers : FieldMap) : headers.Alike headers := fun _ _ => rfl

theorem FieldMap.Alike.change {headers next other : FieldMap} {name : Text} (alike : headers.Alike other)
    (others : FieldMap.SameBut name next headers) (aside : ∀ k ∈ Notes.sources, name.named k = false) :
    next.Alike other :=
  fun k member => (others k.toList (aside k member)).trans (alike k member)

namespace Message

def notes (m : Message) : Notes where
  contentType := m.contentType
  charset := m.charset
  textCharset := m.textCharset
  isForm := m.isForm
  declared := m.declared
  isChunked := m.isChunked

variable {m next : Message} {name : Text}

-- The notes of any message are those of another but for what the three fields say.
theorem notes_from (m next : Message) : next.notes =
    { m.notes.typed next.mediaType with declared := next.declared, isChunked := next.isChunked } := rfl

theorem mediaType_congr (same : next.headers.values "content-type".toList
    = m.headers.values "content-type".toList) : next.mediaType = m.mediaType := by
  unfold mediaType FieldMap.first?
  rw [same]

theorem declared_congr (same : next.headers.values "content-length".toList
    = m.headers.values "content-length".toList) : next.declared = m.declared := by
  unfold declared FieldMap.first?
  rw [same]

theorem isChunked_congr (same : next.headers.values "transfer-encoding".toList
    = m.headers.values "transfer-encoding".toList) : next.isChunked = m.isChunked := by
  unfold isChunked
  rw [same]

-- A changed field is one of the three that are noted, and then the other two are as they were, or
-- it is none of them.
theorem update_notes (others : FieldMap.SameBut name next.headers m.headers) :
    m.notes.update next.headers name = next.notes := by
  have apart {k other : String} (named : name.named k = true)
      (differ : Text.named k.toList other = false) : name.named other = false :=
    (Text.sameName_congr named other.toList).trans differ
  rw [notes_from m next]
  unfold Notes.update
  split
  · rename_i type
    rw [Notes.noteType_eq, declared_congr (others _ (apart type (by decide))),
      isChunked_congr (others _ (apart type (by decide)))]
    rfl
  · rename_i type
    rw [mediaType_congr (others _ (Bool.eq_false_iff.mpr type))]
    split
    · rename_i length
      rw [isChunked_congr (others _ (apart length (by decide)))]
      rfl
    · rename_i length
      rw [declared_congr (others _ (Bool.eq_false_iff.mpr length))]
      split
      · rw [Notes.noteCoding_eq]
        rfl
      · rename_i coding
        rw [isChunked_congr (others _ (Bool.eq_false_iff.mpr coding))]
        rfl

theorem notes_alike (alike : next.headers.Alike m.headers) : next.notes = m.notes := by
  rw [notes_from m next, mediaType_congr (alike "content-type" (by decide)),
    declared_congr (alike "content-length" (by decide)),
    isChunked_congr (alike "transfer-encoding" (by decide))]
  rfl

end Message

end Currency

end HttpWire
