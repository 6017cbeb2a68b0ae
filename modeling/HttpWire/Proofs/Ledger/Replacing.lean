import HttpWire.Proofs.Ledger.Keeping
import HttpWire.Proofs.Unions

-- The new headers are taken one by one, as in a union, so that of values that are alike under one
-- name only the first is taken.
namespace HttpWire

namespace FieldMap

def listed (m : FieldMap) : FieldMap := ⟨m.entries.filter fun e => !Message.isCookie e.1⟩

section Listing

variable {m : FieldMap}

theorem WellFormed.listed (formed : m.WellFormed) : m.listed.WellFormed := by
  have part : m.listed.entries.Sublist m.entries := List.filter_sublist
  exact ⟨formed.distinct.sublist (part.map _), fun e member => formed.filled e (part.subset member)⟩

theorem listed_fields (m : FieldMap) :
    m.listed.fields = m.fields.filter fun f => !Message.isCookie f.name := by
  obtain ⟨entries⟩ := m
  unfold listed fields
  induction entries with
  | nil => rfl
  | cons entry entries ih =>
    rw [List.flatMap_cons, List.filter_append, ← ih]
    cases cookie : Message.isCookie entry.1 with
    | true =>
      have none : (entry.2.map (Field.mk entry.1)).filter (fun f => !Message.isCookie f.name) = [] := by
        simp [cookie]
      rw [none, List.filter_cons_of_neg (by simp [cookie]), List.nil_append]
    | false =>
      have all : (entry.2.map (Field.mk entry.1)).filter (fun f => !Message.isCookie f.name)
          = entry.2.map (Field.mk entry.1) := by
        simp [cookie]
      rw [all, List.filter_cons_of_pos (by simp [cookie]), List.flatMap_cons]

theorem WellFormed.cookies (formed : m.WellFormed) :
    (m.fields.filter fun f => Message.isCookie f.name).map Field.value
      = m.values "set-cookie".toList :=
  formed.fields_values _

theorem empty_union (formed : m.WellFormed) :
    (FieldMap.empty.union m).entries = m.entries.map fun e => (e.1, newcomers [] e.2) := by
  rw [union_entries Built.empty.wellFormed formed]
  have all : (m.entries.filter fun e => !FieldMap.empty.contains e.1) = m.entries :=
    List.filter_eq_self.mpr fun _ _ => rfl
  rw [all]
  rfl

end Listing

end FieldMap

section Copies

theorem newcomers_apart (known values : List Text) (new : ∀ value ∈ values, knows known value = false)
    (apart : values.Pairwise fun a b => Text.sameName a b = false) : newcomers known values = values := by
  induction values generalizing known with
  | nil => rfl
  | cons value values ih =>
    obtain ⟨first, later⟩ := List.pairwise_cons.mp apart
    have next : ∀ other ∈ values, knows (known ++ [value]) other = false := by
      intro other member
      rw [knows_append, new other (List.mem_cons_of_mem value member), knows_one, Text.sameName_symm,
        first other member]
      rfl
    rw [newcomers_new (new value (List.mem_cons_self ..)), ih _ next later]

theorem eraseDups_nodup {values : List Text} (apart : values.Nodup) : values.eraseDups = values := by
  induction values with
  | nil => rfl
  | cons value values ih =>
    obtain ⟨first, later⟩ := List.nodup_cons.mp apart
    have others : values.filter (fun other => !other == value) = values := by
      rw [List.filter_eq_self]
      intro other member
      have differ : other ≠ value := fun same => first (same ▸ member)
      simpa using differ
    rw [List.eraseDups_cons, others, ih later]

end Copies

namespace Message

section Merging

variable (m : Message)

def takeCookie (cookies : List Text) (value : Text) : List Text :=
  if cookies.contains value then cookies else cookies ++ [value]

theorem takeCookies (cookies values : List Text) :
    values.foldl takeCookie cookies = cookies ++ (values.removeAll cookies).eraseDups := by
  induction values generalizing cookies with
  | nil => exact (List.append_nil cookies).symm
  | cons value values ih =>
    rw [List.foldl_cons, ih, takeCookie]
    cases there : cookies.contains value with
    | true => rw [if_pos rfl, List.cons_removeAll, there, if_neg (by decide)]
    | false =>
      have later : values.removeAll (cookies ++ [value])
          = (values.removeAll cookies).filter fun other => !other == value := by
        unfold List.removeAll
        rw [List.filter_filter]
        refine List.filter_congr fun other _ => ?_
        rw [Bool.eq_iff_iff]
        simp [and_comm]
      rw [if_neg Bool.false_ne_true, later, List.append_assoc, List.singleton_append,
        List.cons_removeAll, there, if_pos rfl, List.eraseDups_cons]

theorem mergeHeader_eq (f : Field) : m.mergeHeader f =
    if isCookie f.name then { m with cookies := takeCookie m.cookies f.value }
    else { m with headers := m.headers.insertNew f.name f.value } := by
  unfold mergeHeader takeCookie
  split
  · split <;> rfl
  · rfl

theorem mergeFields (fields : List Field) (m : Message) : fields.foldl mergeHeader m =
    { m with
      headers := (fields.filter fun f => !isCookie f.name).foldl
        (fun headers f => headers.insertNew f.name f.value) m.headers
      cookies := ((fields.filter fun f => isCookie f.name).map Field.value).foldl takeCookie m.cookies } := by
  induction fields generalizing m with
  | nil => rfl
  | cons f fields ih =>
    rw [List.foldl_cons, ih, mergeHeader_eq]
    cases cookie : isCookie f.name <;> simp [cookie]

theorem replaceHeaders_eq (m : Message) {headers : FieldMap} (formed : headers.WellFormed) :
    m.replaceHeaders headers =
      { m with
        headers := FieldMap.empty.union headers.listed
        cookies := (headers.values "set-cookie".toList).eraseDups } := by
  have bare (values : List Text) : values.removeAll [] = values := by simp [List.removeAll]
  unfold replaceHeaders mergeHeaders FieldMap.union
  rw [mergeFields, headers.listed_fields, formed.cookies, takeCookies]
  unfold withoutHeaders
  rw [List.nil_append, bare]

end Merging

end Message

section Replacing

namespace Ledger

def withTarget (l other : Ledger) : Ledger :=
  { l with path := other.path, query := other.query, arguments := other.arguments }

theorem mergeHeader_withTarget (l other : Ledger) (f : Field) :
    (l.withTarget other).mergeHeader f = (l.mergeHeader f).withTarget other := by
  unfold Ledger.mergeHeader
  split
  · exact (apply_ite (withTarget · other) _ l (l.addCookie f.value)).symm
  · rfl

theorem setHeaders_eq (l : Ledger) (headers : FieldMap) :
    l.setHeaders headers false = (l.message.replaceHeaders headers).ledger.withTarget l := by
  have merged : headers.fields.foldl Ledger.mergeHeader (l.message.withoutHeaders.ledger.withTarget l)
      = (headers.fields.foldl Ledger.mergeHeader l.message.withoutHeaders.ledger).withTarget l :=
    List.foldl_hom (withTarget · l) (mergeHeader_withTarget · l)
  have kept : headers.fields.foldl Ledger.mergeHeader l.message.withoutHeaders.ledger
      = (l.message.replaceHeaders headers).ledger :=
    List.foldl_hom Message.ledger Message.ledger_mergeHeader
  rw [kept] at merged
  exact merged

structure Replaced (headers : FieldMap) (l next : Ledger) : Prop where
  entries : next.message.headers.entries = headers.listed.entries.map fun e => (e.1, newcomers [] e.2)
  cookies : next.message.cookies = (headers.values "set-cookie".toList).eraseDups
  copied : (∀ e ∈ headers.listed.entries, e.2.Pairwise fun a b => Text.sameName a b = false) →
    next.message.headers = headers.listed
  cookiesCopied : (headers.values "set-cookie".toList).Nodup →
    next.message.cookies = headers.values "set-cookie".toList
  notes : next.notes = Message.notes { headers := next.message.headers }
  others : next =
    { l with
      message :=
        { l.message with headers := next.message.headers, cookies := next.message.cookies }
      notes := next.notes }

theorem setHeaders_replaces (l : Ledger) {headers : FieldMap} (built : headers.Built) :
    Replaced headers l (l.setHeaders headers false) := by
  have formed := built.wellFormed
  have replaced := l.message.replaceHeaders_eq formed
  rw [setHeaders_eq, replaced]
  have entries := FieldMap.empty_union formed.listed
  refine ⟨entries, rfl, fun apart => congrArg FieldMap.mk (entries.trans ?_), eraseDups_nodup, ?_, rfl⟩
  · refine (List.map_congr_left fun e member => ?_).trans (List.map_id _)
    rw [newcomers_apart [] e.2 (fun _ _ => rfl) (apart e member)]
    rfl
  · exact Message.notes_alike (.refl _)

theorem replaced_in_response :
    let old : Ledger := (response 200 "OK".toList).run
      [ .setHeader "Content-Type".toList "text/plain; charset=latin1".toList,
        .setHeader "Content-Length".toList "3".toList,
        .addCookie "a=1".toList ]
    let headers : FieldMap := .ofFields
      [ ⟨"Accept".toList, "text/html".toList⟩, ⟨"Set-Cookie".toList, "b=2".toList⟩,
        ⟨"accept".toList, "*/*".toList⟩ ]
    let next := old.setHeaders headers false
    headers.Built ∧ Replaced headers old next ∧
      next.message.headers = ⟨[("Accept".toList, ["text/html".toList, "*/*".toList])]⟩ ∧
      next.message.cookies = ["b=2".toList] ∧ next.notes = {} := by
  intro old headers next
  exact ⟨.ofFields _, setHeaders_replaces old (.ofFields _), by decide, by decide, by decide⟩

-- Of two values that differ in letter case alone, as tags of entities may, the second is not taken.
theorem replaced_value_lost :
    let headers : FieldMap := .ofFields
      [⟨"If-Match".toList, "\"v1\"".toList⟩, ⟨"If-Match".toList, "\"V1\"".toList⟩]
    headers.Built ∧ (setHeaders {} headers false).message.headers ≠ headers.listed :=
  ⟨.ofFields _, by decide⟩

end Ledger

end Replacing

end HttpWire
