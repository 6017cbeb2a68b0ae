import HttpWire.Target
import HttpWire.Proofs.FieldMaps
import HttpWire.Proofs.ListValues
import HttpWire.Proofs.PercentCoding

-- The coded texts have neither delimiter in them, so each cut gives back what was joined there.
namespace HttpWire

theorem splitAll_intercalate {α : Type} [DecidableEq α] (d : α) (pieces : List (List α))
    (filled : pieces ≠ []) (free : ∀ piece ∈ pieces, d ∉ piece) :
    splitAll d (List.intercalate [d] pieces) = pieces := by
  induction pieces with
  | nil => exact absurd rfl filled
  | cons first pieces ih =>
    have bare := free first (List.mem_cons_self ..)
    cases pieces with
    | nil =>
      rw [List.intercalate_singleton]
      exact splitAll_free d first bare
    | cons second pieces =>
      have later := ih (List.cons_ne_nil _ _) fun piece member => free piece (List.mem_cons_of_mem _ member)
      rw [List.intercalate_cons_cons, List.append_assoc, List.singleton_append, splitAll_cut d _ _ bare, later]

theorem Clear.intercalate {marks : List Char} {between : Text} (mark : Clear marks between)
    (pieces : List Text) (all : ∀ piece ∈ pieces, Clear marks piece) :
    Clear marks (List.intercalate between pieces) := by
  induction pieces with
  | nil => exact nofun
  | cons first pieces ih =>
    have here := all first (List.mem_cons_self ..)
    cases pieces with
    | nil => rwa [List.intercalate_singleton]
    | cons second pieces =>
      rw [List.intercalate_cons_cons]
      exact (here.append mark).append (ih fun piece member => all piece (List.mem_cons_of_mem _ member))

namespace FieldMap

def valued (m : FieldMap) : FieldMap :=
  ⟨(m.entries.map fun entry => (entry.1, entry.2.filter (· ≠ []))).filter (·.2 ≠ [])⟩

section Valued

variable {m : FieldMap}

theorem valued_fields (m : FieldMap) : m.valued.fields = m.fields.filter (·.value ≠ []) := by
  unfold valued fields
  induction m.entries with
  | nil => rfl
  | cons entry entries ih =>
    have first : (entry.2.map (Field.mk entry.1)).filter (·.value ≠ [])
        = (entry.2.filter (· ≠ [])).map (Field.mk entry.1) := List.filter_map
    rw [List.map_cons, List.flatMap_cons, List.filter_append, first, ← ih]
    by_cases silent : entry.2.filter (· ≠ []) = []
    · rw [List.filter_cons_of_neg (by simpa using silent), silent]
      rfl
    · rw [List.filter_cons_of_pos (by simpa using silent), List.flatMap_cons]

theorem WellFormed.valued (formed : m.WellFormed) : m.valued.WellFormed := by
  constructor
  · have names : (m.valued.entries.map Prod.fst).Sublist (m.entries.map Prod.fst) := by
      have kept : m.valued.entries.Sublist
          (m.entries.map fun entry => (entry.1, entry.2.filter (· ≠ []))) := List.filter_sublist
      simpa [List.map_map, Function.comp_def] using kept.map Prod.fst
    exact formed.distinct.sublist names
  · intro entry member
    simpa using (List.mem_filter.mp member).2

end Valued

end FieldMap

namespace Query

def joined (spaceAsPlus : Bool) (fields : List Field) : Text :=
  List.intercalate ['&'] (fields.map (pairText spaceAsPlus))

section Parameters

variable {spaceAsPlus : Bool} {fields : List Field}

theorem cutPair_pairText (f : Field) : cutPair (pairText spaceAsPlus f)
    = (Percent.encode spaceAsPlus f.name, Percent.encode spaceAsPlus f.value) := by
  have free : '=' ∉ Percent.encode spaceAsPlus f.name := (Percent.encode_clear f.name).free (by decide)
  unfold cutPair pairText
  rw [cutAt_first _ _ _ free]
  rfl

theorem pairText_clear (f : Field) : Clear ['&', '#'] (pairText spaceAsPlus f) := by
  have coded : ∀ t, Clear ['&', '#'] (Percent.encode spaceAsPlus t) := fun t =>
    (Percent.encode_clear t).mono (by decide)
  have sign : Clear ['&', '#'] ['='] := by decide
  exact (coded f.name).append (sign.append (coded f.value))

theorem joined_clear (fields : List Field) : Clear ['#'] (joined spaceAsPlus fields) := by
  apply Clear.intercalate (by decide)
  intro piece member
  obtain ⟨f, _, rfl⟩ := List.mem_map.mp member
  exact (pairText_clear f).mono (by decide)

-- The parameters are inserted one by one, whatever has been read before them.
theorem foldl_joined (m : FieldMap) (named : ∀ f ∈ fields, f.name ≠ []) (filled : fields ≠ []) :
    (((splitAll '&' (joined spaceAsPlus fields)).map cutPair).filter (·.1 ≠ [])).foldl
        (fun m pair => m.insert (Percent.decode true pair.1) (Percent.decode true pair.2)) m
      = fields.foldl (fun m f => m.insert f.name f.value) m := by
  have split : splitAll '&' (joined spaceAsPlus fields) = fields.map (pairText spaceAsPlus) := by
    apply splitAll_intercalate
    · simpa using filled
    · intro piece member
      obtain ⟨f, _, rfl⟩ := List.mem_map.mp member
      exact (pairText_clear f).free (by decide)
  have kept : ∀ pair ∈ fields.map (cutPair ∘ pairText spaceAsPlus), decide (pair.1 ≠ []) = true := by
    intro pair member
    obtain ⟨f, inside, rfl⟩ := List.mem_map.mp member
    rw [Function.comp, cutPair_pairText]
    exact decide_eq_true (Percent.encode_filled (named f inside))
  rw [split, List.map_map, List.filter_eq_self.mpr kept, List.foldl_map]
  simp only [Function.comp, cutPair_pairText, Percent.decode_encode fun _ => rfl]

theorem parse_joined (named : ∀ f ∈ fields, f.name ≠ []) (filled : fields ≠ []) :
    parse (joined spaceAsPlus fields) = FieldMap.ofFields fields :=
  foldl_joined .empty named filled

theorem parse_behind (given : Text) (named : ∀ f ∈ fields, f.name ≠ []) (filled : fields ≠ []) :
    parse (given ++ '&' :: joined spaceAsPlus fields)
      = fields.foldl (fun m f => m.insert f.name f.value) (parse given) := by
  unfold parse
  rw [splitAll_append, List.map_append, List.filter_append, List.foldl_append]
  exact foldl_joined _ named filled

end Parameters

section Adding

variable {uri : Text} {params : FieldMap} {spaceAsPlus : Bool}

theorem addTo_silent (silent : params.valued.fields = []) : addTo uri params spaceAsPlus = uri := by
  unfold addTo
  rw [← FieldMap.valued_fields, silent]
  rfl

theorem addTo_filled (filled : params.valued.fields ≠ []) : addTo uri params spaceAsPlus
    = uri ++ (if uri.contains '?' then '&' else '?') :: joined spaceAsPlus params.valued.fields := by
  obtain ⟨f, fields, whole⟩ := List.exists_cons_of_ne_nil filled
  unfold addTo joined
  rw [← FieldMap.valued_fields, whole]
  rfl

theorem valued_named (named : ∀ entry ∈ params.entries, entry.1 ≠ []) :
    ∀ f ∈ params.valued.fields, f.name ≠ [] := by
  intro f member
  rw [FieldMap.valued_fields] at member
  obtain ⟨entry, inside, of⟩ := List.mem_flatMap.mp (List.mem_filter.mp member).1
  obtain ⟨value, _, rfl⟩ := List.mem_map.mp of
  exact named entry inside

theorem parse_valued (built : params.Built) (named : ∀ entry ∈ params.entries, entry.1 ≠ [])
    (filled : params.valued.fields ≠ []) :
    parse (joined spaceAsPlus params.valued.fields) = params.valued := by
  rw [parse_joined (valued_named named) filled, built.wellFormed.valued.ofFields]

end Adding

theorem query_round_trip (uri : Text) (params : FieldMap) (spaceAsPlus : Bool) (built : params.Built)
    (named : ∀ entry ∈ params.entries, entry.1 ≠ []) (free : '?' ∉ uri) :
    ((∀ f ∈ params.fields, f.value = []) → addTo uri params spaceAsPlus = uri) ∧
      ((∃ f ∈ params.fields, f.value ≠ []) → ∃ query,
        addTo uri params spaceAsPlus = uri ++ '?' :: query ∧ Clear ['#'] query ∧
          parse query = params.valued) := by
  constructor
  · intro silent
    apply addTo_silent
    rw [FieldMap.valued_fields, List.filter_eq_nil_iff]
    intro f member
    simpa using silent f member
  · rintro ⟨f, member, real⟩
    have filled : params.valued.fields ≠ [] := by
      apply List.ne_nil_of_mem (a := f)
      rw [FieldMap.valued_fields]
      exact List.mem_filter.mpr ⟨member, decide_eq_true real⟩
    refine ⟨joined spaceAsPlus params.valued.fields, ?_, joined_clear _, parse_valued built named filled⟩
    have absent : ¬ uri.contains '?' = true := by simpa using free
    rw [addTo_filled filled, if_neg absent]

theorem query_round_trip_folded :
    ∃ query, addTo "/a#b".toList (.ofFields
        [⟨"q".toList, "a b&c=d".toList⟩, ⟨"Q".toList, []⟩, ⟨"none".toList, []⟩,
          ⟨"ключ?".toList, "100%".toList⟩, ⟨"Q".toList, "1+1=2#%41é".toList⟩]) true
          = "/a#b?".toList ++ query ∧ Clear ['#'] query ∧
      parse query = ⟨[("q".toList, ["a b&c=d".toList, "1+1=2#%41é".toList]),
        ("ключ?".toList, ["100%".toList])]⟩ := by
  obtain ⟨query, added, clear, same⟩ := (query_round_trip "/a#b".toList _ true (.ofFields
    [⟨"q".toList, "a b&c=d".toList⟩, ⟨"Q".toList, []⟩, ⟨"none".toList, []⟩,
      ⟨"ключ?".toList, "100%".toList⟩, ⟨"Q".toList, "1+1=2#%41é".toList⟩])
    (by decide) (by decide)).2 (by decide)
  exact ⟨query, added, clear, same.trans (by decide)⟩

end Query
end HttpWire
