import HttpWire.Field
import Mathlib.Data.List.Induction

-- What the operations on collected fields do to the values of every name.
namespace HttpWire

namespace Text

variable {a b : Text}

theorem sameName_iff : sameName a b = true ↔ lower a = lower b := by
  unfold sameName
  exact beq_iff_eq

theorem sameName_congr (same : sameName a b = true) (c : Text) : sameName a c = sameName b c := by
  unfold sameName
  rw [sameName_iff.mp same]

theorem sameName_congr_right (same : sameName a b = true) (c : Text) :
    sameName c a = sameName c b := by
  rw [sameName_symm c a, sameName_symm c b]
  exact sameName_congr same c

end Text

namespace FieldMap

section Lookup

variable {name other : Text} (change : List Text → List Text) (entries : List (Text × List Text))

theorem isFor_congr (same : Text.sameName name other = true) : isFor name = isFor other :=
  funext fun entry => Text.sameName_congr_right same entry.1

theorem isFor_same {entry : Text × List Text} (first : isFor name entry = true)
    (second : isFor other entry = true) : Text.sameName name other = true := by
  unfold isFor at first second
  rw [Text.sameName_symm] at first
  rwa [Text.sameName_congr first]

theorem find?_changeIn (name k : Text) :
    (changeIn name change entries).find? (isFor k)
      = (entries.find? (isFor k)).map fun entry =>
          if isFor name entry then (entry.1, change entry.2) else entry := by
  induction entries with
  | nil => rfl
  | cons entry entries ih =>
    unfold changeIn
    by_cases here : isFor k entry = true
    · rw [List.find?_cons_of_pos here]
      split
      · rename_i changed
        rw [List.find?_cons_of_pos (by exact here), Option.map_some, if_pos changed]
      · rename_i kept
        rw [List.find?_cons_of_pos here, Option.map_some, if_neg kept]
    · rw [List.find?_cons_of_neg here]
      split
      · rename_i changed
        rw [List.find?_cons_of_neg (by exact here)]
        -- The entry was the one to change, so no later entry for `k` has that name.
        cases found : entries.find? (isFor k) with
        | none => rfl
        | some later =>
          rw [Option.map_some, if_neg]
          intro again
          have same := isFor_same again (List.find?_some found)
          exact here (isFor_congr same ▸ changed)
      · rw [List.find?_cons_of_neg here]
        exact ih

end Lookup

variable (m : FieldMap) (name value k : Text)

theorem values_congr {name other : Text} (same : Text.sameName name other = true) :
    m.values name = m.values other := by
  unfold values
  rw [isFor_congr same]

theorem contains_congr {name other : Text} (same : Text.sameName name other = true) :
    m.contains name = m.contains other := by
  unfold contains
  rw [isFor_congr same]

theorem find?_absent (absent : m.contains name = false) : m.entries.find? (isFor name) = none := by
  unfold contains at absent
  rw [List.any_eq_false] at absent
  exact List.find?_eq_none.mpr absent

theorem find?_present (present : m.contains name = true) :
    ∃ entry, m.entries.find? (isFor name) = some entry := by
  obtain ⟨entry, member, named⟩ := List.any_eq_true.mp present
  rw [← Option.isSome_iff_exists, List.find?_isSome]
  exact ⟨entry, member, named⟩

theorem values_found {entry : Text × List Text} (found : m.entries.find? (isFor name) = some entry) :
    m.values name = entry.2 := by
  unfold values
  rw [found]

theorem values_member {m : FieldMap} {name value : Text} (member : value ∈ m.values name) :
    ∃ entry ∈ m.entries, value ∈ entry.2 := by
  unfold values at member
  split at member
  · rename_i entry found
    exact ⟨entry, List.mem_of_find?_eq_some found, member⟩
  · cases member

theorem values_absent (absent : m.contains name = false) : m.values name = [] := by
  unfold values
  rw [m.find?_absent name absent]

theorem values_changeIn_same (change : List Text → List Text) (present : m.contains name = true) :
    (⟨changeIn name change m.entries⟩ : FieldMap).values name = change (m.values name) := by
  obtain ⟨entry, found⟩ := m.find?_present name present
  unfold values
  rw [find?_changeIn, found, Option.map_some, if_pos (List.find?_some found)]

theorem values_changeIn_other (change : List Text → List Text)
    (differ : ¬ Text.sameName name k = true) :
    (⟨changeIn name change m.entries⟩ : FieldMap).values k = m.values k := by
  unfold values
  rw [find?_changeIn]
  cases found : m.entries.find? (isFor k) with
  | none => rfl
  | some entry =>
    rw [Option.map_some, if_neg]
    intro changed
    exact differ (isFor_same changed (List.find?_some found))

theorem values_upsert (change : List Text → List Text) (fresh : Text) :
    (m.upsert name change fresh).values k
      = if Text.sameName name k then
          if m.contains name then change (m.values name) else [fresh]
        else m.values k := by
  unfold upsert
  by_cases same : Text.sameName name k = true
  · rw [if_pos same]
    split
    · rename_i present
      rw [← values_congr _ same, values_changeIn_same m name change present]
    · rename_i absent
      rw [Bool.not_eq_true, m.contains_congr same] at absent
      unfold values
      rw [List.find?_append, m.find?_absent k absent, Option.none_or,
        List.find?_cons_of_pos (by exact same)]
  · rw [if_neg same]
    split
    · exact values_changeIn_other m name k change same
    · unfold values
      rw [List.find?_append, List.find?_cons_of_neg (by exact same), List.find?_nil, Option.or_none]

theorem values_insert :
    (m.insert name value).values k
      = m.values k ++ if Text.sameName name k then [value] else [] := by
  unfold insert
  rw [values_upsert]
  split
  · rename_i same
    rw [← m.values_congr same]
    split
    · rfl
    · rename_i absent
      rw [m.values_absent name (by simpa using absent), List.nil_append]
  · rw [List.append_nil]

section Building

inductive Built : FieldMap → Prop
  | empty : Built .empty
  | insert {m : FieldMap} (name value : Text) : Built m → Built (m.insert name value)
  | insertNew {m : FieldMap} (name value : Text) : Built m → Built (m.insertNew name value)
  | put {m : FieldMap} (name value : Text) : Built m → Built (m.put name value)
  | erase {m : FieldMap} (name : Text) : Built m → Built (m.erase name)
  | eraseValue {m : FieldMap} (name : Text) (position : Nat) :
    Built m → Built (m.eraseValue name position)
  | union {m other : FieldMap} : Built m → Built other → Built (m.union other)
  | ofFields (fields : List Field) : Built (.ofFields fields)

-- No two entries have the same name, and none is without values.
structure WellFormed (m : FieldMap) : Prop where
  distinct : (m.entries.map Prod.fst).Pairwise fun a b => Text.sameName a b = false
  filled : ∀ entry ∈ m.entries, entry.2 ≠ []

variable {m : FieldMap} {name : Text}

theorem changeIn_names (change : List Text → List Text) (entries : List (Text × List Text)) :
    (changeIn name change entries).map Prod.fst = entries.map Prod.fst := by
  induction entries with
  | nil => rfl
  | cons entry entries ih =>
    unfold changeIn
    split
    · rfl
    · rw [List.map_cons, List.map_cons, ih]

theorem mem_changeIn (change : List Text → List Text) (entries : List (Text × List Text))
    (entry : Text × List Text) (member : entry ∈ changeIn name change entries) :
    entry ∈ entries ∨ ∃ old, entries.find? (isFor name) = some old ∧ entry = (old.1, change old.2) := by
  induction entries with
  | nil => cases member
  | cons first entries ih =>
    unfold changeIn at member
    split at member
    · rename_i here
      rcases List.mem_cons.mp member with rfl | later
      · exact .inr ⟨first, List.find?_cons_of_pos here, rfl⟩
      · exact .inl (List.mem_cons_of_mem first later)
    · rename_i other
      rcases List.mem_cons.mp member with rfl | later
      · exact .inl (List.mem_cons_self ..)
      · rcases ih later with kept | changed
        · exact .inl (List.mem_cons_of_mem first kept)
        · rw [List.find?_cons_of_neg other]
          exact .inr changed

theorem WellFormed.changeIn (formed : m.WellFormed) (change : List Text → List Text)
    (filled : ∀ old, m.entries.find? (isFor name) = some old → change old.2 ≠ []) :
    WellFormed ⟨FieldMap.changeIn name change m.entries⟩ := by
  refine ⟨?_, fun entry member => ?_⟩
  · rw [changeIn_names]
    exact formed.distinct
  · rcases mem_changeIn change m.entries entry member with kept | ⟨old, found, changed⟩
    · exact formed.filled entry kept
    · rw [changed]
      exact filled old found

theorem WellFormed.upsert (formed : m.WellFormed) (change : List Text → List Text) (fresh : Text)
    (filled : ∀ values, change values ≠ []) : (m.upsert name change fresh).WellFormed := by
  unfold FieldMap.upsert
  split
  · exact formed.changeIn change fun old _ => filled old.2
  · rename_i absent
    rw [Bool.not_eq_true, contains, List.any_eq_false] at absent
    refine ⟨?_, fun entry member => ?_⟩
    · rw [List.map_append, List.pairwise_append]
      refine ⟨formed.distinct, List.pairwise_singleton _ _, fun old before new after => ?_⟩
      obtain ⟨entry, member, rfl⟩ := List.mem_map.mp before
      rw [List.mem_singleton.mp after]
      exact Bool.eq_false_iff.mpr (absent entry member)
    · rcases List.mem_append.mp member with old | new
      · exact formed.filled entry old
      · rw [List.mem_singleton.mp new]
        exact List.cons_ne_nil _ _

theorem WellFormed.insert (formed : m.WellFormed) (value : Text) : (m.insert name value).WellFormed :=
  formed.upsert _ _ fun _ => List.append_ne_nil_of_right_ne_nil _ (List.cons_ne_nil _ _)

theorem WellFormed.insertNew (formed : m.WellFormed) (value : Text) :
    (m.insertNew name value).WellFormed := by
  unfold FieldMap.insertNew
  split
  · exact formed
  · exact formed.insert value

theorem WellFormed.erase (formed : m.WellFormed) : (m.erase name).WellFormed :=
  ⟨formed.distinct.sublist (List.eraseP_sublist.map _),
    fun entry member => formed.filled entry (List.mem_of_mem_eraseP member)⟩

theorem WellFormed.eraseValue (formed : m.WellFormed) (position : Nat) :
    (m.eraseValue name position).WellFormed := by
  unfold FieldMap.eraseValue
  split
  · exact formed.erase
  · rename_i left
    apply formed.changeIn
    intro old found
    rw [m.values_found name found] at left
    exact left

theorem WellFormed.union (formed : m.WellFormed) (other : FieldMap) : (m.union other).WellFormed :=
  List.foldlRecOn other.fields _ formed fun _ before f _ => before.insertNew f.value

theorem Built.wellFormed (built : m.Built) : m.WellFormed := by
  have fresh : FieldMap.empty.WellFormed := ⟨.nil, nofun⟩
  induction built with
  | empty => exact fresh
  | insert name value _ ih => exact ih.insert value
  | insertNew name value _ ih => exact ih.insertNew value
  | put name value _ ih => exact ih.upsert _ _ fun _ => List.cons_ne_nil _ _
  | erase name _ ih => exact ih.erase
  | eraseValue name position _ ih => exact ih.eraseValue position
  | @union m other _ _ ih _ => exact ih.union other
  | ofFields fields =>
    exact List.foldlRecOn fields _ fresh fun _ before f _ => before.insert f.value

end Building

section Elsewhere

variable {m : FieldMap} {name : Text} (k : Text)

def SameBut (name : Text) (m other : FieldMap) : Prop :=
  ∀ k, Text.sameName name k = false → m.values k = other.values k

theorem upsert_elsewhere (m : FieldMap) (name : Text) (change : List Text → List Text) (fresh : Text) :
    SameBut name (m.upsert name change fresh) m := by
  intro k other
  simp [values_upsert, other]

theorem insertNew_elsewhere (m : FieldMap) (name value : Text) :
    SameBut name (m.insertNew name value) m := by
  unfold insertNew
  split
  · exact fun _ _ => rfl
  · exact m.upsert_elsewhere name _ value

theorem find?_eraseP (entries : List (Text × List Text)) (other : Text.sameName name k = false) :
    (entries.eraseP (isFor name)).find? (isFor k) = entries.find? (isFor k) := by
  induction entries with
  | nil => rfl
  | cons entry entries ih =>
    by_cases here : isFor name entry = true
    · have differ : isFor k entry = false := by
        rw [isFor, Text.sameName_congr here, other]
      simp [List.eraseP_cons_of_pos, here, differ]
    · by_cases found : isFor k entry = true
      · simp [List.eraseP_cons_of_neg, here, found]
      · simp [List.eraseP_cons_of_neg, here, found, ih]

theorem erase_elsewhere (m : FieldMap) (name : Text) : SameBut name (m.erase name) m := by
  intro k other
  unfold values erase
  rw [find?_eraseP k m.entries other]

theorem contains_names (m : FieldMap) :
    m.contains k = (m.entries.map Prod.fst).any (Text.sameName · k) := by
  unfold contains
  rw [List.any_map]
  rfl

theorem upsert_absent (change : List Text → List Text) (fresh : Text)
    (other : Text.sameName name k = false) (absent : m.contains k = false) :
    (m.upsert name change fresh).contains k = false := by
  unfold upsert
  split
  · rwa [contains_names, changeIn_names, ← contains_names]
  · rw [contains_names] at absent ⊢
    simp [absent, other]

theorem insertNew_absent (value : Text) (other : Text.sameName name k = false)
    (absent : m.contains k = false) : (m.insertNew name value).contains k = false := by
  unfold insertNew
  split
  · exact absent
  · exact upsert_absent k _ value other absent

theorem erase_absent (name : Text) (absent : m.contains k = false) :
    (m.erase name).contains k = false := by
  unfold contains erase at *
  rw [List.any_eq_false] at absent ⊢
  exact fun entry member => absent entry (List.mem_of_mem_eraseP member)

end Elsewhere

section Entries

variable {m : FieldMap} {name : Text} (k : Text)

theorem contains_find? (m : FieldMap) : m.contains k = (m.entries.find? (isFor k)).isSome := by
  rw [Bool.eq_iff_iff, contains, List.any_eq_true, List.find?_isSome]

theorem joined?_find? (m : FieldMap) :
    m.joined? k = (m.entries.find? (isFor k)).map fun entry => Text.commaJoined entry.2 := by
  unfold joined? values
  rw [contains_find?]
  cases m.entries.find? (isFor k) <;> rfl

theorem WellFormed.absent (formed : m.WellFormed) (none : m.values k = []) : m.contains k = false := by
  rw [contains_find?]
  unfold values at none
  cases found : m.entries.find? (isFor k) with
  | none => rfl
  | some entry =>
    rw [found] at none
    exact absurd none (formed.filled entry (List.mem_of_find?_eq_some found))

theorem WellFormed.found (formed : m.WellFormed) (entry : Text × List Text) (member : entry ∈ m.entries)
    (here : isFor k entry = true) : m.entries.find? (isFor k) = some entry := by
  have distinct := formed.distinct
  generalize m.entries = entries at member distinct
  induction entries with
  | nil => cases member
  | cons first entries ih =>
    rw [List.map_cons, List.pairwise_cons] at distinct
    rcases List.mem_cons.mp member with rfl | later
    · exact List.find?_cons_of_pos here
    · have differ := distinct.1 entry.1 (List.mem_map_of_mem later)
      rw [List.find?_cons_of_neg]
      · exact ih later distinct.2
      · intro also
        rw [Text.sameName_congr_right here, show Text.sameName first.1 k = true from also] at differ
        cases differ

theorem WellFormed.one (formed : m.WellFormed) {entry : Text × List Text}
    (found : m.entries.find? (isFor k) = some entry) (few : (m.values k).length ≤ 1) :
    ∃ value, entry.2 = [value] := by
  have filled := formed.filled entry (List.mem_of_find?_eq_some found)
  rw [m.values_found k found] at few
  exact List.length_eq_one_iff.mp (Nat.le_antisymm few (List.length_pos_iff.mpr filled))

theorem mem_insert {value : Text} {entry : Text × List Text}
    (member : entry ∈ (m.insert name value).entries) :
    entry ∈ m.entries ∨ entry = (name, [value]) ∨
      ∃ old ∈ m.entries, isFor name old = true ∧ entry = (old.1, old.2 ++ [value]) := by
  unfold insert upsert at member
  split at member
  · rcases mem_changeIn _ m.entries entry member with kept | ⟨old, found, same⟩
    · exact .inl kept
    · exact .inr (.inr ⟨old, List.mem_of_find?_eq_some found, List.find?_some found, same⟩)
  · rcases List.mem_append.mp member with kept | new
    · exact .inl kept
    · exact .inr (.inl (List.mem_singleton.mp new))

theorem changeIn_last (change : List Text → List Text) (entries : List (Text × List Text))
    (values : List Text) (absent : entries.any (isFor name) = false) :
    changeIn name change (entries ++ [(name, values)]) = entries ++ [(name, change values)] := by
  induction entries with
  | nil =>
    rw [List.nil_append, changeIn, if_pos (by exact Text.sameName_refl name)]
    rfl
  | cons first entries ih =>
    rw [List.any_cons, Bool.or_eq_false_iff] at absent
    rw [List.cons_append, changeIn, absent.1, if_neg Bool.false_ne_true, ih absent.2]
    rfl

theorem insert_all (absent : m.contains name = false) (values : List Text) (filled : values ≠ []) :
    values.foldl (fun m value => m.insert name value) m = ⟨m.entries ++ [(name, values)]⟩ := by
  induction values using List.reverseRecOn with
  | nil => exact absurd rfl filled
  | append_singleton values value ih =>
    rw [List.foldl_append, List.foldl_cons, List.foldl_nil]
    cases values with
    | nil =>
      rw [List.foldl_nil, insert, upsert, absent, if_neg Bool.false_ne_true]
      rfl
    | cons first values =>
      have present : FieldMap.contains ⟨m.entries ++ [(name, first :: values)]⟩ name = true := by
        unfold contains
        rw [List.any_append, List.any_cons, isFor, Text.sameName_refl, Bool.true_or, Bool.or_true]
      rw [ih (List.cons_ne_nil _ _), insert, upsert, present, if_pos rfl, changeIn_last _ _ _ absent]

-- The fields of a map, inserted one after another, make the map again.
theorem insert_fields (front entries : List (Text × List Text))
    (formed : WellFormed ⟨front ++ entries⟩) :
    (fields ⟨entries⟩).foldl (fun m f => m.insert f.name f.value) (⟨front⟩ : FieldMap)
      = ⟨front ++ entries⟩ := by
  induction entries generalizing front with
  | nil => simp [fields]
  | cons entry entries ih =>
    have filled := formed.filled entry (by simp)
    have absent : FieldMap.contains ⟨front⟩ entry.1 = false := by
      have distinct := formed.distinct
      rw [List.map_append, List.pairwise_append] at distinct
      rw [contains_names, List.any_eq_false]
      intro name before
      simp [distinct.2.2 name before entry.1 (by simp)]
    have first := insert_all absent entry.2 filled
    have rest := ih (front ++ [entry]) (by simpa using formed)
    simp only [fields, List.flatMap_cons, List.foldl_append, List.foldl_map] at rest ⊢
    rw [first, rest]
    simp

theorem WellFormed.ofFields (formed : m.WellFormed) : FieldMap.ofFields m.fields = m :=
  insert_fields [] m.entries formed

end Entries

end FieldMap
end HttpWire
