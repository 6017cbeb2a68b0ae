import HttpWire.Proofs.FieldMaps
import Mathlib.Tactic.TFAE

-- The entry of a name keeps its place and its spelling for as long as it has values, a new one comes
-- last, and all other entries are as they were.
namespace HttpWire.FieldMap

section Operations

inductive Change where
  | insert (value : Text)
  | insertNew (value : Text)
  | put (value : Text)
  | erase
  | eraseValue (position : Nat)

def change (m : FieldMap) (name : Text) : Change → FieldMap
  | .insert value => m.insert name value
  | .insertNew value => m.insertNew name value
  | .put value => m.put name value
  | .erase => m.erase name
  | .eraseValue position => m.eraseValue name position

def Change.onValues (c : Change) (values : List Text) : List Text :=
  match c with
  | .insert value => values ++ [value]
  | .insertNew value => if values.any (Text.sameName value) then values else values ++ [value]
  | .put value => [value]
  | .erase => []
  | .eraseValue position => values.eraseIdx position

inductive Edit where
  | change (name : Text) (c : Change)
  | union (other : FieldMap)
  | clear

def edit (m : FieldMap) : Edit → FieldMap
  | .change name c => m.change name c
  | .union other => m.union other
  | .clear => .empty

end Operations

section Forms

variable {m : FieldMap}

theorem change_wellFormed (formed : m.WellFormed) (name : Text) (c : Change) :
    (m.change name c).WellFormed := by
  cases c with
  | insert value => exact formed.insert value
  | insertNew value => exact formed.insertNew value
  | put value => exact formed.upsert _ value fun _ => List.cons_ne_nil _ _
  | erase => exact formed.erase
  | eraseValue position => exact formed.eraseValue position

theorem edit_wellFormed (formed : m.WellFormed) (e : Edit) : (m.edit e).WellFormed := by
  cases e with
  | change name c => exact change_wellFormed formed name c
  | union other => exact formed.union other
  | clear => exact Built.empty.wellFormed

theorem edits_wellFormed (formed : m.WellFormed) (edits : List Edit) :
    (edits.foldl edit m).WellFormed :=
  List.foldlRecOn edits edit formed fun _ before e _ => edit_wellFormed before e

theorem WellFormed.present (formed : m.WellFormed) (k : Text) :
    [m.contains k = true, (m.first? k).isSome = true, (m.joined? k).isSome = true,
      m.values k ≠ []].TFAE := by
  tfae_have 1 → 4 := by
    intro present none
    rw [formed.absent k none] at present
    cases present
  tfae_have 4 → 2 := by
    intro filled
    unfold first?
    exact List.isSome_head?.mpr filled
  tfae_have 2 → 1 := by
    intro first
    rw [← Bool.not_eq_false]
    intro absent
    unfold first? at first
    rw [m.values_absent k absent] at first
    cases first
  tfae_have 1 ↔ 3 := by
    unfold joined?
    cases m.contains k <;> simp
  tfae_finish

end Forms

section Places

variable {name : Text} {f : List Text → List Text}
  {front back : List (Text × List Text)} {entry : Text × List Text}

structure Sole (name : Text) (front : List (Text × List Text)) (entry : Text × List Text)
    (back : List (Text × List Text)) : Prop where
  here : isFor name entry = true
  before : ∀ other ∈ front, isFor name other = false
  behind : ∀ other ∈ back, isFor name other = false

theorem WellFormed.sole {entries : List (Text × List Text)} (formed : WellFormed ⟨entries⟩)
    (present : FieldMap.contains ⟨entries⟩ name = true) :
    ∃ front entry back, entries = front ++ entry :: back ∧ Sole name front entry back := by
  obtain ⟨entry, found⟩ := find?_present _ name present
  obtain ⟨here, front, back, rfl, before⟩ := List.find?_eq_some_iff_append.mp found
  refine ⟨front, entry, back, rfl, here, fun other member => by simpa using before other member,
    fun other member => ?_⟩
  have distinct := formed.distinct
  rw [List.map_append, List.map_cons, List.pairwise_append, List.pairwise_cons] at distinct
  have apart := distinct.2.1.1 other.1 (List.mem_map_of_mem member)
  rwa [Text.sameName_congr here, Text.sameName_symm] at apart

theorem Sole.found (sole : Sole name front entry back) :
    (front ++ entry :: back).find? (isFor name) = some entry := by
  rw [List.find?_append, List.find?_eq_none.mpr fun other member => by simp [sole.before other member],
    Option.none_or, List.find?_cons_of_pos sole.here]

theorem Sole.values (sole : Sole name front entry back) :
    FieldMap.values ⟨front ++ entry :: back⟩ name = entry.2 :=
  values_found _ name sole.found

theorem Sole.contains (sole : Sole name front entry back) :
    FieldMap.contains ⟨front ++ entry :: back⟩ name = true := by
  rw [contains_find?, sole.found]
  rfl

theorem Sole.renew (sole : Sole name front entry back) (values : List Text) :
    Sole name front (entry.1, values) back :=
  ⟨sole.here, sole.before, sole.behind⟩

theorem Sole.free (sole : Sole name front entry back) :
    ∀ other ∈ front ++ back, isFor name other = false := by
  intro other member
  rcases List.mem_append.mp member with before | behind
  · exact sole.before other before
  · exact sole.behind other behind

theorem others_free {entries : List (Text × List Text)}
    (free : ∀ other ∈ entries, isFor name other = false) :
    entries.filter (fun e => !isFor name e) = entries :=
  List.filter_eq_self.mpr fun other member => by simp [free other member]

theorem Sole.others (sole : Sole name front entry back) :
    (front ++ entry :: back).filter (fun e => !isFor name e) = front ++ back := by
  rw [List.filter_append, List.filter_cons_of_neg (by simp [sole.here]), others_free sole.before,
    others_free sole.behind]

theorem Sole.place (sole : Sole name front entry back) {position : Nat} {found : Text × List Text}
    (placed : (front ++ entry :: back)[position]? = some found) (named : isFor name found = true) :
    position = front.length ∧ found = entry := by
  rcases Nat.lt_trichotomy position front.length with before | rfl | behind
  · rw [List.getElem?_append_left before] at placed
    have other := sole.before found (List.mem_of_getElem? placed)
    rw [named] at other
    cases other
  · simpa using placed.symm
  · obtain ⟨gap, rfl⟩ := Nat.exists_eq_add_of_lt behind
    rw [List.getElem?_append_right (by omega), show front.length + gap + 1 - front.length = gap + 1 by omega,
      List.getElem?_cons_succ] at placed
    have other := sole.behind found (List.mem_of_getElem? placed)
    rw [named] at other
    cases other

theorem changeIn_behind (free : ∀ other ∈ front, isFor name other = false)
    (entries : List (Text × List Text)) :
    changeIn name f (front ++ entries) = front ++ changeIn name f entries := by
  induction front with
  | nil => rfl
  | cons first front ih =>
    have other := free first (List.mem_cons_self ..)
    rw [List.cons_append, changeIn, other, if_neg Bool.false_ne_true,
      ih fun e member => free e (List.mem_cons_of_mem first member), List.cons_append]

theorem Sole.changeIn (sole : Sole name front entry back) :
    FieldMap.changeIn name f (front ++ entry :: back) = front ++ (entry.1, f entry.2) :: back := by
  rw [changeIn_behind sole.before, FieldMap.changeIn, if_pos sole.here]

theorem Sole.erase (sole : Sole name front entry back) :
    FieldMap.erase ⟨front ++ entry :: back⟩ name = ⟨front ++ back⟩ := by
  unfold FieldMap.erase
  rw [List.eraseP_append_right _ fun other member => by simp [sole.before other member],
    List.eraseP_cons_of_pos sole.here]

theorem erase_free {m : FieldMap} (absent : m.contains name = false) : m.erase name = m := by
  unfold contains at absent
  unfold erase
  rw [List.any_eq_false] at absent
  rw [List.eraseP_of_forall_not absent]

end Places

section Changes

variable {m next : FieldMap} {name : Text} {f : List Text → List Text}

-- The name of an entry is not changed, and an entry does not outlive its values.
inductive Rewrites (name : Text) (f : List Text → List Text) : FieldMap → FieldMap → Prop
  | kept {front back : List (Text × List Text)} {entry : Text × List Text}
    (sole : Sole name front entry back) (filled : f entry.2 ≠ []) :
    Rewrites name f ⟨front ++ entry :: back⟩ ⟨front ++ (entry.1, f entry.2) :: back⟩
  | gone {front back : List (Text × List Text)} {entry : Text × List Text}
    (sole : Sole name front entry back) (empty : f entry.2 = []) :
    Rewrites name f ⟨front ++ entry :: back⟩ ⟨front ++ back⟩
  | fresh {m : FieldMap} (absent : m.contains name = false) (filled : f [] ≠ []) :
    Rewrites name f m ⟨m.entries ++ [(name, f [])]⟩
  | idle {m : FieldMap} (absent : m.contains name = false) (empty : f [] = []) : Rewrites name f m m

theorem Rewrites.congr {g : List Text → List Text} (rewrites : Rewrites name f m next)
    (same : g (m.values name) = f (m.values name)) : Rewrites name g m next := by
  cases rewrites with
  | kept sole filled =>
    rw [sole.values] at same
    rw [← same] at filled ⊢
    exact .kept sole filled
  | gone sole empty =>
    rw [sole.values] at same
    exact .gone sole (same.trans empty)
  | fresh absent filled =>
    rw [m.values_absent name absent] at same
    rw [← same] at filled ⊢
    exact .fresh absent filled
  | idle absent empty =>
    rw [m.values_absent name absent] at same
    exact .idle absent (same.trans empty)

theorem id_rewrites (formed : m.WellFormed) : Rewrites name id m m := by
  by_cases present : m.contains name = true
  · obtain ⟨front, entry, back, whole, sole⟩ := formed.sole present
    have filled := formed.filled entry (by simp [whole])
    rw [show m = ⟨front ++ entry :: back⟩ from congrArg FieldMap.mk whole]
    exact .kept sole filled
  · exact .idle (Bool.eq_false_iff.mpr present) rfl

theorem upsert_rewrites (formed : m.WellFormed) (filled : ∀ values, f values ≠ []) (fresh : Text)
    (first : f [] = [fresh]) : Rewrites name f m (m.upsert name f fresh) := by
  unfold upsert
  split
  · rename_i present
    obtain ⟨front, entry, back, whole, sole⟩ := formed.sole present
    rw [show m = ⟨front ++ entry :: back⟩ from congrArg FieldMap.mk whole, sole.changeIn]
    exact .kept sole (filled entry.2)
  · rename_i absent
    rw [← first]
    exact .fresh (Bool.eq_false_iff.mpr absent) (filled [])

theorem insertNew_rewrites (formed : m.WellFormed) (value : Text) :
    Rewrites name (Change.insertNew value).onValues m (m.insertNew name value) := by
  unfold insertNew
  split
  · rename_i known
    exact (id_rewrites formed).congr (if_pos known)
  · rename_i new
    have inserted : Rewrites name (· ++ [value]) m (m.insert name value) :=
      upsert_rewrites formed (fun _ => by simp) value rfl
    exact inserted.congr (if_neg new)

theorem erase_rewrites (formed : m.WellFormed) : Rewrites name (fun _ => []) m (m.erase name) := by
  by_cases present : m.contains name = true
  · obtain ⟨front, entry, back, whole, sole⟩ := formed.sole present
    rw [show m = ⟨front ++ entry :: back⟩ from congrArg FieldMap.mk whole, sole.erase]
    exact .gone sole rfl
  · rw [erase_free (Bool.eq_false_iff.mpr present)]
    exact .idle (Bool.eq_false_iff.mpr present) rfl

theorem eraseValue_rewrites (formed : m.WellFormed) (position : Nat) :
    Rewrites name (List.eraseIdx · position) m (m.eraseValue name position) := by
  unfold eraseValue
  split
  · rename_i empty
    exact (erase_rewrites formed).congr empty
  · rename_i filled
    have present : m.contains name = true := by
      rw [← Bool.not_eq_false]
      intro absent
      rw [m.values_absent name absent] at filled
      exact filled rfl
    obtain ⟨front, entry, back, whole, sole⟩ := formed.sole present
    rw [show m = ⟨front ++ entry :: back⟩ from congrArg FieldMap.mk whole] at filled ⊢
    rw [sole.values] at filled
    rw [sole.changeIn]
    exact .kept sole filled

theorem change_rewrites (formed : m.WellFormed) (c : Change) :
    Rewrites name c.onValues m (m.change name c) := by
  cases c with
  | insert value => exact upsert_rewrites formed (fun _ => by simp [Change.onValues]) value rfl
  | insertNew value => exact insertNew_rewrites formed value
  | put value => exact upsert_rewrites formed (fun _ => List.cons_ne_nil _ _) value rfl
  | erase => exact erase_rewrites formed
  | eraseValue position => exact eraseValue_rewrites formed position

structure Changed (name : Text) (f : List Text → List Text) (m next : FieldMap) : Prop where
  others : next.entries.filter (fun e => !isFor name e) = m.entries.filter (fun e => !isFor name e)
  elsewhere : ∀ k, Text.sameName name k = false → next.values k = m.values k
  values : next.values name = f (m.values name)
  stays : ∀ (position : Nat) (entry : Text × List Text), m.entries[position]? = some entry →
    isFor name entry = true → f entry.2 ≠ [] → next.entries[position]? = some (entry.1, f entry.2)
  goes : f (m.values name) = [] → next.contains name = false
  comes : m.contains name = false → f [] ≠ [] → next.entries = m.entries ++ [(name, f [])]

theorem find?_others (entries : List (Text × List Text)) {k : Text}
    (other : Text.sameName name k = false) :
    (entries.filter fun e => !isFor name e).find? (isFor k) = entries.find? (isFor k) := by
  rw [List.find?_filter]
  congr 1
  funext e
  cases named : isFor k e with
  | false => simp
  | true =>
    have apart : isFor name e = false := by
      rw [← Bool.not_eq_true]
      intro also
      rw [isFor_same also named] at other
      cases other
    simp [apart]

theorem others_alone (others : next.entries.filter (fun e => !isFor name e)
    = m.entries.filter (fun e => !isFor name e)) (k : Text) (other : Text.sameName name k = false) :
    next.values k = m.values k := by
  unfold FieldMap.values
  rw [← find?_others next.entries other, others, find?_others m.entries other]

theorem Rewrites.others (rewrites : Rewrites name f m next) :
    next.entries.filter (fun e => !isFor name e) = m.entries.filter (fun e => !isFor name e) := by
  cases rewrites with
  | kept sole filled =>
    rw [sole.others]
    exact (sole.renew _).others
  | gone sole empty =>
    rw [sole.others]
    exact others_free sole.free
  | fresh absent filled =>
    rw [List.filter_append, List.filter_cons_of_neg (by simp [isFor, Text.sameName_refl]),
      List.filter_nil, List.append_nil]
  | idle absent empty => rfl

theorem Rewrites.values (rewrites : Rewrites name f m next) :
    next.values name = f (m.values name) := by
  cases rewrites with
  | kept sole filled =>
    rw [sole.values]
    exact (sole.renew _).values
  | gone sole empty =>
    rw [sole.values, empty]
    exact values_absent _ name (List.any_eq_false.mpr fun e member => by simp [sole.free e member])
  | fresh absent filled =>
    have alone : Sole name m.entries (name, f []) [] :=
      ⟨Text.sameName_refl name, fun e member => by simpa using List.any_eq_false.mp absent e member, nofun⟩
    rw [m.values_absent name absent]
    exact alone.values
  | idle absent empty => rw [m.values_absent name absent, empty]

theorem Rewrites.stays (rewrites : Rewrites name f m next) (position : Nat) (entry : Text × List Text)
    (placed : m.entries[position]? = some entry) (named : isFor name entry = true)
    (filled : f entry.2 ≠ []) : next.entries[position]? = some (entry.1, f entry.2) := by
  cases rewrites with
  | kept sole _ =>
    obtain ⟨rfl, rfl⟩ := sole.place placed named
    simp
  | gone sole empty =>
    obtain ⟨rfl, rfl⟩ := sole.place placed named
    exact absurd empty filled
  | fresh absent _ | idle absent _ =>
    have other := List.any_eq_false.mp absent entry (List.mem_of_getElem? placed)
    exact absurd named other

theorem Rewrites.goes (rewrites : Rewrites name f m next) (empty : f (m.values name) = []) :
    next.contains name = false := by
  cases rewrites with
  | kept sole filled =>
    rw [sole.values] at empty
    exact absurd empty filled
  | gone sole _ => exact List.any_eq_false.mpr fun e member => by simp [sole.free e member]
  | fresh absent filled =>
    rw [m.values_absent name absent] at empty
    exact absurd empty filled
  | idle absent _ => exact absent

theorem Rewrites.comes (rewrites : Rewrites name f m next) (absent : m.contains name = false)
    (filled : f [] ≠ []) : next.entries = m.entries ++ [(name, f [])] := by
  cases rewrites with
  | kept sole _ | gone sole _ =>
    rw [sole.contains] at absent
    cases absent
  | fresh => rfl
  | idle _ empty => exact absurd empty filled

theorem change_changed (formed : m.WellFormed) (name : Text) (c : Change) :
    Changed name c.onValues m (m.change name c) := by
  have rewrites : Rewrites name c.onValues m (m.change name c) := change_rewrites formed c
  exact ⟨rewrites.others, others_alone rewrites.others, rewrites.values, rewrites.stays,
    rewrites.goes, rewrites.comes⟩

end Changes

section Laws

structure Multimap (m : FieldMap) : Prop where
  formed : m.WellFormed
  present : ∀ k, [m.contains k = true, (m.first? k).isSome = true, (m.joined? k).isSome = true,
    m.values k ≠ []].TFAE
  changed : ∀ name c, Changed name (Change.onValues c) m (m.change name c)
  again : ofFields m.fields = m

theorem edited_multimap (fields : List Field) (edits : List Edit) :
    (edits.foldl edit (ofFields fields)).Multimap := by
  have formed := edits_wellFormed (Built.ofFields fields).wellFormed edits
  exact ⟨formed, formed.present, change_changed formed, formed.ofFields⟩

end Laws

end HttpWire.FieldMap
