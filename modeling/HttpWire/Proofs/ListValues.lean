import HttpWire.Proofs.FieldMaps
import HttpWire.Proofs.FramingDecision
import HttpWire.Proofs.PlainBoundary
import Mathlib.Data.List.DropRight

namespace HttpWire

section Trimming

variable {α : Type} (p : α → Bool) (xs : List α)

theorem trimBoth_eq : trimBoth p xs = (xs.dropWhile p).rdropWhile p := rfl

theorem dropWhile_first (x : α) (first : (xs.dropWhile p).head? = some x) : p x = false := by
  have real := List.head?_dropWhile_not p xs
  rw [first] at real
  exact real

theorem trimBoth_first (x : α) (first : (trimBoth p xs).head? = some x) : p x = false := by
  obtain ⟨tail, whole⟩ := List.rdropWhile_prefix p (xs.dropWhile p)
  rw [trimBoth_eq] at first
  apply dropWhile_first p xs x
  rw [← whole, List.head?_append, first, Option.some_or]

theorem trimBoth_last (x : α) (last : (trimBoth p xs).getLast? = some x) : p x = false := by
  unfold trimBoth trimEnd at last
  rw [List.getLast?_reverse] at last
  exact dropWhile_first p _ x last

theorem trimBoth_stable (first : ∀ x, xs.head? = some x → p x = false)
    (last : ∀ x, xs.getLast? = some x → p x = false) : trimBoth p xs = xs := by
  have front : xs.dropWhile p = xs := by
    refine List.dropWhile_eq_self_iff.mpr fun filled => ?_
    rw [first _ ((List.head?_eq_getElem? ..).trans (List.getElem?_eq_getElem filled))]
    exact Bool.false_ne_true
  rw [trimBoth_eq, front, List.rdropWhile_eq_self_iff]
  intro filled
  rw [last _ (List.getLast?_eq_some_getLast filled)]
  exact Bool.false_ne_true

theorem trimBoth_free (free : ∀ x ∈ xs, p x = false) : trimBoth p xs = xs :=
  trimBoth_stable _ _ (fun x first => free x (List.mem_of_head? first))
    fun x last => free x (List.mem_of_getLast? last)

theorem trim_stable (t : Text) (plain : ∀ c ∈ t, Text.isBlank c = false) : Text.trim t = t :=
  trimBoth_free _ _ plain

theorem trim_trim (t : Text) : Text.trim (Text.trim t) = Text.trim t :=
  trimBoth_stable _ _ (trimBoth_first _ _) (trimBoth_last _ _)

theorem trimBoth_parts :
    ∃ before behind, xs = before ++ (trimBoth p xs ++ behind) ∧
      (∀ x ∈ before, p x = true) ∧ ∀ x ∈ behind, p x = true := by
  refine ⟨xs.takeWhile p, (xs.dropWhile p).rtakeWhile p, ?_, ?_, ?_⟩
  · rw [trimBoth_eq, List.rdropWhile_append_rtakeWhile, List.takeWhile_append_dropWhile]
  · exact fun x member => List.mem_takeWhile_imp member
  · exact fun x member => List.mem_rtakeWhile_imp member

theorem trimBoth_before (blanks : List α) (all : ∀ x ∈ blanks, p x = true) :
    trimBoth p (blanks ++ xs) = trimBoth p xs := by
  unfold trimBoth
  rw [List.dropWhile_append_of_pos all]

theorem trimBoth_behind (blanks : List α) (all : ∀ x ∈ blanks, p x = true) :
    trimBoth p (xs ++ blanks) = trimBoth p xs := by
  induction xs with
  | nil =>
    unfold trimBoth
    rw [List.nil_append, List.dropWhile_eq_nil_iff.mpr all]
    rfl
  | cons x xs ih =>
    by_cases blank : p x = true
    · unfold trimBoth at ih ⊢
      rwa [List.cons_append, List.dropWhile_cons_of_pos blank, List.dropWhile_cons_of_pos blank]
    · have ends : ∀ y ∈ blanks.reverse, p y = true := fun y member => all y (List.mem_reverse.mp member)
      unfold trimBoth trimEnd
      rw [List.cons_append, List.dropWhile_cons_of_neg blank, List.dropWhile_cons_of_neg blank,
        ← List.cons_append, List.reverse_append, List.dropWhile_append_of_pos ends]

end Trimming

section Splitting

variable {α : Type} [DecidableEq α] (d : α)

theorem splitAll_ne_nil (xs : List α) : splitAll d xs ≠ [] := by
  induction xs with
  | nil => exact List.cons_ne_nil _ _
  | cons x xs ih =>
    unfold splitAll
    split
    · exact List.cons_ne_nil _ _
    · cases pieces : splitAll d xs with
      | nil => exact absurd pieces ih
      | cons piece pieces => exact List.cons_ne_nil _ _

theorem splitAll_free (xs : List α) (free : d ∉ xs) : splitAll d xs = [xs] := by
  induction xs with
  | nil => rfl
  | cons x xs ih =>
    have other : x ≠ d := fun same => free (by simp [same])
    rw [splitAll, if_neg other, ih fun inside => free (List.mem_cons_of_mem x inside)]
    rfl

theorem splitAll_cons (xs : List α) :
    ∃ pieces, splitAll d xs = xs.takeWhile (· ≠ d) :: pieces := by
  induction xs with
  | nil => exact ⟨[], rfl⟩
  | cons x xs ih =>
    obtain ⟨pieces, split⟩ := ih
    unfold splitAll
    by_cases here : x = d
    · rw [if_pos here, List.takeWhile_cons_of_neg (by simpa using here)]
      exact ⟨_, rfl⟩
    · rw [if_neg here, List.takeWhile_cons_of_pos (by simpa using here), split]
      exact ⟨pieces, rfl⟩

end Splitting

section Types

theorem essence_eq (value : Text) :
    (MediaType.ofValue value).essence = Text.trim (value.takeWhile (· ≠ ';')) := by
  obtain ⟨pieces, split⟩ := splitAll_cons ';' value
  unfold MediaType.ofValue
  rw [split]

theorem essence_trim (value : Text) :
    (MediaType.ofValue (Text.trim value)).essence = (MediaType.ofValue value).essence := by
  have part : ∀ blanks : Text, (∀ c ∈ blanks, Text.isBlank c = true) →
      ∀ c ∈ blanks, decide (c ≠ ';') = true := by
    intro blanks all c member
    rw [decide_eq_true_eq]
    intro same
    subst same
    cases all _ member
  obtain ⟨before, behind, whole, front, back⟩ := trimBoth_parts Text.isBlank value
  have core : ∀ inner : Text, Text.trim ((inner ++ behind).takeWhile (· ≠ ';'))
      = Text.trim (inner.takeWhile (· ≠ ';')) := by
    intro inner
    rw [List.takeWhile_append]
    split
    · rename_i all
      have kept := (List.takeWhile_prefix (l := inner) (· ≠ ';')).eq_of_length all
      rw [← List.append_nil behind, List.takeWhile_append_of_pos (part behind back),
        List.takeWhile_nil, List.append_nil, kept]
      exact trimBoth_behind _ _ behind back
    · rfl
  rw [essence_eq, essence_eq]
  conv_rhs => rw [whole]
  rw [List.takeWhile_append_of_pos (part before front)]
  exact (core _).symm.trans (trimBoth_before _ _ before front).symm

end Types

namespace Field

theorem elements_list (f : Field) (list : isWhole f.name = false) :
    f.elements = listElements f.value := by
  unfold elements
  rw [list]
  rfl

theorem isWhole_congr {a b : Text} (same : Text.sameName a b = true) : isWhole a = isWhole b := by
  unfold isWhole Text.named
  simp only [Text.sameName_congr same]

theorem listElements_one (value : Text) (free : ',' ∉ value) :
    listElements value = [Text.trim value] := by
  unfold listElements
  rw [splitAll_free _ _ free]
  by_cases empty : Text.trim value = []
  · simp [empty]
  · simp [empty]

theorem listElements_pieces {value : Text}
    (several : ((splitAll ',' value).map Text.trim).filter (· ≠ []) ≠ []) :
    listElements value = ((splitAll ',' value).map Text.trim).filter (· ≠ []) := by
  unfold listElements
  split
  · rename_i none
    exact absurd none several
  · rfl

theorem listElements_cases (value : Text) : listElements value = [[]] ∨
    listElements value = ((splitAll ',' value).map Text.trim).filter (· ≠ []) := by
  unfold listElements
  split
  · exact .inl rfl
  · exact .inr rfl

-- Elements are pieces of the value, and no piece with something in it is lost.
theorem mem_listElements {value piece : Text} (member : piece ∈ splitAll ',' value)
    (filled : Text.trim piece ≠ []) : Text.trim piece ∈ listElements value := by
  have kept : Text.trim piece ∈ ((splitAll ',' value).map Text.trim).filter (· ≠ []) :=
    List.mem_filter.mpr ⟨List.mem_map_of_mem member, by simpa using filled⟩
  rwa [listElements_pieces (List.ne_nil_of_mem kept)]

end Field

section Lengths

variable {value : Text} {n : Nat}

theorem digit_plain (c : Char) (digit : c.isDigit = true) :
    Text.isBlank c = false ∧ c ≠ ',' ∧ c ≠ '+' := by
  have range : 48 ≤ c.toNat ∧ c.toNat ≤ 57 := by
    simpa [Char.isDigit, UInt32.le_iff_toNat_le] using digit
  have apart : ∀ d : Char, d.toNat < 48 → c ≠ d := by
    rintro d low rfl
    omega
  refine ⟨?_, apart ',' (by decide), apart '+' (by decide)⟩
  rw [Bool.eq_false_iff, ne_eq, Text.isBlank_iff, not_or]
  exact ⟨apart ' ' (by decide), apart '\t' (by decide)⟩

theorem length_digits (read : Framing.length? value = some n) : ∀ c ∈ value, c.isDigit = true :=
  ((Framing.length?_iff value n).mp read).1.digits

theorem length_filled (read : Framing.length? value = some n) : value ≠ [] :=
  ((Framing.length?_iff value n).mp read).1.nonempty

theorem length_trim (read : Framing.length? value = some n) : Text.trim value = value :=
  trim_stable value fun c member => (digit_plain c (length_digits read c member)).1

-- A value that counts as a length is its own only element.
theorem length_elements (read : Framing.length? value = some n) :
    Field.listElements value = [value] := by
  have free : ',' ∉ value := fun inside => (digit_plain _ (length_digits read _ inside)).2.1 rfl
  rw [Field.listElements_one value free, length_trim read]

-- A message reads a length less strictly, and with the same outcome.
theorem length_signed (read : Framing.length? value = some n) :
    Numeral.signedBelow? Numeral.wordBound (Text.trim value) = some n := by
  rw [length_trim read]
  unfold Numeral.signedBelow?
  split
  · rename_i rest
    exact absurd rfl (digit_plain '+' (length_digits read '+' (List.mem_cons_self ..))).2.2
  · exact read

end Lengths

theorem endsChunked_element {value : Text} (ends : Framing.endsChunked value = true) :
    ∃ element ∈ Field.listElements value,
      element ≠ [] ∧ (Text.trim element).beginsWithName "chunked" = true := by
  unfold Framing.endsChunked at ends
  have last := List.getLast?_eq_some_getLast (splitAll_ne_nil ',' value)
  rw [last, Option.getD_some] at ends
  have filled : Text.trim ((splitAll ',' value).getLast (splitAll_ne_nil ',' value)) ≠ [] := by
    intro empty
    rw [empty] at ends
    exact absurd ends (by decide)
  have member := Field.mem_listElements (List.getLast_mem (splitAll_ne_nil ',' value)) filled
  refine ⟨_, member, filled, ?_⟩
  rwa [trim_trim]

section Joining

structure Bare (t : Text) : Prop where
  filled : t ≠ []
  trimmed : Text.trim t = t

theorem Bare.first {t : Text} (bare : Bare t) (c : Char) (first : t.head? = some c) :
    Text.isBlank c = false := by
  rw [← bare.trimmed] at first
  exact trimBoth_first _ _ c first

theorem Bare.last {t : Text} (bare : Bare t) (c : Char) (last : t.getLast? = some c) :
    Text.isBlank c = false := by
  rw [← bare.trimmed] at last
  exact trimBoth_last _ _ c last

theorem commaJoined_cons (x y : Text) (pieces : List Text) :
    Text.commaJoined (x :: y :: pieces) = x ++ ',' :: ' ' :: Text.commaJoined (y :: pieces) := by
  unfold Text.commaJoined
  rw [List.intercalate_cons_cons, List.append_assoc]
  rfl

theorem commaJoined_one (x : Text) : Text.commaJoined [x] = x := List.intercalate_singleton

theorem commaJoined_bare (pieces : List Text) (filled : pieces ≠ [])
    (bare : ∀ piece ∈ pieces, Bare piece) : Bare (Text.commaJoined pieces) := by
  induction pieces with
  | nil => exact absurd rfl filled
  | cons x pieces ih =>
    have first := bare x (List.mem_cons_self ..)
    cases pieces with
    | nil =>
      rw [commaJoined_one]
      exact first
    | cons y pieces =>
      have later := ih (List.cons_ne_nil _ _) fun piece member => bare piece (List.mem_cons_of_mem x member)
      have split : Text.commaJoined (x :: y :: pieces) = (x ++ [',', ' ']) ++ Text.commaJoined (y :: pieces) := by
        rw [commaJoined_cons, List.append_assoc]
        rfl
      refine ⟨?_, trimBoth_stable _ _ (fun c head => ?_) fun c tail => ?_⟩
      · rw [split]
        exact List.append_ne_nil_of_right_ne_nil _ later.filled
      · rw [commaJoined_cons, List.head?_append_of_ne_nil _ first.filled] at head
        exact first.first c head
      · rw [split, List.getLast?_append_of_ne_nil _ later.filled] at tail
        exact later.last c tail

theorem splitAll_append {α : Type} [DecidableEq α] (d : α) (l r : List α) :
    splitAll d (l ++ d :: r) = splitAll d l ++ splitAll d r := by
  induction l with
  | nil => simp [splitAll]
  | cons x l ih =>
    obtain ⟨pieces, split⟩ := splitAll_cons d l
    by_cases here : x = d
    · simp [splitAll, here, ih]
    · simp [splitAll, here, ih, split, growFirst]

theorem splitAll_cut {α : Type} [DecidableEq α] (d : α) (l r : List α) (free : d ∉ l) :
    splitAll d (l ++ d :: r) = l :: splitAll d r := by
  rw [splitAll_append, splitAll_free d l free, List.singleton_append]

-- The blanks behind a comma belong to the next piece, until it is trimmed.
theorem splitAll_joined (pieces : List Text) (filled : pieces ≠ []) (blanks : Text)
    (blank : ∀ c ∈ blanks, Text.isBlank c = true)
    (bare : ∀ piece ∈ pieces, Bare piece ∧ ',' ∉ piece) :
    (splitAll ',' (blanks ++ Text.commaJoined pieces)).map Text.trim = pieces := by
  have comma : ',' ∉ blanks := fun inside => absurd (blank _ inside) (by decide)
  induction pieces generalizing blanks with
  | nil => exact absurd rfl filled
  | cons x pieces ih =>
    obtain ⟨first, free⟩ := bare x (List.mem_cons_self ..)
    have none : ',' ∉ blanks ++ x := by
      intro inside
      rcases List.mem_append.mp inside with before | here
      · exact comma before
      · exact free here
    have trimmed : Text.trim (blanks ++ x) = x := (trimBoth_before _ _ _ blank).trans first.trimmed
    cases pieces with
    | nil => rw [commaJoined_one, splitAll_free _ _ none, List.map_singleton, trimmed]
    | cons y pieces =>
      have later := ih (List.cons_ne_nil _ _) [' '] (List.forall_mem_singleton.mpr rfl)
        (fun piece member => bare piece (List.mem_cons_of_mem x member)) (by decide)
      rw [List.singleton_append] at later
      rw [commaJoined_cons, ← List.append_assoc, splitAll_cut _ _ _ none, List.map_cons, trimmed, later]

theorem listElements_joined (pieces : List Text) (filled : pieces ≠ [])
    (bare : ∀ piece ∈ pieces, Bare piece ∧ ',' ∉ piece) :
    Field.listElements (Text.commaJoined pieces) = pieces := by
  have split := splitAll_joined pieces filled [] nofun bare
  rw [List.nil_append] at split
  have kept : pieces.filter (· ≠ []) = pieces := by
    rw [List.filter_eq_self]
    intro piece member
    exact decide_eq_true (bare piece member).1.filled
  have whole : ((splitAll ',' (Text.commaJoined pieces)).map Text.trim).filter (· ≠ []) = pieces := by
    rw [split, kept]
  rw [Field.listElements_pieces (by rwa [whole]), whole]

theorem splitAll_pieces {α : Type} [DecidableEq α] (d : α) (xs : List α) :
    ∀ piece ∈ splitAll d xs, d ∉ piece := by
  induction xs with
  | nil =>
    intro piece member
    rw [List.mem_singleton.mp member]
    exact List.not_mem_nil
  | cons x xs ih =>
    intro piece member
    unfold splitAll at member
    split at member
    · rcases List.mem_cons.mp member with rfl | later
      · exact List.not_mem_nil
      · exact ih piece later
    · rename_i other
      obtain ⟨pieces, split⟩ := splitAll_cons d xs
      rw [split] at member ih
      rcases List.mem_cons.mp member with rfl | later
      · intro inside
        rcases List.mem_cons.mp inside with same | after
        · exact other same.symm
        · exact ih _ (List.mem_cons_self ..) after
      · exact ih piece (List.mem_cons_of_mem _ later)

theorem listElements_bare {value element : Text} (member : element ∈ Field.listElements value)
    (filled : element ≠ []) : Bare element ∧ ',' ∉ element ∧ element ⊆ value := by
  rcases Field.listElements_cases value with empty | pieces
  · rw [empty] at member
    exact absurd (List.mem_singleton.mp member) filled
  · rw [pieces] at member
    obtain ⟨inside, _⟩ := List.mem_filter.mp member
    obtain ⟨piece, split, rfl⟩ := List.mem_map.mp inside
    have inner := (trimBoth_inside Text.isBlank piece).subset
    refine ⟨⟨filled, trim_trim piece⟩, fun here => splitAll_pieces ',' value piece split (inner here), ?_⟩
    exact fun c here => (splitAll_inside ',' value piece split).subset (inner here)

theorem elements_bare (f : Field) (trimmed : Text.trim f.value = f.value) (element : Text)
    (member : element ∈ f.elements) (filled : element ≠ []) :
    Bare element ∧ element ⊆ f.value ∧ (Field.isWhole f.name = false → ',' ∉ element) := by
  unfold Field.elements at member
  split at member
  · rename_i whole
    rw [List.mem_singleton.mp member] at filled ⊢
    refine ⟨⟨filled, trimmed⟩, List.Subset.refl _, fun list => ?_⟩
    rw [whole] at list
    cases list
  · obtain ⟨bare, free, inside⟩ := listElements_bare member filled
    exact ⟨bare, inside, fun _ => free⟩

end Joining

section Normal

-- Elements hold no comma and no blank at either end, and one is empty only where it is alone.
structure ElementList (elements : List Text) : Prop where
  filled : elements ≠ []
  free : ∀ e ∈ elements, ',' ∉ e
  first : ∀ e ∈ elements, ∀ c ∈ e.head?, Text.isBlank c = false
  last : ∀ e ∈ elements, ∀ c ∈ e.getLast?, Text.isBlank c = false
  alone : [] ∈ elements → elements = [[]]

theorem listElements_alone {value : Text} (empty : [] ∈ Field.listElements value) :
    Field.listElements value = [[]] := by
  rcases Field.listElements_cases value with single | pieces
  · exact single
  · simp [pieces] at empty

theorem ElementList.one : ElementList [[]] := by
  constructor <;> simp

theorem listElements_list (value : Text) : ElementList (Field.listElements value) := by
  by_cases empty : [] ∈ Field.listElements value
  · rw [listElements_alone empty]
    exact .one
  · have bare : ∀ e ∈ Field.listElements value, Bare e ∧ ',' ∉ e := by
      intro e member
      obtain ⟨bare, free, -⟩ := listElements_bare member fun same => empty (same ▸ member)
      exact ⟨bare, free⟩
    exact ⟨Field.listElements_ne_nil value, fun e member => (bare e member).2,
      fun e member => (bare e member).1.first, fun e member => (bare e member).1.last,
      fun inside => absurd inside empty⟩

theorem ElementList.rejoined {elements : List Text} (list : ElementList elements) :
    Field.listElements (Text.commaJoined elements) = elements := by
  by_cases empty : [] ∈ elements
  · rw [list.alone empty]
    rfl
  · apply listElements_joined elements list.filled
    intro e member
    exact ⟨⟨fun same => empty (same ▸ member), trimBoth_stable _ _ (list.first e member) (list.last e member)⟩,
      list.free e member⟩

theorem rejoined_iff (elements : List Text) :
    Field.listElements (Text.commaJoined elements) = elements ↔ ElementList elements := by
  constructor
  · intro same
    rw [← same]
    exact listElements_list _
  · exact ElementList.rejoined

theorem list_values_survive (value : Text) (elements : List Text) (m : FieldMap) (name : Text) :
    ElementList (Field.listElements value) ∧
      Field.listElements (Text.commaJoined (Field.listElements value)) = Field.listElements value ∧
      (Field.listElements (Text.commaJoined elements) = elements ↔ ElementList elements) ∧
      ((m.joined? name).map Field.listElements = some (m.values name) ↔
        m.contains name = true ∧ ElementList (m.values name)) := by
  refine ⟨listElements_list value, (listElements_list value).rejoined, rejoined_iff elements, ?_⟩
  unfold FieldMap.joined?
  by_cases there : m.contains name = true
  · simp [there, rejoined_iff]
  · simp [there]

end Normal

end HttpWire
