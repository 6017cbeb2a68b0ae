import HttpWire.Proofs.ListValues
import HttpWire.Proofs.StartLines

-- The parts and the delimiters between them are the rest of a buffer, and how many parts there are
-- settles where each of them ends.
namespace HttpWire

section Parts

variable {α : Type} [DecidableEq α] {d : α} {limit : Nat} {xs part first second : List α}
  {parts : List (List α)}

-- Only a last part at the limit may have the delimiter in it; zero sets no limit.
structure Divided (d : α) (limit : Nat) (xs : List α) (parts : List (List α)) : Prop where
  joined : List.intercalate [d] parts = xs
  counted : parts.length = if limit = 0 then xs.count d + 1 else min (xs.count d + 1) limit
  front : ∀ part ∈ parts.dropLast, d ∉ part
  last : limit = 0 ∨ parts.length < limit → ∀ part ∈ parts.getLast?, d ∉ part

theorem Divided.ne_nil (divided : Divided d limit xs parts) : parts ≠ [] := by
  intro none
  have counted := divided.counted
  simp only [none, List.length_nil] at counted
  split at counted <;> omega

theorem divided_one : Divided d limit xs [part] ↔ part = xs ∧ (limit = 1 ∨ d ∉ xs) := by
  constructor
  · rintro ⟨rfl, counted, -, -⟩
    rw [List.intercalate_singleton] at counted ⊢
    refine ⟨rfl, ?_⟩
    rw [← List.count_eq_zero]
    simp only [List.length_singleton] at counted
    split at counted <;> omega
  · rintro ⟨rfl, whole⟩
    refine ⟨List.intercalate_singleton, ?_, nofun, ?_⟩
    · rw [← List.count_eq_zero] at whole
      simp only [List.length_singleton]
      split <;> omega
    · intro room last same
      cases same
      rcases whole with rfl | free
      · simp at room
      · exact free

theorem divided_cons : Divided d limit xs (first :: second :: parts) ↔
    limit ≠ 1 ∧ d ∉ first ∧ ∃ r, xs = first ++ d :: r ∧ Divided d (limit - 1) r (second :: parts) := by
  -- One delimiter and one part less on both sides of the count.
  have counted : ∀ r : List α, d ∉ first →
      ((first :: second :: parts).length
          = (if limit = 0 then (first ++ d :: r).count d + 1
            else min ((first ++ d :: r).count d + 1) limit) ↔
        limit ≠ 1 ∧ (second :: parts).length
          = if limit - 1 = 0 then r.count d + 1 else min (r.count d + 1) (limit - 1)) := by
    intro r free
    simp only [List.length_cons, List.count_append, List.count_eq_zero_of_not_mem free,
      List.count_cons_self]
    split <;> split <;> omega
  have unfilled : limit ≠ 1 → (limit = 0 ∨ (first :: second :: parts).length < limit ↔
      limit - 1 = 0 ∨ (second :: parts).length < limit - 1) := by
    intro room
    simp only [List.length_cons]
    omega
  constructor
  · rintro ⟨rfl, long, front, last⟩
    rw [List.intercalate_cons_cons, List.append_assoc, List.singleton_append] at long ⊢
    rw [List.dropLast_cons_cons, List.forall_mem_cons] at front
    obtain ⟨room, later⟩ := (counted _ front.1).mp long
    rw [List.getLast?_cons_cons, unfilled room] at last
    exact ⟨room, front.1, _, rfl, rfl, later, front.2, last⟩
  · rintro ⟨room, free, r, rfl, rfl, later, front, last⟩
    refine ⟨?_, (counted _ free).mpr ⟨room, later⟩, ?_, ?_⟩
    · rw [List.intercalate_cons_cons, List.append_assoc, List.singleton_append]
    · rw [List.dropLast_cons_cons, List.forall_mem_cons]
      exact ⟨free, front⟩
    · rw [List.getLast?_cons_cons, unfilled room]
      exact last

end Parts

namespace Cursor

section Cuts

variable {c : Cursor} {delimiter : UInt8} {limit : Nat} {l r : Bytes}

theorem split_whole : c.split delimiter 1 = [c.rest] := by
  simp [split, splitSome]

theorem split_free (free : delimiter ∉ c.rest) : c.split delimiter limit = [c.rest] := by
  rcases limit with _ | _ | cuts
  · exact splitAll_free delimiter c.rest free
  · exact split_whole
  · exact splitSome_free delimiter cuts c.rest free

theorem split_cut (room : limit ≠ 1) (whole : c.rest = l ++ delimiter :: r) (free : delimiter ∉ l) :
    c.split delimiter limit = l :: (ofBytes r).split delimiter (limit - 1) := by
  unfold split
  rw [whole]
  rcases limit with _ | _ | cuts
  · exact splitAll_cut delimiter l r free
  · exact absurd rfl room
  · exact splitSome_cut delimiter cuts l r free

end Cuts

theorem split_divided (c : Cursor) (delimiter : UInt8) (limit : Nat) :
    Divided delimiter limit c.rest (c.split delimiter limit) := by
  -- What stands behind the first delimiter is shorter, whatever the limit.
  induction size : c.rest.length using Nat.strongRecOn generalizing c limit with
  | ind n ih =>
    by_cases alone : limit = 1
    · subst limit
      rw [split_whole]
      exact divided_one.mpr ⟨rfl, .inl rfl⟩
    · by_cases cut : delimiter ∈ c.rest
      · obtain ⟨l, r, whole, free⟩ := List.eq_append_cons_of_mem cut
        have shorter : r.length < n := by
          simp only [← size, whole, List.length_append, List.length_cons]
          omega
        have behind := ih r.length shorter (ofBytes r) (limit - 1) rfl
        rw [split_cut alone whole free]
        obtain ⟨second, parts, split⟩ := List.exists_cons_of_ne_nil behind.ne_nil
        rw [split] at behind ⊢
        exact divided_cons.mpr ⟨alone, free, r, whole, behind⟩
      · rw [split_free cut]
        exact divided_one.mpr ⟨rfl, .inr cut⟩

theorem divided_split {c : Cursor} {delimiter : UInt8} {limit : Nat} {parts : List Bytes}
    (divided : Divided delimiter limit c.rest parts) : parts = c.split delimiter limit := by
  induction parts generalizing c limit with
  | nil => exact absurd rfl divided.ne_nil
  | cons first parts ih =>
    cases parts with
    | nil =>
      obtain ⟨rfl, rfl | free⟩ := divided_one.mp divided
      · rw [split_whole]
      · rw [split_free free]
    | cons second parts =>
      obtain ⟨room, free, r, whole, behind⟩ := divided_cons.mp divided
      rw [split_cut room whole free, ih (c := ofBytes r) behind]

structure Splitting where
  cursor : Cursor
  closed : List Cursor := []
  start : Nat := 0

namespace Splitting

def slice? (s : Splitting) (stop : Nat) : Option Cursor :=
  if s.start ≤ stop ∧ stop ≤ s.cursor.rest.length then
    some (ofBytes ((s.cursor.rest.take stop).drop s.start))
  else none

def step? (delimiter : UInt8) (s : Splitting) (b : UInt8) (place : Nat) : Option Splitting :=
  if b = delimiter then
    (s.slice? place).map fun part => { s with closed := s.closed ++ [part], start := place + 1 }
  else some s

def loop? (delimiter : UInt8) (limit : Nat) (s : Splitting) : List (UInt8 × Nat) → Option Splitting
  | [] => some s
  | (b, place) :: later =>
    if limit ≠ 0 ∧ s.closed.length + 1 = limit then some s
    else (s.step? delimiter b place).bind fun next => loop? delimiter limit next later

def finish? (s : Splitting) : Option (List Cursor × Cursor) :=
  (s.slice? s.cursor.rest.length).map fun part => (s.closed ++ [part], s.cursor)

-- What the loop keeps: the open part runs up to the next byte, and the limit allows it.
structure Scanned (delimiter : UInt8) (limit : Nat) (s : Splitting) (front opened later : Bytes) :
    Prop where
  whole : s.cursor.rest = front ++ opened ++ later
  start : s.start = front.length
  free : delimiter ∉ opened
  room : limit = 0 ∨ s.closed.length < limit

variable {delimiter b : UInt8} {limit : Nat} {s : Splitting} {front opened later : Bytes}

theorem Scanned.slice (scanned : Scanned delimiter limit s front opened later) :
    s.slice? (front ++ opened).length = some (ofBytes opened) := by
  unfold slice?
  rw [scanned.whole, scanned.start, List.take_left, List.drop_left, if_pos (by simp)]

theorem Scanned.finish (scanned : Scanned delimiter limit s front opened later) :
    s.finish? = some (s.closed ++ [ofBytes (opened ++ later)], s.cursor) := by
  unfold finish? slice?
  rw [List.take_length, scanned.whole, scanned.start, List.append_assoc, List.drop_left,
    if_pos (by simp)]
  rfl

theorem Scanned.close (scanned : Scanned delimiter limit s front opened (delimiter :: later))
    (more : s.closed.length + 1 ≠ limit) :
    ∃ next, s.step? delimiter delimiter (front ++ opened).length = some next ∧
      next.cursor = s.cursor ∧ next.closed = s.closed ++ [ofBytes opened] ∧
      Scanned delimiter limit next (front ++ opened ++ [delimiter]) [] later := by
  have room := scanned.room
  refine ⟨{ s with closed := s.closed ++ [ofBytes opened], start := (front ++ opened).length + 1 },
    ?_, rfl, rfl, ?_, ?_, ?_, ?_⟩
  · simp only [step?, if_true, scanned.slice, Option.map_some]
  · simp [scanned.whole]
  · simp
    omega
  · exact List.not_mem_nil
  · simp only [List.length_append, List.length_singleton]
    omega

theorem Scanned.pass (scanned : Scanned delimiter limit s front opened (b :: later))
    (other : b ≠ delimiter) :
    s.step? delimiter b (front ++ opened).length = some s ∧
      Scanned delimiter limit s front (opened ++ [b]) later := by
  refine ⟨if_neg other, ?_, scanned.start, ?_, scanned.room⟩
  · simp [scanned.whole]
  · simp [scanned.free, other.symm]

-- From any place on, the loop does what a split with the parts that are left does.
theorem Scanned.loop (scanned : Scanned delimiter limit s front opened later) :
    (loop? delimiter limit s (later.zipIdx (front ++ opened).length)).bind finish?
      = some (s.closed ++ ((ofBytes (opened ++ later)).split delimiter (limit - s.closed.length)).map ofBytes,
          s.cursor) := by
  induction later generalizing s front opened with
  | nil =>
    have free : delimiter ∉ opened ++ [] := by simpa using scanned.free
    simp only [List.zipIdx_nil, loop?, Option.bind_some, scanned.finish]
    rw [split_free free]
    rfl
  | cons b later ih =>
    have room := scanned.room
    rw [List.zipIdx_cons, loop?]
    by_cases full : s.closed.length + 1 = limit
    · have one : limit - s.closed.length = 1 := by omega
      rw [if_pos ⟨by omega, full⟩, one, split_whole]
      exact scanned.finish
    · rw [if_neg fun stopped => full stopped.2]
      by_cases same : b = delimiter
      · subst b
        obtain ⟨next, stepped, unmoved, closed, kept⟩ := scanned.close full
        have several : limit - s.closed.length ≠ 1 := by omega
        have behind := ih kept
        rw [stepped, split_cut several rfl scanned.free]
        simpa [closed, unmoved, Nat.add_assoc, Nat.sub_sub] using behind
      · obtain ⟨stepped, kept⟩ := scanned.pass same
        rw [stepped]
        simpa [Nat.add_assoc] using ih kept

end Splitting

def parts? (c : Cursor) (delimiter : UInt8) (limit : Nat) : Option (List Cursor × Cursor) :=
  (Splitting.loop? delimiter limit { cursor := c } c.rest.zipIdx).bind Splitting.finish?

theorem parts?_eq (c : Cursor) (delimiter : UInt8) (limit : Nat) :
    c.parts? delimiter limit = some ((c.split delimiter limit).map ofBytes, c) := by
  have begun : Splitting.Scanned delimiter limit { cursor := c } [] [] c.rest :=
    ⟨rfl, rfl, List.not_mem_nil, Nat.eq_zero_or_pos limit⟩
  exact begun.loop

theorem split_loses_nothing (c : Cursor) (delimiter : UInt8) (limit : Nat) :
    (∀ parts, Divided delimiter limit c.rest parts ↔ parts = c.split delimiter limit) ∧
      c.parts? delimiter limit = some ((c.split delimiter limit).map ofBytes, c) := by
  refine ⟨fun parts => ⟨divided_split, ?_⟩, parts?_eq c delimiter limit⟩
  rintro rfl
  exact split_divided c delimiter limit

example : (Cursor.mk (ascii "x;") (ascii ";a;;b;")).parts? 0x3B 4
    = some ([ofBytes [], ofBytes (ascii "a"), ofBytes [], ofBytes (ascii "b;")],
      ⟨ascii "x;", ascii ";a;;b;"⟩) := by
  decide

end Cursor

end HttpWire
