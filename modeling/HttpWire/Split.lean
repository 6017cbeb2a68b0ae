-- Bytes and text are lists, so one definition of each cut serves both.
namespace HttpWire

variable {α : Type} [DecidableEq α]

def cutAt (d : α) : List α → Option (List α × List α)
  | [] => none
  | x :: xs =>
    if x = d then some ([], xs)
    else (cutAt d xs).map fun sides => (x :: sides.1, sides.2)

def cutAtLast (d : α) (xs : List α) : Option (List α × List α) :=
  (cutAt d xs.reverse).map fun sides => (sides.2.reverse, sides.1.reverse)

def cutMark (mark : List α) : List α → Option (List α × List α)
  | [] => if mark.isPrefixOf [] then some ([], []) else none
  | x :: xs =>
    if mark.isPrefixOf (x :: xs) then some ([], (x :: xs).drop mark.length)
    else (cutMark mark xs).map fun sides => (x :: sides.1, sides.2)

def growFirst (x : α) : List (List α) → List (List α)
  | [] => [[x]]
  | piece :: pieces => (x :: piece) :: pieces

def splitAll (d : α) : List α → List (List α)
  | [] => [[]]
  | x :: xs => if x = d then [] :: splitAll d xs else growFirst x (splitAll d xs)

def splitSome (d : α) : Nat → List α → List (List α)
  | 0, xs => [xs]
  | _ + 1, [] => [[]]
  | cuts + 1, x :: xs =>
    if x = d then [] :: splitSome d cuts xs else growFirst x (splitSome d (cuts + 1) xs)

def piecesOf (size : Nat) : List α → List (List α)
  | [] => []
  | x :: xs => (x :: xs.take (size - 1)) :: piecesOf size (xs.drop (size - 1))
termination_by xs => xs.length
decreasing_by simp only [List.length_drop, List.length_cons]; omega

def trimEnd (p : α → Bool) (xs : List α) : List α :=
  (xs.reverse.dropWhile p).reverse

def trimBoth (p : α → Bool) (xs : List α) : List α :=
  trimEnd p (xs.dropWhile p)

omit [DecidableEq α] in
-- A run of elements of one kind ends where what follows it begins with another.
theorem takeWhile_parts {p : α → Bool} {front rest : List α} (all : ∀ x ∈ front, p x = true)
    (other : ∀ x ∈ rest.head?, p x = false) :
    (front ++ rest).takeWhile p = front ∧ (front ++ rest).dropWhile p = rest := by
  rw [List.takeWhile_append_of_pos all, List.dropWhile_append_of_pos all]
  cases rest with
  | nil => exact ⟨List.append_nil _, rfl⟩
  | cons x rest =>
    have stops : ¬ p x = true := by simp [other x rfl]
    rw [List.takeWhile_cons_of_neg stops, List.dropWhile_cons_of_neg stops]
    exact ⟨List.append_nil _, rfl⟩

theorem cutAt_eq (d : α) (xs l r : List α) (found : cutAt d xs = some (l, r)) :
    xs = l ++ d :: r := by
  induction xs generalizing l with
  | nil => cases found
  | cons x xs ih =>
    unfold cutAt at found
    split at found
    · rename_i same
      cases found
      simp [same]
    · cases inner : cutAt d xs with
      | none => simp [inner] at found
      | some sides =>
        simp only [inner, Option.map_some, Option.some.injEq, Prod.mk.injEq] at found
        obtain ⟨rfl, rfl⟩ := found
        simp [ih sides.1 inner]

theorem cutMark_eq (mark xs l r : List α) (found : cutMark mark xs = some (l, r)) :
    xs = l ++ (mark ++ r) := by
  induction xs generalizing l with
  | nil =>
    unfold cutMark at found
    split at found
    · rename_i here
      cases found
      have empty : mark = [] := by simpa using here
      rw [empty]
      rfl
    · cases found
  | cons x xs ih =>
    unfold cutMark at found
    split at found
    · rename_i here
      cases found
      rw [List.nil_append]
      exact (List.prefix_iff_eq_append.mp (List.isPrefixOf_iff_prefix.mp here)).symm
    · cases inner : cutMark mark xs with
      | none => simp [inner] at found
      | some sides =>
        simp only [inner, Option.map_some, Option.some.injEq, Prod.mk.injEq] at found
        obtain ⟨rfl, rfl⟩ := found
        simp [← ih sides.1 inner]

end HttpWire
