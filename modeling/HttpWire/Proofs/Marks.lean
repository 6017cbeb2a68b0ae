import HttpWire.Cursor
import Mathlib.Data.List.Infix

-- What has been given away holds no part of a mark, and what is held back is looked at again.
namespace HttpWire

section Cutting

variable {α : Type} [DecidableEq α]

theorem cutMark_append (mark xs l r more : List α) (found : cutMark mark xs = some (l, r)) :
    cutMark mark (xs ++ more) = some (l, r ++ more) := by
  induction xs generalizing l with
  | nil =>
    unfold cutMark at found
    split at found
    · rename_i here
      cases found
      have empty : mark = [] := by simpa using List.isPrefixOf_iff_prefix.mp here
      subst empty
      cases more <;> simp [cutMark]
    · cases found
  | cons x xs ih =>
    unfold cutMark at found
    rw [List.cons_append]
    unfold cutMark
    split at found
    · rename_i here
      cases found
      have fits := (List.isPrefixOf_iff_prefix.mp here)
      have still : mark.isPrefixOf (x :: (xs ++ more)) = true :=
        List.isPrefixOf_iff_prefix.mpr (fits.trans (List.prefix_append (x :: xs) more))
      rw [if_pos still, ← List.cons_append, List.drop_append_of_le_length fits.length_le]
    · rename_i elsewhere
      cases inner : cutMark mark xs with
      | none => simp [inner] at found
      | some sides =>
        simp only [inner, Option.map_some, Option.some.injEq, Prod.mk.injEq] at found
        obtain ⟨rfl, rfl⟩ := found
        have still : ¬ mark.isPrefixOf (x :: (xs ++ more)) = true := by
          intro early
          apply elsewhere
          -- The mark has been found within `xs`, so it is no longer than that.
          have room : mark.length ≤ (x :: xs).length := by
            have cut := congrArg List.length (cutMark_eq mark xs sides.1 sides.2 inner)
            simp only [List.length_append, List.length_cons] at cut ⊢
            omega
          exact List.isPrefixOf_iff_prefix.mpr (List.prefix_of_prefix_length_le
            (List.isPrefixOf_iff_prefix.mp early) (List.prefix_append (x :: xs) more) room)
        rw [if_neg still, ih sides.1 inner]
        rfl

theorem cutMark_none (mark xs : List α) (real : mark ≠ []) :
    cutMark mark xs = none ↔ ¬ mark <:+: xs := by
  induction xs with
  | nil =>
    have absent : ¬ mark.isPrefixOf [] = true := by simpa using real
    simp [cutMark, absent, real]
  | cons x xs ih =>
    unfold cutMark
    rw [List.infix_cons_iff, ← List.isPrefixOf_iff_prefix]
    by_cases here : mark.isPrefixOf (x :: xs) = true
    · simp [here]
    · simp [here, ih]

theorem cutMark_free (mark xs l r : List α) (real : mark ≠ [])
    (found : cutMark mark xs = some (l, r)) : ¬ mark <:+: l := by
  rw [← cutMark_none mark l real]
  cases early : cutMark mark l with
  | none => rfl
  | some sides =>
    have whole := cutMark_eq mark xs l r found
    have first := cutMark_append mark l sides.1 sides.2 (mark ++ r) early
    rw [← whole, found] at first
    simp only [Option.some.injEq, Prod.mk.injEq] at first
    have size := congrArg List.length (cutMark_eq mark l sides.1 sides.2 early)
    have long := List.length_pos_iff.mpr real
    rw [first.1] at size
    simp only [List.length_append] at size
    omega

-- A mark whose first element occurs in it only once cannot overlap with itself, so
-- its first occurrence comes right after data that is free of it.
theorem cutMark_at (m : α) (ms l r : List α) (once : m ∉ ms) (free : ¬ (m :: ms) <:+: l) :
    cutMark (m :: ms) (l ++ (m :: ms ++ r)) = some (l, r) := by
  induction l with
  | nil =>
    have here : (m :: ms).isPrefixOf (m :: (ms ++ r)) = true :=
      List.isPrefixOf_iff_prefix.mpr (List.prefix_append (m :: ms) r)
    simp only [List.nil_append, List.cons_append]
    unfold cutMark
    rw [if_pos here]
    simp
  | cons x l ih =>
    rw [List.infix_cons_iff, not_or] at free
    have elsewhere : ¬ (m :: ms).isPrefixOf (x :: (l ++ (m :: ms ++ r))) = true := by
      intro early
      have starts := List.isPrefixOf_iff_prefix.mp early
      by_cases room : (m :: ms).length ≤ (x :: l).length
      · exact free.1 (List.prefix_of_prefix_length_le starts (List.prefix_append (x :: l) _) room)
      · -- Otherwise the occurrence reaches into the real one and contains its head.
        have inside : (x :: l) ++ [m] <+: m :: ms := by
          refine List.prefix_of_prefix_length_le ?_ starts ?_
          · exact ⟨ms ++ r, by simp⟩
          · simp only [List.length_append, List.length_cons, List.length_nil] at room ⊢
            omega
        obtain ⟨tail, eq⟩ := inside
        simp only [List.cons_append, List.cons.injEq] at eq
        exact once (by rw [← eq.2]; simp)
    rw [List.cons_append]
    unfold cutMark
    rw [if_neg elsewhere, ih free.2]
    rfl

end Cutting

section Opening

variable (mark bytes more : Bytes)

theorem opening_append_present (rest : Bytes) (here : opening mark bytes = .present rest) :
    opening mark (bytes ++ more) = .present (rest ++ more) := by
  obtain rfl := opening_present mark bytes rest here
  have starts : mark.isPrefixOf (mark ++ (rest ++ more)) = true :=
    List.isPrefixOf_iff_prefix.mpr (List.prefix_append mark (rest ++ more))
  rw [List.append_assoc, opening, if_pos starts, List.drop_left]

theorem opening_append_absent (here : opening mark bytes = .absent) :
    opening mark (bytes ++ more) = .absent := by
  unfold opening at here
  split at here
  · cases here
  · rename_i unlike
    split at here
    · cases here
    · rename_i long
      rw [List.isPrefixOf_iff_prefix] at unlike long
      have still : ¬ mark <+: bytes ++ more := by
        intro starts
        rcases List.prefix_or_prefix_of_prefix starts (List.prefix_append bytes more) with early | late
        · exact unlike early
        · exact long late
      have beyond : ¬ bytes ++ more <+: mark := fun inside =>
        long ((List.prefix_append bytes more).trans inside)
      rw [opening, if_neg (by rwa [List.isPrefixOf_iff_prefix]),
        if_neg (by rwa [List.isPrefixOf_iff_prefix])]

theorem opening_mark : opening mark (mark ++ more) = .present more := by
  have starts : mark.isPrefixOf (mark ++ more) = true :=
    List.isPrefixOf_iff_prefix.mpr (List.prefix_append mark more)
  rw [opening, if_pos starts, List.drop_left]

theorem opening_undecided (mark bytes : Bytes) (begun : opening mark bytes = .undecided) :
    bytes <+: mark ∧ ¬ mark <+: bytes := by
  unfold opening at begun
  split at begun
  · cases begun
  · rename_i unlike
    split at begun
    · rename_i short
      exact ⟨List.isPrefixOf_iff_prefix.mp short,
        fun whole => unlike (List.isPrefixOf_iff_prefix.mpr whole)⟩
    · cases begun

end Opening

def Sought.grow (front : Bytes) : Sought → Sought
  | .found data rest => .found (front ++ data) rest
  | .missing free held => .missing (front ++ free) held

@[simp] theorem Sought.grow_nil (s : Sought) : s.grow [] = s := by
  cases s <;> rfl

theorem Sought.grow_grow (front between : Bytes) (s : Sought) :
    (s.grow between).grow front = s.grow (front ++ between) := by
  cases s <;> simp [Sought.grow]

theorem heldLength_le (mark bytes : Bytes) : heldLength mark bytes ≤ bytes.length := by
  induction bytes with
  | nil => exact Nat.le_refl _
  | cons b rest ih =>
    unfold heldLength
    split <;> simp only [List.length_cons] <;> omega

theorem seek_cons (mark rest : Bytes) (b : UInt8) (unlike : ¬ mark <+: b :: rest)
    (settled : ¬ b :: rest <+: mark) : seek mark (b :: rest) = (seek mark rest).grow [b] := by
  have held : heldLength mark (b :: rest) = heldLength mark rest := by
    rw [heldLength, if_neg]
    rw [Bool.and_eq_true, List.isPrefixOf_iff_prefix]
    exact fun both => settled both.1
  have bound := heldLength_le mark rest
  unfold seek
  rw [cutMark, if_neg (by rwa [List.isPrefixOf_iff_prefix])]
  cases inner : cutMark mark rest with
  | some sides => rfl
  | none =>
    have free : (b :: rest).length - heldLength mark rest
        = (rest.length - heldLength mark rest) + 1 := by
      simp only [List.length_cons]
      omega
    simp only [Option.map_none, held, free, List.take_succ_cons, List.drop_succ_cons, Sought.grow,
      List.singleton_append]

theorem seek_append_found (mark bytes more data rest : Bytes)
    (sought : seek mark bytes = .found data rest) :
    seek mark (bytes ++ more) = .found data (rest ++ more) := by
  unfold seek at sought
  split at sought
  · rename_i cut
    cases sought
    rw [seek, cutMark_append mark bytes data rest more cut]
  · cases sought

-- The search may go on from what was held back as if it had never stopped.
theorem seek_append_missing (mark bytes more free held : Bytes)
    (sought : seek mark bytes = .missing free held) :
    seek mark (bytes ++ more) = (seek mark (held ++ more)).grow free := by
  induction bytes generalizing free with
  | nil =>
    have whole := seek_missing mark [] free held sought
    obtain ⟨rfl, rfl⟩ := List.append_eq_nil_iff.mp whole.symm
    simp
  | cons b rest ih =>
    by_cases settled : b :: rest <+: mark
    · -- The whole buffer may begin a mark, so nothing has been given away.
      have kept : free = [] := by
        unfold seek at sought
        split at sought
        · cases sought
        · rename_i absent
          have proper : b :: rest ≠ mark := by
            intro same
            subst same
            rw [cutMark, if_pos (by simp)] at absent
            cases absent
          have all : heldLength mark (b :: rest) = rest.length + 1 := by
            rw [heldLength, if_pos]
            simp [List.isPrefixOf_iff_prefix, settled, proper]
          cases sought
          simp [all]
      have whole := seek_missing mark (b :: rest) free held sought
      rw [kept, List.nil_append] at whole
      rw [kept, ← whole, Sought.grow_nil]
    · have unlike : ¬ mark <+: b :: rest := by
        intro starts
        unfold seek at sought
        rw [cutMark, if_pos (List.isPrefixOf_iff_prefix.mpr starts)] at sought
        cases sought
      rw [seek_cons mark rest b unlike settled] at sought
      have beyond : ¬ mark <+: b :: (rest ++ more) := by
        intro starts
        rcases List.prefix_or_prefix_of_prefix starts (List.prefix_append (b :: rest) more)
          with early | late
        · exact unlike early
        · exact settled late
      have long : ¬ b :: (rest ++ more) <+: mark := fun inside =>
        settled ((List.prefix_append (b :: rest) more).trans inside)
      cases inner : seek mark rest with
      | found data after =>
        rw [inner] at sought
        cases sought
      | missing front kept =>
        rw [inner] at sought
        cases sought
        rw [List.cons_append, seek_cons mark (rest ++ more) b beyond long, ih front inner,
          Sought.grow_grow]

section Limits

variable (limit : Option Nat) (bytes more : Bytes)

theorem within_append :
    within limit (bytes ++ more)
      = within limit bytes ++ within (limit.map (· - bytes.length)) more := by
  cases limit with
  | none => rfl
  | some n => exact List.take_append

theorem within_length_le : (within limit bytes).length ≤ bytes.length := by
  cases limit with
  | none => exact Nat.le_refl _
  | some n => exact List.length_take_le' n bytes

theorem within_open (left : limit.map (· - (within limit bytes).length) ≠ some 0) :
    within limit bytes = bytes := by
  cases limit with
  | none => rfl
  | some n =>
    simp only [within, Option.map_some, ne_eq, Option.some.injEq, List.length_take] at left ⊢
    exact List.take_of_length_le (by omega)

theorem within_reached (left : limit.map (· - (within limit bytes).length) = some 0) :
    within limit (bytes ++ more) = within limit bytes := by
  cases limit with
  | none => cases left
  | some n =>
    simp only [within, Option.map_some, Option.some.injEq, List.length_take] at left ⊢
    exact List.take_append_of_le_length (by omega)

end Limits

theorem crlf_absent (line : Bytes) (plain : 0x0D ∉ line) : ¬ crlf <:+: line := by
  intro inside
  exact plain (inside.subset (List.mem_cons_self ..))

theorem cutMark_line (line rest : Bytes) (free : ¬ crlf <:+: line) :
    cutMark crlf (line ++ (crlf ++ rest)) = some (line, rest) :=
  cutMark_at 0x0D [0x0A] line rest (by decide) free

theorem takeLine_line (room : Nat) (line rest : Bytes) (free : ¬ crlf <:+: line)
    (fits : line.length + 2 ≤ room) :
    takeLine room (line ++ (crlf ++ rest)) = .whole line rest := by
  unfold takeLine
  rw [cutMark_line line rest free]
  exact if_pos fits

theorem takeLine_free (room : Nat) (bytes line rest : Bytes)
    (taken : takeLine room bytes = .whole line rest) : ¬ crlf <:+: line := by
  unfold takeLine at taken
  split at taken
  · rename_i cut
    split at taken
    · cases taken
      exact cutMark_free crlf bytes line rest (by decide) cut
    · cases taken
  · split at taken <;> cases taken

theorem openLength_le (bytes : Bytes) : openLength bytes ≤ bytes.length := Nat.sub_le _ _

theorem openLength_append_le (bytes more : Bytes) :
    openLength bytes ≤ openLength (bytes ++ more) := by
  cases more with
  | nil => simp
  | cons b more =>
    have short := openLength_le bytes
    have long : (bytes ++ b :: more).length ≤ openLength (bytes ++ b :: more) + 1 := by
      unfold openLength
      split <;> omega
    simp only [List.length_append, List.length_cons] at long ⊢
    omega

-- An unfinished line is never counted longer than it will turn out to be.
theorem openLength_le_line (bytes more line rest : Bytes) (absent : cutMark crlf bytes = none)
    (found : cutMark crlf (bytes ++ more) = some (line, rest)) :
    openLength bytes ≤ line.length := by
  have whole := cutMark_eq crlf (bytes ++ more) line rest found
  have unmarked := (cutMark_none crlf bytes (by decide)).mp absent
  have short : bytes.length < line.length + 2 := by
    by_contra long
    apply unmarked
    have ended : line ++ crlf <+: bytes ++ more := ⟨rest, by rw [whole, List.append_assoc]⟩
    have inside : line ++ crlf <+: bytes := by
      refine List.prefix_of_prefix_length_le ended (List.prefix_append bytes more) ?_
      simp only [List.length_append, crlf, List.length_cons, List.length_nil]
      omega
    exact (List.suffix_append line crlf).isInfix.trans inside.isInfix
  rcases Nat.lt_or_ge line.length bytes.length with past | kept
  · -- All but the last byte belong to the line, and that byte is the CR after it.
    have ended : line ++ [0x0D] <+: bytes ++ more := ⟨0x0A :: rest, by rw [whole]; simp [crlf]⟩
    have inside : bytes <+: line ++ [0x0D] := by
      refine List.prefix_of_prefix_length_le (List.prefix_append bytes more) ended ?_
      simp only [List.length_append, List.length_cons, List.length_nil]
      omega
    have same : bytes = line ++ [0x0D] := inside.eq_of_length (by
      simp only [List.length_append, List.length_cons, List.length_nil]
      omega)
    simp [openLength, same]
  · exact Nat.le_trans (openLength_le bytes) kept

theorem takeLine_append_whole (room : Nat) (bytes line rest more : Bytes)
    (taken : takeLine room bytes = .whole line rest) :
    takeLine room (bytes ++ more) = .whole line (rest ++ more) := by
  unfold takeLine at taken ⊢
  split at taken
  · rename_i cut
    split at taken
    · rename_i fits
      cases taken
      rw [cutMark_append crlf bytes line rest more cut]
      exact if_pos fits
    · cases taken
  · split at taken <;> cases taken

theorem takeLine_append_tooLong (room : Nat) (bytes more : Bytes)
    (taken : takeLine room bytes = .tooLong) : takeLine room (bytes ++ more) = .tooLong := by
  unfold takeLine at taken ⊢
  split at taken
  · rename_i line rest cut
    split at taken
    · cases taken
    · rename_i exceeds
      rw [cutMark_append crlf bytes line rest more cut]
      exact if_neg exceeds
  · rename_i absent
    split at taken
    · cases taken
    · rename_i exceeds
      split
      · rename_i line rest found
        have bound := openLength_le_line bytes more line rest absent found
        exact if_neg (by omega)
      · have bound := openLength_append_le bytes more
        exact if_neg (by omega)

end HttpWire
