import HttpWire.Framing
import HttpWire.Proofs.Utf8

-- Field lines hold no CR, and a boundary is cut out of the text of one.
namespace HttpWire

section Pieces

variable {α : Type}

theorem trimBoth_inside (p : α → Bool) (xs : List α) : trimBoth p xs <:+: xs := by
  have front : trimBoth p xs <+: xs.dropWhile p := by
    rw [← List.reverse_suffix, trimBoth, trimEnd, List.reverse_reverse]
    exact List.dropWhile_suffix p
  exact front.isInfix.trans (List.dropWhile_suffix p).isInfix

-- The first piece stands in front, and the others somewhere behind it.
theorem splitAll_parts [DecidableEq α] (d : α) (xs : List α) :
    ∃ first pieces, splitAll d xs = first :: pieces ∧ first <+: xs ∧
      ∀ piece ∈ pieces, piece <:+: xs := by
  induction xs with
  | nil => exact ⟨[], [], rfl, List.prefix_refl _, nofun⟩
  | cons a xs ih =>
    obtain ⟨first, pieces, split, front, later⟩ := ih
    by_cases here : a = d
    · refine ⟨[], first :: pieces, ?_, List.nil_prefix, ?_⟩
      · rw [splitAll, if_pos here, split]
      · intro piece member
        rcases List.mem_cons.mp member with rfl | behind
        · exact List.infix_cons front.isInfix
        · exact List.infix_cons (later piece behind)
    · refine ⟨a :: first, pieces, ?_, List.prefix_cons_inj a |>.mpr front, ?_⟩
      · rw [splitAll, if_neg here, split]
        rfl
      · exact fun piece member => List.infix_cons (later piece member)

theorem splitAll_inside [DecidableEq α] (d : α) (xs piece : List α)
    (member : piece ∈ splitAll d xs) : piece <:+: xs := by
  obtain ⟨first, pieces, split, front, later⟩ := splitAll_parts d xs
  rw [split] at member
  rcases List.mem_cons.mp member with rfl | behind
  · exact front.isInfix
  · exact later piece behind

end Pieces

theorem parameter_inside (piece : Text) (row : Text × Text)
    (found : MediaType.parameter? piece = some row) : row.2 <:+: piece := by
  obtain ⟨sides, cut, rfl⟩ := Option.map_eq_some_iff.mp found
  have whole := cutAt_eq '=' piece sides.1 sides.2 cut
  rw [whole]
  exact (trimBoth_inside _ _).trans (List.infix_append_of_infix_right (List.infix_cons (List.infix_refl _)))

theorem valuesOf_inside (value : Text) (name : String) (found : Text)
    (member : found ∈ (MediaType.ofValue value).valuesOf name) : found <:+: value := by
  obtain ⟨row, inside, rfl⟩ := List.mem_map.mp member
  have parameter := (List.mem_filter.mp inside).1
  obtain ⟨essence, pieces, split, -, later⟩ := splitAll_parts ';' value
  unfold MediaType.ofValue at parameter
  rw [split] at parameter
  obtain ⟨piece, behind, read⟩ := List.mem_filterMap.mp parameter
  exact (trimBoth_inside _ _).trans ((parameter_inside piece row read).trans (later piece behind))

namespace Framing

-- The boundary, if there is one, may stand behind a CRLF without being mistaken for it.
def Plain (fr : Framing) : Prop := ∀ boundary, fr.boundary = some boundary → 0x0D ∉ boundary

end Framing
end HttpWire
