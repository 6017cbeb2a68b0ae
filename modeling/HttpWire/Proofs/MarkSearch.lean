import HttpWire.Cursor
import HttpWire.Proofs.Marks

-- Every call passes what cannot belong to a mark any more, and the next one looks at what is left
-- again.
namespace HttpWire

section FirstOccurrence

variable {α : Type} [DecidableEq α]

theorem cutMark_first (mark xs l r front behind : List α) (found : cutMark mark xs = some (l, r))
    (occurs : xs = front ++ (mark ++ behind)) : l <+: front := by
  induction xs generalizing l front with
  | nil =>
    unfold cutMark at found
    split at found
    · cases found
      exact List.nil_prefix
    · cases found
  | cons x xs ih =>
    unfold cutMark at found
    split at found
    · cases found
      exact List.nil_prefix
    · rename_i elsewhere
      obtain ⟨sides, inner, same⟩ := Option.map_eq_some_iff.mp found
      cases same
      cases front with
      | nil =>
        -- The mark would have been found in front.
        refine absurd (List.isPrefixOf_iff_prefix.mpr ?_) elsewhere
        exact ⟨behind, occurs.symm⟩
      | cons y front =>
        rw [List.cons_append, List.cons.injEq] at occurs
        rw [occurs.1]
        exact (List.prefix_cons_inj y).mpr (ih sides.1 front inner occurs.2)

end FirstOccurrence

section HeldBack

variable {mark bytes data rest free held : Bytes}

theorem seek_first (sought : seek mark bytes = .found data rest) (front behind : Bytes)
    (occurs : bytes = front ++ (mark ++ behind)) : data <+: front := by
  unfold seek at sought
  split at sought
  · rename_i cut
    cases sought
    exact cutMark_first mark _ _ _ front behind cut occurs
  · cases sought

theorem seek_absent (real : mark ≠ []) (sought : seek mark bytes = .missing free held) :
    ¬ mark <:+: bytes := by
  unfold seek at sought
  split at sought
  · cases sought
  · rename_i absent
    exact (cutMark_none mark _ real).mp absent

theorem heldLength_begins (real : mark ≠ []) (bytes : Bytes) :
    bytes.drop (bytes.length - heldLength mark bytes) <+: mark ∧
      bytes.drop (bytes.length - heldLength mark bytes) ≠ mark := by
  induction bytes with
  | nil => exact ⟨List.nil_prefix, real.symm⟩
  | cons b rest ih =>
    by_cases begins : ((b :: rest).isPrefixOf mark && (b :: rest) != mark) = true
    · have all : heldLength mark (b :: rest) = (b :: rest).length := by
        rw [heldLength, if_pos begins, List.length_cons]
      rw [all, Nat.sub_self, List.drop_zero]
      rwa [Bool.and_eq_true, List.isPrefixOf_iff_prefix, bne_iff_ne] at begins
    · have later : heldLength mark (b :: rest) = heldLength mark rest := by
        rw [heldLength, if_neg begins]
      have bound := heldLength_le mark rest
      have past : (b :: rest).length - heldLength mark rest
          = (rest.length - heldLength mark rest) + 1 := by
        rw [List.length_cons]
        omega
      rw [later, past, List.drop_succ_cons]
      exact ih

theorem heldLength_longest (tail : Bytes) (ends : tail <:+ bytes) (begins : tail <+: mark)
    (proper : tail ≠ mark) : tail.length ≤ heldLength mark bytes := by
  induction bytes with
  | nil => exact ends.length_le
  | cons b rest ih =>
    unfold heldLength
    split
    · exact ends.length_le
    · rename_i unlike
      rcases List.suffix_cons_iff.mp ends with whole | inside
      · subst whole
        refine absurd ?_ unlike
        rw [Bool.and_eq_true, List.isPrefixOf_iff_prefix, bne_iff_ne]
        exact ⟨begins, proper⟩
      · exact ih inside

theorem seek_longest (real : mark ≠ []) (sought : seek mark bytes = .missing free held) :
    (held <+: mark ∧ held ≠ mark) ∧
      ∀ tail, tail <:+ bytes → tail <+: mark → tail ≠ mark → tail <:+ held := by
  have bound := heldLength_le mark bytes
  unfold seek at sought
  split at sought
  · cases sought
  · cases sought
    refine ⟨heldLength_begins real bytes, fun tail ends begins proper => ?_⟩
    have short := heldLength_longest tail ends begins proper
    refine List.suffix_of_suffix_length_le ends (List.drop_suffix _ bytes) ?_
    rw [List.length_drop]
    omega

-- Another look at what is held back gives nothing more of it away.
theorem seek_again (sought : seek mark bytes = .missing free held) : seek mark held = .missing [] held := by
  have again := seek_append_missing mark bytes [] free held sought
  rw [List.append_nil, List.append_nil, sought] at again
  cases later : seek mark held with
  | found data rest =>
    rw [later] at again
    cases again
  | missing more kept =>
    rw [later, Sought.grow, Sought.missing.injEq] at again
    rw [List.self_eq_append_right.mp again.1, ← again.2]

end HeldBack

structure Search where
  data : Bytes := []
  left : Bytes := []
  found : Bool := false

namespace Search

def call (mark : Bytes) (eat : Bool) (s : Search) (fragment : Bytes) : Search :=
  let (data, found, cursor) := (Cursor.ofBytes (s.left ++ fragment)).upToBoundary mark eat
  { data := s.data ++ data, left := cursor.rest, found }

def run (mark : Bytes) (eat : Bool) : Search → List Bytes → Search × List Bytes
  | s, [] => (s, [])
  | s, fragment :: fragments =>
    let next := s.call mark eat fragment
    if next.found then (next, fragments) else run mark eat next fragments

section Calls

variable {mark : Bytes} {eat : Bool} {s : Search} {fragment data rest free held : Bytes}

theorem call_found (sought : seek mark (s.left ++ fragment) = .found data rest) :
    s.call mark eat fragment
      = { data := s.data ++ data, left := (if eat then [] else mark) ++ rest, found := true } := by
  have whole := seek_found mark _ data rest sought
  unfold call Cursor.upToBoundary Cursor.ofBytes
  rw [sought]
  dsimp only [Cursor.advance]
  rw [whole]
  cases eat with
  | false => simp
  | true => simp [← List.drop_drop]

theorem call_missing (sought : seek mark (s.left ++ fragment) = .missing free held) :
    s.call mark eat fragment = { data := s.data ++ free, left := held } := by
  have whole := seek_missing mark _ free held sought
  unfold call Cursor.upToBoundary Cursor.ofBytes
  rw [sought]
  dsimp only [Cursor.advance]
  rw [whole, List.drop_left]

-- The induction is on the fragments; what is left has always been looked at already.
theorem run_seek (eat : Bool) (fragments : List Bytes) (s : Search) (unfound : s.found = false)
    (settled : seek mark s.left = .missing [] s.left) :
    match seek mark (s.left ++ fragments.flatten) with
    | .missing free held => s.run mark eat fragments = ({ data := s.data ++ free, left := held }, [])
    | .found data rest => ∃ left unread,
        s.run mark eat fragments = ({ data := s.data ++ data, left, found := true }, unread) ∧
          left ++ unread.flatten = (if eat then [] else mark) ++ rest := by
  induction fragments generalizing s with
  | nil =>
    rw [List.flatten_nil, List.append_nil, settled]
    simp [run, ← unfound]
  | cons fragment fragments ih =>
    rw [List.flatten_cons, ← List.append_assoc]
    cases here : seek mark (s.left ++ fragment) with
    | found data rest =>
      rw [seek_append_found mark _ fragments.flatten data rest here]
      refine ⟨_, fragments, ?_, List.append_assoc _ rest fragments.flatten⟩
      rw [run, call_found here]
      rfl
    | missing free held =>
      rw [seek_append_missing mark _ fragments.flatten free held here]
      have step : s.run mark eat (fragment :: fragments)
          = run mark eat { data := s.data ++ free, left := held } fragments := by
        rw [run, call_missing here]
        rfl
      have later := ih { data := s.data ++ free, left := held } rfl (seek_again here)
      rw [step]
      cases rest : seek mark (held ++ fragments.flatten) with
      | found data rest => simpa [rest, Sought.grow] using later
      | missing more kept => simpa [rest, Sought.grow] using later

end Calls

structure Result (mark : Bytes) (eat : Bool) (stream : Bytes) (s : Search) (unread : Bytes) : Prop where
  found_iff : s.found = true ↔ mark <:+: stream
  first : s.found = true → ∃ behind, stream = s.data ++ (mark ++ behind) ∧
    (∀ front rest, stream = front ++ (mark ++ rest) → s.data <+: front) ∧
    s.left ++ unread = (if eat then [] else mark) ++ behind
  missing : s.found = false → s.data ++ s.left = stream ∧ unread = []
  longest : s.found = false → s.left <+: mark ∧ s.left ≠ mark ∧
    ∀ tail, tail <:+ stream → tail <+: mark → tail ≠ mark → tail <:+ s.left

end Search

theorem stream_search (mark : Bytes) (eat : Bool) (fragments : List Bytes) (real : mark ≠ []) :
    Search.Result mark eat fragments.flatten (Search.run mark eat {} fragments).1
      (Search.run mark eat {} fragments).2.flatten := by
  have settled : seek mark [] = .missing [] [] := by
    have absent := (cutMark_none mark [] real).mpr (by simpa using real)
    rw [seek, absent]
    rfl
  have ran := Search.run_seek eat fragments {} rfl settled
  rw [List.nil_append] at ran
  cases sought : seek mark fragments.flatten with
  | found data rest =>
    have whole := seek_found mark _ data rest sought
    rw [sought] at ran
    obtain ⟨left, unread, ended, behind⟩ := ran
    rw [ended]
    have occurs : mark <:+: fragments.flatten := ⟨data, rest, by rw [whole, List.append_assoc]⟩
    exact ⟨⟨fun _ => occurs, fun _ => rfl⟩, fun _ => ⟨rest, whole, seek_first sought, behind⟩,
      fun unfound => Bool.noConfusion unfound, fun unfound => Bool.noConfusion unfound⟩
  | missing free held =>
    have whole := seek_missing mark _ free held sought
    have longest := seek_longest real sought
    rw [sought] at ran
    rw [ran]
    exact ⟨⟨fun found => Bool.noConfusion found, fun occurs => absurd occurs (seek_absent real sought)⟩,
      fun found => Bool.noConfusion found, fun _ => ⟨whole.symm, rfl⟩,
      fun _ => ⟨longest.1.1, longest.1.2, longest.2⟩⟩

theorem stream_search_overlapping :
    ascii "aab" ≠ [] ∧
      Search.Result (ascii "aab") true (ascii "xaaab--")
        { data := ascii "xa", left := ascii "-", found := true } (ascii "-") ∧
      Search.Result (ascii "aab") false (ascii "abaaa") { data := ascii "aba", left := ascii "aa" } [] :=
  ⟨by decide,
    stream_search (ascii "aab") true [ascii "xa", ascii "a", [], ascii "ab-", ascii "-"] (by decide),
    stream_search (ascii "aab") false [ascii "a", ascii "baa", ascii "a"] (by decide)⟩

end HttpWire
