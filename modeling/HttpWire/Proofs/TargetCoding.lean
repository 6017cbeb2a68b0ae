import HttpWire.Proofs.Authorities
import HttpWire.Proofs.Numerals
import HttpWire.Proofs.PercentCoding

-- No escape comes into being or is broken next to one that is added, since none of these holds a digit
-- in front of its sign.
namespace HttpWire.Percent

def targetByte (b : UInt8) : Bytes :=
  if Text.isGraphicByte b then [b] else [percent, digitByte (b.toNat / 16), digitByte (b.toNat % 16)]

def Stray (rest : Bytes) : Prop :=
  ∀ high low later, rest = high :: low :: later → unescape? high low = none

section Signs

variable {plusIsSpace : Bool} {high low : UInt8} {rest : Bytes}

theorem unescape?_graphic {b : UInt8} (read : unescape? high low = some b) :
    Text.isGraphicByte high = true ∧ Text.isGraphicByte low = true := by
  have digit : ∀ b n, Numeral.digit? 16 b = some n → Text.isGraphicByte b = true := by
    intro b n read
    obtain ⟨small, face⟩ := Numeral.digit?_iff.mp read
    rw [isGraphicByte_iff]
    omega
  unfold unescape? at read
  split at read
  · rename_i first second
    exact ⟨digit high _ first, digit low _ second⟩
  · cases read

theorem unescape?_sign (low : UInt8) : unescape? percent low = none := rfl

theorem unescape?_sign_behind (high : UInt8) : unescape? high percent = none := by
  unfold unescape?
  split
  · rename_i second
    cases second
  · rfl

theorem decodeBytes_stray (stray : Stray rest) :
    decodeBytes plusIsSpace (percent :: rest) = percent :: decodeBytes plusIsSpace rest := by
  match rest, stray with
  | [], _ => cases plusIsSpace <;> rfl
  | [c], _ => cases plusIsSpace <;> rfl
  | high :: low :: rest, stray =>
    rw [decodeBytes, if_pos (beq_self_eq_true percent), stray high low rest rfl]

end Signs

section Coding

variable {plusIsSpace : Bool} {b : UInt8} {rest : Bytes}

theorem targetByte_graphic (graphic : Text.isGraphicByte b = true) : targetByte b = [b] :=
  if_pos graphic

theorem targetByte_other (other : ¬ Text.isGraphicByte b = true) :
    targetByte b = [percent, digitByte (b.toNat / 16), digitByte (b.toNat % 16)] :=
  if_neg other

theorem encode_encodeTarget (t : Text) :
    Utf8.encode (encodeTarget t) = (Utf8.encode t).flatMap targetByte := by
  have each : ∀ b, Utf8.encode (if Text.isGraphicByte b then [Char.ofNat b.toNat] else escape b)
      = targetByte b := by
    intro b
    by_cases graphic : Text.isGraphicByte b = true
    · have range := (isGraphicByte_iff b).mp graphic
      rw [if_pos graphic, encode_byte (by omega), targetByte_graphic graphic]
    · rw [if_neg graphic, encode_escape, targetByte_other graphic]
  unfold encodeTarget
  generalize Utf8.encode t = bytes
  induction bytes with
  | nil => rfl
  | cons b bytes ih => rw [List.flatMap_cons, Utf8.encode_append, ih, each, List.flatMap_cons]

theorem Stray.coded (stray : Stray rest) : Stray (rest.flatMap targetByte) := by
  intro high low later same
  cases rest with
  | nil => cases same
  | cons b rest =>
    by_cases first : Text.isGraphicByte b = true
    · rw [List.flatMap_cons, targetByte_graphic first, List.singleton_append, List.cons.injEq] at same
      obtain ⟨rfl, same⟩ := same
      cases rest with
      | nil => cases same
      | cons c rest =>
        by_cases second : Text.isGraphicByte c = true
        · rw [List.flatMap_cons, targetByte_graphic second, List.singleton_append, List.cons.injEq] at same
          rw [← same.1]
          exact stray b c rest rfl
        · rw [List.flatMap_cons, targetByte_other second, List.cons_append, List.cons.injEq] at same
          rw [← same.1]
          exact unescape?_sign_behind b
    · rw [List.flatMap_cons, targetByte_other first, List.cons_append, List.cons.injEq] at same
      rw [← same.1]
      exact unescape?_sign low

theorem decodeBytes_targetByte (other : b ≠ percent) (rest : Bytes) :
    decodeBytes plusIsSpace (targetByte b ++ rest)
      = (if plusIsSpace && b == plus then space else b) :: decodeBytes plusIsSpace rest := by
  by_cases graphic : Text.isGraphicByte b = true
  · rw [targetByte_graphic graphic, List.singleton_append, decodeBytes_single _ _ _ other]
  · have unplus : (b == plus) = false := by
      apply beq_false_of_ne
      rintro rfl
      exact graphic rfl
    rw [targetByte_other graphic, unplus, Bool.and_false, if_neg Bool.false_ne_true]
    exact decodeBytes_escape plusIsSpace b rest

-- The induction follows the decoder, which takes a whole escape at once.
theorem decodeBytes_coded (plusIsSpace : Bool) (bytes : Bytes) :
    decodeBytes plusIsSpace (bytes.flatMap targetByte) = decodeBytes plusIsSpace bytes := by
  induction size : bytes.length using Nat.strongRecOn generalizing bytes with
  | ind n ih =>
    cases bytes with
    | nil => rfl
    | cons b rest =>
      rw [List.length_cons] at size
      have later := ih rest.length (by omega) rest rfl
      by_cases sign : b = percent
      · subst sign
        rw [List.flatMap_cons, targetByte_graphic rfl, List.singleton_append]
        by_cases stray : Stray rest
        · rw [decodeBytes_stray stray, decodeBytes_stray stray.coded, later]
        · unfold Stray at stray
          push Not at stray
          obtain ⟨high, low, behind, rfl, read⟩ := stray
          obtain ⟨c, read⟩ := Option.ne_none_iff_exists'.mp read
          obtain ⟨first, second⟩ := unescape?_graphic read
          have last := ih behind.length (by simp only [List.length_cons] at size; omega) behind rfl
          rw [List.flatMap_cons, List.flatMap_cons, targetByte_graphic first, targetByte_graphic second,
            List.singleton_append, List.singleton_append, decodeBytes, decodeBytes,
            if_pos (beq_self_eq_true percent), read]
          exact congrArg (c :: ·) last
      · rw [List.flatMap_cons, decodeBytes_targetByte sign, decodeBytes_single _ _ _ sign, later]

theorem graphic_sublist (bytes : Bytes) :
    (bytes.filter Text.isGraphicByte).Sublist (bytes.flatMap targetByte) := by
  induction bytes with
  | nil => exact .slnil
  | cons b bytes ih =>
    rw [List.flatMap_cons]
    by_cases graphic : Text.isGraphicByte b = true
    · rw [List.filter_cons_of_pos graphic, targetByte_graphic graphic]
      exact ih.cons_cons b
    · rw [List.filter_cons_of_neg graphic]
      exact ih.trans (List.sublist_append_right ..)

end Coding

theorem encodeTarget_keeps_meaning (t : Text) :
    Target.Graphic (encodeTarget t) ∧ encodeTarget (encodeTarget t) = encodeTarget t ∧
      (∀ plusIsSpace, decode plusIsSpace (encodeTarget t) = decode plusIsSpace t) ∧
      ((Utf8.encode t).filter Text.isGraphicByte).Sublist (Utf8.encode (encodeTarget t)) := by
  have graphic := encodeTarget_graphic t
  refine ⟨graphic, encodeTarget_graphic_text graphic, fun plusIsSpace => ?_, ?_⟩
  · unfold decode
    rw [encode_encodeTarget, decodeBytes_coded]
  · rw [encode_encodeTarget]
    exact graphic_sublist _

end HttpWire.Percent
