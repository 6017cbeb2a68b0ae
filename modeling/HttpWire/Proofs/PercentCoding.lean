import HttpWire.Proofs.GeneratedText

-- The characters of a byte are decoded together, so coded byte by byte is decoded byte by byte.
namespace HttpWire.Percent

section Decoding

variable (plusIsSpace : Bool)

def digitByte (n : Nat) : UInt8 := UInt8.ofNat (hexDigit n).toNat

theorem unescape?_digits (b : UInt8) :
    unescape? (digitByte (b.toNat / 16)) (digitByte (b.toNat % 16)) = some b := by
  have digits : ∀ n < 16, Numeral.digit? 16 (digitByte n) = some n := by decide
  have byte := b.toNat_lt
  have whole : b.toNat / 16 * 16 + b.toNat % 16 = b.toNat := by omega
  unfold unescape?
  rw [digits (b.toNat / 16) (by omega), digits (b.toNat % 16) (Nat.mod_lt _ (by decide))]
  simp [whole]

theorem decodeBytes_escape (b : UInt8) (rest : Bytes) :
    decodeBytes plusIsSpace
      (percent :: digitByte (b.toNat / 16) :: digitByte (b.toNat % 16) :: rest)
      = b :: decodeBytes plusIsSpace rest := by
  rw [decodeBytes, if_pos (beq_self_eq_true percent), unescape?_digits]

theorem decodeBytes_single (b : UInt8) (rest : Bytes) (other : b ≠ percent) :
    decodeBytes plusIsSpace (b :: rest)
      = (if plusIsSpace && b == plus then space else b) :: decodeBytes plusIsSpace rest := by
  have single : ¬ (b == percent) = true := by simpa using other
  match rest with
  | [] => rfl
  | [c] => rfl
  | high :: low :: rest => rw [decodeBytes, if_neg single]

end Decoding

section Encoding

variable {b : UInt8} {spaceAsPlus : Bool} {t : Text}

theorem unreserved_range (plain : isUnreserved b = true) :
    0x2D ≤ b.toNat ∧ b.toNat ≤ 0x7E ∧ b.toNat ≠ 0x3D := by
  unfold isUnreserved at plain
  simp only [Bool.or_eq_true, Bool.and_eq_true, decide_eq_true_eq, beq_iff_eq, UInt8.le_iff_toNat_le,
    ← UInt8.toNat_inj, UInt8.reduceToNat] at plain
  omega

theorem encode_escape (b : UInt8) :
    Utf8.encode (escape b) = [percent, digitByte (b.toNat / 16), digitByte (b.toNat % 16)] := by
  rw [encode_small (graphic_small (escape_graphic b))]
  rfl

theorem encode_byte (small : b.toNat < 0x80) : Utf8.encode [Char.ofNat b.toNat] = [b] := by
  have value := Utf8.ofNat_small b.toNat (by omega)
  rw [encode_small]
  · simp [value]
  · intro c member
    rw [List.mem_singleton.mp member, value]
    exact small

-- Where a space is written as a plus sign, a plus sign must be read as a space.
theorem decodeBytes_encodeByte {plusIsSpace : Bool} (agree : spaceAsPlus = true → plusIsSpace = true)
    (b : UInt8) (rest : Bytes) :
    decodeBytes plusIsSpace (Utf8.encode (encodeByte spaceAsPlus b) ++ rest)
      = b :: decodeBytes plusIsSpace rest := by
  unfold encodeByte
  split
  · rename_i blank
    obtain ⟨setting, same⟩ := Bool.and_eq_true_iff.mp blank
    rw [agree setting, beq_iff_eq.mp same]
    exact decodeBytes_single true plus rest (by decide)
  · split
    · rename_i plain
      have range := unreserved_range plain
      have other : b ≠ percent := by
        rintro rfl
        exact absurd range (by decide)
      have unplus : (b == plus) = false := by
        apply beq_false_of_ne
        rintro rfl
        exact absurd range (by decide)
      rw [encode_byte (by omega), List.singleton_append, decodeBytes_single _ _ _ other, unplus,
        Bool.and_false, if_neg Bool.false_ne_true]
    · rw [encode_escape]
      exact decodeBytes_escape plusIsSpace b rest

theorem decodeBytes_encode {plusIsSpace : Bool} (agree : spaceAsPlus = true → plusIsSpace = true)
    (bytes : Bytes) :
    decodeBytes plusIsSpace (Utf8.encode (bytes.flatMap (encodeByte spaceAsPlus))) = bytes := by
  induction bytes with
  | nil => rfl
  | cons b bytes ih =>
    rw [List.flatMap_cons, Utf8.encode_append, decodeBytes_encodeByte agree, ih]

theorem decode_encode {plusIsSpace : Bool} (agree : spaceAsPlus = true → plusIsSpace = true) (t : Text) :
    decode plusIsSpace (encode spaceAsPlus t) = t := by
  unfold decode encode
  rw [decodeBytes_encode agree, Utf8.lossy_encode]

theorem encodeByte_clear (b : UInt8) : Clear ['&', '=', '#'] (encodeByte spaceAsPlus b) := by
  unfold encodeByte
  split
  · decide
  · split
    · rename_i plain
      have range := unreserved_range plain
      have value := Utf8.ofNat_small b.toNat (by omega)
      have marks : ∀ mark ∈ ['&', '=', '#'], mark.toNat < 0x2D ∨ mark.toNat = 0x3D := by simp
      intro c member
      rw [List.mem_singleton.mp member]
      refine ⟨(isGraphic_iff _).mpr (by omega), fun mark => ?_⟩
      have apart := marks _ mark
      omega
    · have digits : ∀ n < 16, hexDigit n ∉ ['&', '=', '#'] := by decide
      have byte := b.toNat_lt
      intro c member
      refine ⟨escape_graphic b c member, ?_⟩
      simp only [escape, List.mem_cons, List.not_mem_nil, or_false] at member
      rcases member with rfl | rfl | rfl
      · decide
      · exact digits _ (by omega)
      · exact digits _ (Nat.mod_lt _ (by decide))

theorem encode_clear (t : Text) : Clear ['&', '=', '#'] (encode spaceAsPlus t) := by
  intro c member
  obtain ⟨b, _, inside⟩ := List.mem_flatMap.mp member
  exact encodeByte_clear b c inside

theorem encode_filled (real : t ≠ []) : encode spaceAsPlus t ≠ [] := by
  intro empty
  have again : decode true (encode spaceAsPlus t) = t := decode_encode (fun _ => rfl) t
  rw [empty] at again
  exact real again.symm

end Encoding

section Grammar

def Unreserved (c : Char) : Prop := c.isAlphanum = true ∨ c ∈ ['-', '.', '_', '~']

def CapitalHex (c : Char) : Prop := c ∈ "0123456789ABCDEF".toList

-- A plus sign is among the coded characters only where it stands for a space.
inductive Coded (spaceAsPlus : Bool) : Text → Prop where
  | nil : Coded spaceAsPlus []
  | plain {c : Char} {t : Text} : Unreserved c → Coded spaceAsPlus t → Coded spaceAsPlus (c :: t)
  | plus {t : Text} : spaceAsPlus = true → Coded spaceAsPlus t → Coded spaceAsPlus ('+' :: t)
  | escape {high low : Char} {t : Text} : CapitalHex high → CapitalHex low → Coded spaceAsPlus t →
      Coded spaceAsPlus ('%' :: high :: low :: t)

variable {spaceAsPlus : Bool} {s t : Text}

theorem hexDigit_capital {n : Nat} (small : n < 16) : CapitalHex (hexDigit n) := by
  have digits : ∀ n < 16, hexDigit n ∈ "0123456789ABCDEF".toList := by decide
  exact digits n small

theorem unreserved_char {b : UInt8} (plain : isUnreserved b = true) :
    Unreserved (Char.ofNat b.toNat) := by
  have letters : ∀ n < 0x80, (0x30 ≤ n ∧ n ≤ 0x39) ∨ (0x41 ≤ n ∧ n ≤ 0x5A) ∨ (0x61 ≤ n ∧ n ≤ 0x7A) →
      (Char.ofNat n).isAlphanum = true := by decide
  unfold isUnreserved at plain
  simp only [Bool.or_eq_true, Bool.and_eq_true, decide_eq_true_eq, beq_iff_eq, UInt8.le_iff_toNat_le,
    UInt8.reduceToNat] at plain
  rcases plain with (((((digit | upper) | lower) | rfl) | rfl) | rfl) | rfl
  · exact .inl (letters _ (by omega) (.inl digit))
  · exact .inl (letters _ (by omega) (.inr (.inl upper)))
  · exact .inl (letters _ (by omega) (.inr (.inr lower)))
  all_goals exact .inr (by decide)

theorem Coded.append (first : Coded spaceAsPlus s) (last : Coded spaceAsPlus t) :
    Coded spaceAsPlus (s ++ t) := by
  induction first with
  | nil => exact last
  | plain real _ ih => exact .plain real ih
  | plus setting _ ih => exact .plus setting ih
  | escape high low _ ih => exact .escape high low ih

theorem encodeByte_coded (b : UInt8) : Coded spaceAsPlus (encodeByte spaceAsPlus b) := by
  have byte := b.toNat_lt
  unfold encodeByte
  split
  · rename_i blank
    exact .plus (Bool.and_eq_true_iff.mp blank).1 .nil
  · split
    · rename_i plain
      exact .plain (unreserved_char plain) .nil
    · exact .escape (hexDigit_capital (by omega)) (hexDigit_capital (Nat.mod_lt _ (by decide))) .nil

theorem encode_coded (t : Text) : Coded spaceAsPlus (encode spaceAsPlus t) := by
  unfold encode
  induction Utf8.encode t with
  | nil => exact .nil
  | cons b bytes ih =>
    rw [List.flatMap_cons]
    exact (encodeByte_coded b).append ih

end Grammar

theorem decode_undoes_encode (t : Text) (spaceAsPlus plusIsSpace : Bool)
    (agree : spaceAsPlus = true → plusIsSpace = true) :
    decode plusIsSpace (encode spaceAsPlus t) = t ∧ Coded spaceAsPlus (encode spaceAsPlus t) :=
  ⟨decode_encode agree t, encode_coded t⟩

theorem decode_undoes_encode_signs : (true = true → true = true) ∧
    decode true (encode true "a+b %2é".toList) = "a+b %2é".toList ∧
      Coded true "a%2Bb+%252%C3%A9".toList := by
  have shown : encode true "a+b %2é".toList = "a%2Bb+%252%C3%A9".toList := by decide
  have both := decode_undoes_encode "a+b %2é".toList true true id
  refine ⟨id, both.1, ?_⟩
  rw [← shown]
  exact both.2

end HttpWire.Percent
