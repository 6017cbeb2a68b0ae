import HttpWire.Date
import HttpWire.Target
import HttpWire.Proofs.FieldText
import HttpWire.Proofs.FramingDecision

-- All that a writer makes itself can stand in the lines it is made for.
namespace HttpWire

-- Graphic characters and spaces, the texts of which no line is broken by.
def Plain (t : Text) : Prop := ∀ c ∈ t, Text.isGraphic c = true ∨ c = ' '

instance (t : Text) : Decidable (Plain t) :=
  List.decidableBAll (fun c => Text.isGraphic c = true ∨ c = ' ') t

-- Graphic characters, and no mark that would end the part which they are.
def Clear (marks : List Char) (t : Text) : Prop := ∀ c ∈ t, Text.isGraphic c = true ∧ c ∉ marks

instance (marks : List Char) (t : Text) : Decidable (Clear marks t) :=
  List.decidableBAll (fun c => Text.isGraphic c = true ∧ c ∉ marks) t

section Plain

theorem isGraphic_iff (c : Char) : Text.isGraphic c = true ↔ 0x21 ≤ c.toNat ∧ c.toNat ≤ 0x7E := by
  unfold Text.isGraphic
  rw [Bool.and_eq_true, decide_eq_true_eq, decide_eq_true_eq]

theorem isGraphicByte_iff (b : UInt8) :
    Text.isGraphicByte b = true ↔ 0x21 ≤ b.toNat ∧ b.toNat ≤ 0x7E := by
  unfold Text.isGraphicByte
  rw [Bool.and_eq_true, decide_eq_true_eq, decide_eq_true_eq, UInt8.le_iff_toNat_le, UInt8.le_iff_toNat_le]
  rfl

theorem graphic_uncontrolled (c : Char) (graphic : Text.isGraphic c = true) :
    Text.isControl c = false ∧ Text.isBlank c = false := by
  obtain ⟨low, high⟩ := (isGraphic_iff c).mp graphic
  constructor
  · unfold Text.isControl
    have above : decide (c.toNat < 0x20) = false := decide_eq_false (by omega)
    have below : (c.toNat == 0x7F) = false := beq_false_of_ne (by omega)
    rw [above, below]
    rfl
  · rw [Bool.eq_false_iff, ne_eq, Text.isBlank_iff]
    rintro (rfl | rfl)
    · exact absurd low (by decide)
    · exact absurd low (by decide)

theorem Plain.uncontrolled {t : Text} (plain : Plain t) : t.Uncontrolled := by
  intro c member
  rcases plain c member with graphic | rfl
  · exact (graphic_uncontrolled c graphic).1
  · rfl

theorem Plain.unbroken {t : Text} (plain : Plain t) : ∀ c ∈ t, c ≠ '\r' ∧ c ≠ '\n' := by
  intro c member
  have free := plain.uncontrolled c member
  refine ⟨?_, ?_⟩
  · intro same
    subst same
    cases free
  · intro same
    subst same
    cases free

theorem Plain.append {s t : Text} (first : Plain s) (last : Plain t) : Plain (s ++ t) := by
  intro c member
  rcases List.mem_append.mp member with before | behind
  · exact first c before
  · exact last c behind

theorem digit_graphic (c : Char) (digit : c.isDigit = true) : Text.isGraphic c = true := by
  have range : 48 ≤ c.toNat ∧ c.toNat ≤ 57 := by
    simpa [Char.isDigit, UInt32.le_iff_toNat_le] using digit
  exact (isGraphic_iff c).mpr ⟨by omega, by omega⟩

end Plain

section Clear

variable {marks : List Char} {s t : Text}

theorem Clear.append (first : Clear marks s) (last : Clear marks t) : Clear marks (s ++ t) := by
  intro c member
  rcases List.mem_append.mp member with before | behind
  · exact first c before
  · exact last c behind

theorem Clear.mono {fewer : List Char} (clear : Clear marks t) (inside : fewer ⊆ marks) :
    Clear fewer t := by
  intro c member
  obtain ⟨graphic, free⟩ := clear c member
  exact ⟨graphic, fun mark => free (inside mark)⟩

theorem Clear.free (clear : Clear marks t) {mark : Char} (listed : mark ∈ marks) : mark ∉ t :=
  fun member => (clear mark member).2 listed

theorem Clear.graphic (clear : Clear marks t) : ∀ c ∈ t, Text.isGraphic c = true :=
  fun c member => (clear c member).1

end Clear

section Lengths

variable (n : Nat)

theorem decimal_digits : ∀ c ∈ Numeral.decimal n, c.isDigit = true :=
  fun _ member => Nat.isDigit_of_mem_toDigits (by decide) (by decide) member

theorem decimalValue_eq (digits : Text) : Framing.decimalValue digits = Nat.ofDigitChars 10 digits 0 := by
  unfold Framing.decimalValue Nat.ofDigitChars
  simp only [Nat.mul_comm]
  rfl

theorem decimalValue_decimal : Framing.decimalValue (Numeral.decimal n) = n := by
  rw [decimalValue_eq]
  exact Nat.ofDigitChars_toDigits (by decide) (by decide)

theorem decimal_isLength (fits : n < Numeral.wordBound) : Framing.IsLength (Numeral.decimal n) := by
  refine ⟨Nat.toDigits_ne_nil, decimal_digits n, ?_⟩
  rw [decimalValue_decimal]
  exact fits

theorem decimal_plain : Plain (Numeral.decimal n) :=
  fun c member => .inl (digit_graphic c (decimal_digits n c member))

end Lengths

namespace Date

theorem twoDigits_plain (n : Nat) : Plain (twoDigits n) := by
  intro c member
  left
  apply digit_graphic
  unfold twoDigits at member
  rcases List.mem_cons.mp member with rfl | later
  · rw [Nat.isDigit_digitChar]
    exact decide_eq_true (Nat.mod_lt _ (by decide))
  · rw [List.mem_singleton.mp later, Nat.isDigit_digitChar]
    exact decide_eq_true (Nat.mod_lt _ (by decide))

theorem listed_plain (names : List String) (all : ∀ name ∈ names, name.toList.all Text.isGraphic = true)
    (i : Nat) : Plain (names.getD i "").toList := by
  intro c member
  left
  rw [List.getD_eq_getElem?_getD] at member
  cases found : names[i]? with
  | none =>
    rw [found] at member
    cases member
  | some name =>
    rw [found] at member
    exact List.all_eq_true.mp (all name (List.mem_of_getElem? found)) c member

theorem render_plain (seconds : Int) : Plain (render seconds) := by
  have days : ∀ n, Plain (weekday n).toList := fun n => listed_plain weekdays (by decide) _
  have names : ∀ n, Plain (months.getD n "").toList := listed_plain months (by decide)
  unfold render
  dsimp only
  exact (days _).append (by decide) |>.append (twoDigits_plain _) |>.append (by decide)
    |>.append (names _) |>.append (by decide) |>.append (twoDigits_plain _)
    |>.append (twoDigits_plain _) |>.append (by decide) |>.append (twoDigits_plain _)
    |>.append (by decide) |>.append (twoDigits_plain _) |>.append (by decide)
    |>.append (twoDigits_plain _) |>.append (by decide)

theorem render_trim (seconds : Int) : Text.trim (render seconds) = render seconds := by
  have named : ∀ k < 7, (weekdays.getD k "").toList ≠ [] ∧
      (weekdays.getD k "").toList.all (fun c => !Text.isBlank c) = true := by decide
  obtain ⟨real, letters⟩ := named ((clamp seconds / 86400 + 4) % 7) (Nat.mod_lt _ (by decide))
  apply trimBoth_stable
  · intro c first
    unfold render weekday at first
    simp only [List.append_assoc] at first
    rw [List.head?_append_of_ne_nil _ real] at first
    simpa using List.all_eq_true.mp letters c (List.mem_of_head? first)
  · intro c last
    unfold render at last
    rw [List.getLast?_append] at last
    cases last
    rfl

theorem render_ne_nil (seconds : Int) : render seconds ≠ [] :=
  List.append_ne_nil_of_right_ne_nil _ (by decide)

end Date

namespace Percent

theorem escape_graphic (b : UInt8) : ∀ c ∈ escape b, Text.isGraphic c = true := by
  have digits : ∀ n < 16, Text.isGraphic (hexDigit n) = true := by decide
  have high : b.toNat / 16 < 16 := by
    have byte := b.toNat_lt
    omega
  intro c member
  unfold escape at member
  simp only [List.mem_cons, List.not_mem_nil, or_false] at member
  rcases member with rfl | rfl | rfl
  · decide
  · exact digits _ high
  · exact digits _ (Nat.mod_lt _ (by decide))

theorem encodeTarget_graphic (t : Text) : ∀ c ∈ encodeTarget t, Text.isGraphic c = true := by
  intro c member
  obtain ⟨b, _, inside⟩ := List.mem_flatMap.mp member
  split at inside
  · rename_i graphic
    have range := (isGraphicByte_iff b).mp graphic
    rw [List.mem_singleton.mp inside, isGraphic_iff, Utf8.ofNat_small _ (by omega)]
    exact range
  · exact escape_graphic b c inside

theorem encodeTarget_ne_nil (t : Text) (real : t ≠ []) : encodeTarget t ≠ [] := by
  intro empty
  have bytes := encode_ne_nil t real
  cases encoded : Utf8.encode t with
  | nil => exact bytes encoded
  | cons b later =>
    unfold encodeTarget at empty
    rw [encoded, List.flatMap_cons] at empty
    have first := (List.append_eq_nil_iff.mp empty).1
    split at first <;> cases first

end Percent

section Ascii

variable {t : Text}

theorem encode_small (small : ∀ c ∈ t, c.toNat < 0x80) :
    Utf8.encode t = t.map fun c => UInt8.ofNat c.toNat := by
  induction t with
  | nil => rfl
  | cons c t ih =>
    have first := small c (List.mem_cons_self ..)
    have whole : Utf8.encode (c :: t) = String.utf8EncodeChar c ++ Utf8.encode t := rfl
    rw [whole, Utf8.encodeChar_eq, if_pos (by omega), ih fun d member => small d (List.mem_cons_of_mem c member)]
    rfl

theorem graphic_small (graphic : ∀ c ∈ t, Text.isGraphic c = true) : ∀ c ∈ t, c.toNat < 0x80 := by
  intro c member
  have range := (isGraphic_iff c).mp (graphic c member)
  omega

theorem encode_graphic (graphic : ∀ c ∈ t, Text.isGraphic c = true) :
    ∀ b ∈ Utf8.encode t, Text.isGraphicByte b = true := by
  intro b member
  rw [encode_small (graphic_small graphic)] at member
  obtain ⟨c, inside, rfl⟩ := List.mem_map.mp member
  have range := (isGraphic_iff c).mp (graphic c inside)
  rw [isGraphicByte_iff, Utf8.toNat_byte c.toNat (by omega)]
  exact range

theorem ofLatin1_encode (small : ∀ c ∈ t, c.toNat < 0x80) : Text.ofLatin1 (Utf8.encode t) = t := by
  unfold Text.ofLatin1
  rw [encode_small small, List.map_map]
  have same : ∀ c ∈ t, ((fun b : UInt8 => Char.ofNat b.toNat) ∘ fun c => UInt8.ofNat c.toNat) c = c := by
    intro c member
    have below := small c member
    simp only [Function.comp, Utf8.toNat_byte c.toNat (by omega), Char.ofNat_toNat]
  rw [List.map_congr_left same, List.map_id']

-- Graphic bytes are those of a text of graphic characters, which they are read as.
theorem ofLatin1_graphic {bytes : Bytes} (graphic : bytes.all Text.isGraphicByte = true) :
    (∀ c ∈ Text.ofLatin1 bytes, Text.isGraphic c = true) ∧ Utf8.encode (Text.ofLatin1 bytes) = bytes := by
  have range : ∀ b ∈ bytes, 0x21 ≤ b.toNat ∧ b.toNat ≤ 0x7E := fun b member =>
    (isGraphicByte_iff b).mp (List.all_eq_true.mp graphic b member)
  have value : ∀ b ∈ bytes, (Char.ofNat b.toNat).toNat = b.toNat := fun b member =>
    Utf8.ofNat_small b.toNat (Nat.lt_of_le_of_lt (range b member).2 (by decide))
  have shown : ∀ c ∈ Text.ofLatin1 bytes, Text.isGraphic c = true := by
    intro c member
    obtain ⟨b, inside, rfl⟩ := List.mem_map.mp member
    rw [isGraphic_iff, value b inside]
    exact range b inside
  refine ⟨shown, ?_⟩
  rw [encode_small (graphic_small shown), Text.ofLatin1, List.map_map]
  refine (List.map_congr_left fun b member => ?_).trans (List.map_id' bytes)
  simp [value b member]

theorem encodeTarget_graphic_text (graphic : ∀ c ∈ t, Text.isGraphic c = true) :
    Percent.encodeTarget t = t := by
  have kept : Percent.encodeTarget t = Text.ofLatin1 (Utf8.encode t) := by
    have each := encode_graphic graphic
    unfold Percent.encodeTarget Text.ofLatin1
    generalize Utf8.encode t = bytes at each
    induction bytes with
    | nil => rfl
    | cons b bytes ih =>
      rw [List.flatMap_cons, List.map_cons, if_pos (each b (List.mem_cons_self ..)),
        ih fun a member => each a (List.mem_cons_of_mem b member)]
      rfl
  rw [kept, ofLatin1_encode (graphic_small graphic)]

end Ascii

namespace Status

theorem phrase_plain (code : Nat) : (phrase code).toList ≠ [] ∧ Plain (phrase code).toList := by
  have rows : ∀ row ∈ registered, row.2.toList ≠ [] ∧ Plain row.2.toList := by decide
  unfold phrase
  split
  · rename_i row found
    exact rows row (List.mem_of_find?_eq_some found)
  · unfold classPhrase
    split <;> decide

end Status

end HttpWire
