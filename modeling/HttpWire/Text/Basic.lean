import HttpWire.Split

-- Names in HTTP are compared without regard to the case of ASCII letters, and only of those.
namespace HttpWire

abbrev Text := List Char
abbrev Bytes := List UInt8

def ascii (t : String) : Bytes :=
  t.toList.map fun c => UInt8.ofNat c.toNat

theorem toLower_cases (c : Char) :
    c.toLower = c ∨ (65 ≤ c.toNat ∧ c.toNat ≤ 90) ∧ c.toLower.toNat = c.toNat + 32 := by
  unfold Char.toLower
  split
  · rename_i upper
    have low : 65 ≤ c.val.toNat := UInt32.le_iff_toNat_le.mp upper.1
    have high : c.val.toNat ≤ 90 := UInt32.le_iff_toNat_le.mp upper.2
    have step : ('a'.val - 'A'.val).toNat = 32 := by decide
    refine .inr ⟨⟨low, high⟩, ?_⟩
    show (c.val + ('a'.val - 'A'.val)).toNat = c.val.toNat + 32
    rw [UInt32.toNat_add, step]
    exact Nat.mod_eq_of_lt (by omega)
  · exact .inl rfl

theorem toLower_toLower (c : Char) : c.toLower.toLower = c.toLower := by
  rcases toLower_cases c.toLower with same | ⟨upper, _⟩
  · exact same
  · rcases toLower_cases c with same | ⟨_, moved⟩
    · rw [same, same]
    · omega

namespace Text

def lower (t : Text) : Text := t.map Char.toLower

def sameName (a b : Text) : Bool := lower a == lower b

def named (t : Text) (name : String) : Bool := sameName t name.toList

def beginsWithName (t : Text) (name : String) : Bool :=
  sameName (t.take name.toList.length) name.toList

def isBlank (c : Char) : Bool := c == ' ' || c == '\t'

def trim (t : Text) : Text := trimBoth isBlank t

def unquote (t : Text) : Text := trimBoth (· == '"') t

def isGraphic (c : Char) : Bool := 0x21 ≤ c.toNat && c.toNat ≤ 0x7E

def isGraphicByte (b : UInt8) : Bool := 0x21 ≤ b && b ≤ 0x7E

def isBlankByte (b : UInt8) : Bool := b == 0x20 || b == 0x09

theorem isBlank_iff (c : Char) : isBlank c = true ↔ c = ' ' ∨ c = '\t' := by
  simp [isBlank]

theorem isBlankByte_iff (b : UInt8) : isBlankByte b = true ↔ b = 0x20 ∨ b = 0x09 := by
  simp [isBlankByte]

def isSpaceByte (b : UInt8) : Bool :=
  isBlankByte b || b == 0x0A || b == 0x0C || b == 0x0D

def commaJoined (pieces : List Text) : Text :=
  List.intercalate [',', ' '] pieces

def ofLatin1 (bytes : Bytes) : Text :=
  bytes.map fun b => Char.ofNat b.toNat

theorem lower_lower (t : Text) : lower (lower t) = lower t := by
  unfold lower
  rw [List.map_map]
  exact List.map_congr_left fun c _ => toLower_toLower c

theorem named_lower (t : Text) (name : String) : (lower t).named name = t.named name := by
  unfold named sameName
  rw [lower_lower]

theorem sameName_refl (t : Text) : sameName t t = true := by
  simp [sameName]

theorem sameName_symm (a b : Text) : sameName a b = sameName b a := by
  simp only [sameName, Bool.beq_comm]

end Text
end HttpWire

namespace HttpWire.Numeral

def wordBound : Nat := Nat.pow 2 64

def decimal (n : Nat) : Text := Nat.toDigits 10 n

def digit? (radix : Nat) (b : UInt8) : Option Nat :=
  let face :=
    if 0x30 ≤ b && b ≤ 0x39 then some (b.toNat - 0x30)
    else if 0x61 ≤ b && b ≤ 0x7A then some (b.toNat - 0x61 + 10)
    else if 0x41 ≤ b && b ≤ 0x5A then some (b.toNat - 0x41 + 10)
    else none
  face.filter (· < radix)

def isDigit (radix : Nat) (b : UInt8) : Bool := (digit? radix b).isSome

def value (radix : Nat) (digits : Bytes) : Nat :=
  digits.foldl (fun n b => n * radix + (digit? radix b).getD 0) 0

-- The value must fit a word however many leading zeros it has.
def readWord (radix : Nat) (bytes : Bytes) : Option (Nat × Bytes) :=
  let digits := bytes.takeWhile (isDigit radix)
  if digits ≠ [] ∧ value radix digits < wordBound then
    some (value radix digits, bytes.dropWhile (isDigit radix))
  else none

def ofDigits? (t : Text) : Option Nat :=
  if t ≠ [] ∧ t.all Char.isDigit then
    some (t.foldl (fun n c => n * 10 + (c.toNat - 48)) 0)
  else none

def below? (bound : Nat) (t : Text) : Option Nat :=
  (ofDigits? t).filter (· < bound)

def signedBelow? (bound : Nat) : Text → Option Nat
  | '+' :: t => below? bound t
  | t => below? bound t

end HttpWire.Numeral
