import HttpWire.Text.Basic
import HttpWire.Error

-- One fault stands for a longest piece that could have begun a character.
namespace HttpWire.Utf8

structure Pending where
  lowest : UInt8
  highest : UInt8
  following : Nat
  bits : Nat
  deriving DecidableEq

inductive Lead where
  | whole (c : Char)
  | opened (p : Pending)
  | fault

-- The narrower ranges exclude overlong forms, surrogates and values above 10FFFF.
def lead (b : UInt8) : Lead :=
  if b < 0x80 then .whole (Char.ofNat b.toNat)
  else if b < 0xC2 then .fault
  else if b < 0xE0 then .opened ⟨0x80, 0xBF, 0, b.toNat % 32⟩
  else if b = 0xE0 then .opened ⟨0xA0, 0xBF, 1, 0⟩
  else if b = 0xED then .opened ⟨0x80, 0x9F, 1, 13⟩
  else if b < 0xF0 then .opened ⟨0x80, 0xBF, 1, b.toNat % 16⟩
  else if b = 0xF0 then .opened ⟨0x90, 0xBF, 2, 0⟩
  else if b < 0xF4 then .opened ⟨0x80, 0xBF, 2, b.toNat % 8⟩
  else if b = 0xF4 then .opened ⟨0x80, 0x8F, 2, 4⟩
  else .fault

def Pending.accepts (p : Pending) (b : UInt8) : Bool :=
  p.lowest ≤ b && b ≤ p.highest

def Pending.extended (p : Pending) (b : UInt8) : Nat :=
  p.bits * 64 + b.toNat % 64

-- A byte that does not continue a character is read afresh.
def readFrom : Option Pending → Bytes → List (Option Char)
  | none, [] => []
  | some _, [] => [none]
  | none, b :: bs =>
    match lead b with
    | .whole c => some c :: readFrom none bs
    | .opened p => readFrom (some p) bs
    | .fault => none :: readFrom none bs
  | some p, b :: bs =>
    if p.accepts b then
      match p.following with
      | 0 => some (Char.ofNat (p.extended b)) :: readFrom none bs
      | n + 1 => readFrom (some ⟨0x80, 0xBF, n, p.extended b⟩) bs
    else
      none :: match lead b with
        | .whole c => some c :: readFrom none bs
        | .opened q => readFrom (some q) bs
        | .fault => none :: readFrom none bs

def read (bytes : Bytes) : List (Option Char) := readFrom none bytes

def replacement : Char := Char.ofNat 0xFFFD

def lossy (bytes : Bytes) : Text :=
  (read bytes).map fun c => c.getD replacement

def decode? (bytes : Bytes) : Option Text :=
  if (read bytes).all Option.isSome then some (lossy bytes) else none

def encode (t : Text) : Bytes := t.flatMap String.utf8EncodeChar

@[simp] theorem lossy_nil : lossy [] = [] := rfl
@[simp] theorem encode_append (s t : Text) : encode (s ++ t) = encode s ++ encode t := by
  simp [encode]

end HttpWire.Utf8

namespace HttpWire

inductive Charset where
  | unknown
  | utf8
  | ascii
  | latin1
  deriving DecidableEq

namespace Charset

def labels : List (String × Charset) :=
  [ ("utf-8", utf8), ("utf8", utf8),
    ("us-ascii", ascii), ("ascii", ascii),
    ("iso-8859-1", latin1), ("iso8859-1", latin1), ("iso_8859-1", latin1),
    ("latin1", latin1), ("l1", latin1) ]

def ofLabel (label : Text) : Charset :=
  let bare : Text := trimBoth (fun c => c == '"' || c == ' ') label
  match labels.find? (fun row => bare.named row.1) with
  | some row => row.2
  | none => unknown

def label? : Charset → Option String
  | unknown => none
  | utf8 => some "utf-8"
  | ascii => some "us-ascii"
  | latin1 => some "iso-8859-1"

def decode (charset : Charset) (bytes : Bytes) : Except Error Text :=
  match charset with
  | unknown => .error .textCodecFailure
  | utf8 =>
    match Utf8.decode? bytes with
    | some t => .ok t
    | none => .error .textCodecFailure
  | ascii =>
    if bytes.all (· < 0x80) then .ok (Text.ofLatin1 bytes) else .error .textCodecFailure
  | latin1 => .ok (Text.ofLatin1 bytes)

end Charset
end HttpWire
