import HttpWire.Text.Basic

-- Marks in a buffer that may not be complete yet.
namespace HttpWire

def crlf : Bytes := [0x0D, 0x0A]

def dashes : Bytes := [0x2D, 0x2D]

inductive Opening where
  | present (rest : Bytes)
  | undecided
  | absent

def opening (mark bytes : Bytes) : Opening :=
  if mark.isPrefixOf bytes then .present (bytes.drop mark.length)
  else if bytes.isPrefixOf mark then .undecided
  else .absent

def heldLength (mark : Bytes) : Bytes → Nat
  | [] => 0
  | b :: rest =>
    if (b :: rest).isPrefixOf mark && (b :: rest) != mark then rest.length + 1
    else heldLength mark rest

inductive Sought where
  | found (data rest : Bytes)
  | missing (free held : Bytes)

def seek (mark bytes : Bytes) : Sought :=
  match cutMark mark bytes with
  | some (data, rest) => .found data rest
  | none =>
    let free := bytes.length - heldLength mark bytes
    .missing (bytes.take free) (bytes.drop free)

-- A line that has not ended leaves a last CR out of its length, since that may belong to the end.
inductive Line where
  | whole (line rest : Bytes)
  | unfinished
  | tooLong

def openLength (bytes : Bytes) : Nat :=
  bytes.length - (if bytes.getLast? = some 0x0D then 1 else 0)

def takeLine (room : Nat) (bytes : Bytes) : Line :=
  match cutMark crlf bytes with
  | some (line, rest) => if line.length + 2 ≤ room then .whole line rest else .tooLong
  | none => if openLength bytes + 2 ≤ room then .unfinished else .tooLong

def within (limit : Option Nat) (bytes : Bytes) : Bytes :=
  match limit with
  | some n => bytes.take n
  | none => bytes

theorem opening_present (mark bytes rest : Bytes) (here : opening mark bytes = .present rest) :
    bytes = mark ++ rest := by
  unfold opening at here
  split at here
  · rename_i starts
    cases here
    exact (List.prefix_iff_eq_append.mp (List.isPrefixOf_iff_prefix.mp starts)).symm
  · split at here <;> cases here

theorem seek_found (mark bytes data rest : Bytes) (sought : seek mark bytes = .found data rest) :
    bytes = data ++ (mark ++ rest) := by
  unfold seek at sought
  split at sought
  · rename_i cut
    cases sought
    exact cutMark_eq mark bytes data rest cut
  · cases sought

theorem seek_missing (mark bytes free held : Bytes) (sought : seek mark bytes = .missing free held) :
    bytes = free ++ held := by
  unfold seek at sought
  split at sought
  · cases sought
  · cases sought
    simp

theorem takeLine_whole (room : Nat) (bytes line rest : Bytes)
    (taken : takeLine room bytes = .whole line rest) :
    bytes = line ++ (crlf ++ rest) ∧ line.length + 2 ≤ room := by
  unfold takeLine at taken
  split at taken
  · rename_i cut
    split at taken
    · rename_i fits
      cases taken
      exact ⟨cutMark_eq crlf bytes line rest cut, fits⟩
    · cases taken
  · split at taken <;> cases taken

theorem within_append_drop (limit : Option Nat) (bytes : Bytes) :
    within limit bytes ++ bytes.drop (within limit bytes).length = bytes := by
  cases limit with
  | none => simp [within]
  | some n =>
    simp only [within, List.length_take]
    rcases Nat.le_total n bytes.length with fits | short
    · rw [Nat.min_eq_left fits, List.take_append_drop]
    · rw [Nat.min_eq_right short, List.drop_length, List.append_nil, List.take_of_length_le short]

-- What has been passed and what is still to come are the buffer together.
structure Cursor where
  passed : Bytes := []
  rest : Bytes
  deriving DecidableEq

namespace Cursor

def ofBytes (bytes : Bytes) : Cursor := { rest := bytes }

def position (c : Cursor) : Nat := c.passed.length

def startsWith (c : Cursor) (mark : Bytes) : Bool := mark.isPrefixOf c.rest

def advance (c : Cursor) (n : Nat) : Cursor :=
  ⟨c.passed ++ c.rest.take n, c.rest.drop n⟩

def take (c : Cursor) (n : Nat) : Bytes × Cursor := (c.rest.take n, c.advance n)

def next? (c : Cursor) : Option UInt8 := c.rest.head?

def rewind (c : Cursor) (place : Nat) : Cursor :=
  if place ≤ c.position then ⟨c.passed.take place, c.passed.drop place ++ c.rest⟩ else c

def since (c : Cursor) (place : Nat) : Bytes := c.passed.drop place

def upTo? (c : Cursor) (mark : Bytes) (eat : Bool) : Option (Bytes × Cursor) :=
  (cutMark mark c.rest).map fun sides =>
    (sides.1, c.advance (sides.1.length + if eat then mark.length else 0))

def upToBoundary (c : Cursor) (mark : Bytes) (eat : Bool) : Bytes × Bool × Cursor :=
  match seek mark c.rest with
  | .found data _ => (data, true, c.advance (data.length + if eat then mark.length else 0))
  | .missing free _ => (free, false, c.advance free.length)

def split (c : Cursor) (delimiter : UInt8) (limit : Nat) : List Bytes :=
  match limit with
  | 0 => splitAll delimiter c.rest
  | n + 1 => splitSome delimiter n c.rest

def limit (c : Cursor) (n : Nat) : Cursor := { c with rest := c.rest.take n }

def readWord? (c : Cursor) (radix : Nat) : Option (Nat × Cursor) :=
  (Numeral.readWord radix c.rest).map fun read =>
    (read.1, c.advance (c.rest.length - read.2.length))

def blanks (c : Cursor) : Nat :=
  (c.rest.takeWhile Text.isBlankByte).length

end Cursor
end HttpWire
