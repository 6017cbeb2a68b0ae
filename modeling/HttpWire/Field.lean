import HttpWire.Text.Charset

namespace HttpWire

structure Field where
  name : Text
  value : Text
  deriving DecidableEq

namespace Field

def wholeNames : List String :=
  ["WWW-Authenticate", "Proxy-Authorization", "Content-Type", "Date", "Set-Cookie"]

def isWhole (name : Text) : Bool := wholeNames.any fun w => name.named w

-- A value without elements counts as one empty element.
def listElements (value : Text) : List Text :=
  match ((splitAll ',' value).map Text.trim).filter (· ≠ []) with
  | [] => [[]]
  | elements => elements

theorem listElements_ne_nil (value : Text) : listElements value ≠ [] := by
  unfold listElements
  split
  · exact List.cons_ne_nil _ _
  · assumption

def elements (f : Field) : List Text :=
  if isWhole f.name then [f.value] else listElements f.value

def isControlByte (b : UInt8) : Bool := (b < 0x20 && b != 0x09) || b == 0x7F

theorem isControlByte_iff (b : UInt8) :
    isControlByte b = false ↔ (0x20 ≤ b ∨ b = 0x09) ∧ b ≠ 0x7F := by
  by_cases low : b < 0x20
  · simp [isControlByte, low, UInt8.not_le.mpr low]
  · simp [isControlByte, low, UInt8.not_lt.mp low]

-- A line that begins with a blank would continue the one before, which is not accepted.
def ofLine (line : Bytes) : Except Error Field :=
  if line.head?.any Text.isBlankByte then .error .headerFolded
  else if line.any isControlByte then .error .headerInvalidSyntax
  else
    match cutAt 0x3A line with
    | none => .error .headerInvalidSyntax
    | some (name, value) =>
      if name.getLast?.all Text.isBlankByte then .error .headerInvalidSyntax
      else .ok ⟨Utf8.lossy name, Utf8.lossy (trimBoth Text.isBlankByte value)⟩

end Field

structure MediaType where
  essence : Text
  parameters : List (Text × Text)
  deriving DecidableEq

namespace MediaType

def parameter? (piece : Text) : Option (Text × Text) :=
  (cutAt '=' piece).map fun sides => (Text.trim sides.1, Text.trim sides.2)

def ofValue (value : Text) : MediaType :=
  match splitAll ';' value with
  | [] => ⟨[], []⟩
  | essence :: pieces => ⟨Text.trim essence, pieces.filterMap parameter?⟩

def valuesOf (m : MediaType) (name : String) : List Text :=
  (m.parameters.filter (·.1.named name)).map fun row => Text.unquote row.2

def isMultipart (m : MediaType) : Bool := m.essence.beginsWithName "multipart/"

def isForm (m : MediaType) : Bool := m.essence.named "application/x-www-form-urlencoded"

end MediaType

-- Names keep the spelling and the place of their first appearance.
structure FieldMap where
  entries : List (Text × List Text) := []
  deriving DecidableEq

namespace FieldMap

def empty : FieldMap := {}

def isFor (name : Text) (entry : Text × List Text) : Bool := Text.sameName entry.1 name

def contains (m : FieldMap) (name : Text) : Bool := m.entries.any (isFor name)

def has (m : FieldMap) (name : String) : Bool := m.contains name.toList

def values (m : FieldMap) (name : Text) : List Text :=
  match m.entries.find? (isFor name) with
  | some entry => entry.2
  | none => []

def first? (m : FieldMap) (name : Text) : Option Text := (m.values name).head?

def joined? (m : FieldMap) (name : Text) : Option Text :=
  if m.contains name then some (Text.commaJoined (m.values name)) else none

def changeIn (name : Text) (change : List Text → List Text) :
    List (Text × List Text) → List (Text × List Text)
  | [] => []
  | entry :: entries =>
    if isFor name entry then (entry.1, change entry.2) :: entries
    else entry :: changeIn name change entries

def upsert (m : FieldMap) (name : Text) (change : List Text → List Text) (fresh : Text) :
    FieldMap :=
  if m.contains name then ⟨changeIn name change m.entries⟩
  else ⟨m.entries ++ [(name, [fresh])]⟩

def insert (m : FieldMap) (name value : Text) : FieldMap :=
  m.upsert name (· ++ [value]) value

def insertNew (m : FieldMap) (name value : Text) : FieldMap :=
  if (m.values name).any (Text.sameName value) then m else m.insert name value

def put (m : FieldMap) (name value : Text) : FieldMap :=
  m.upsert name (fun _ => [value]) value

def erase (m : FieldMap) (name : Text) : FieldMap :=
  ⟨m.entries.eraseP (isFor name)⟩

def eraseValue (m : FieldMap) (name : Text) (position : Nat) : FieldMap :=
  match (m.values name).eraseIdx position with
  | [] => m.erase name
  | _ => ⟨changeIn name (·.eraseIdx position) m.entries⟩

def valueAt? (m : FieldMap) (name : Text) (position : Nat) : Option Text :=
  (m.values name)[position]?

def fields (m : FieldMap) : List Field :=
  m.entries.flatMap fun entry => entry.2.map (Field.mk entry.1)

def ofFields (fields : List Field) : FieldMap :=
  fields.foldl (fun m f => m.insert f.name f.value) empty

def union (m other : FieldMap) : FieldMap :=
  other.fields.foldl (fun m f => m.insertNew f.name f.value) m

end FieldMap
end HttpWire
