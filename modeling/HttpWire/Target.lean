import HttpWire.Field

namespace HttpWire.Percent

def percent : UInt8 := 0x25
def plus : UInt8 := 0x2B
def space : UInt8 := 0x20

def isUnreserved (b : UInt8) : Bool :=
  (0x30 ≤ b && b ≤ 0x39) || (0x41 ≤ b && b ≤ 0x5A) || (0x61 ≤ b && b ≤ 0x7A)
    || b == 0x2D || b == 0x2E || b == 0x5F || b == 0x7E

def hexDigit (n : Nat) : Char := (Nat.digitChar n).toUpper

def escape (b : UInt8) : Text :=
  ['%', hexDigit (b.toNat / 16), hexDigit (b.toNat % 16)]

def unescape? (high low : UInt8) : Option UInt8 :=
  match Numeral.digit? 16 high, Numeral.digit? 16 low with
  | some h, some l => some (UInt8.ofNat (h * 16 + l))
  | _, _ => none

def decodeBytes (plusIsSpace : Bool) : Bytes → Bytes
  | [] => []
  | [b] => [if plusIsSpace && b == plus then space else b]
  | [b, c] => (if plusIsSpace && b == plus then space else b) :: decodeBytes plusIsSpace [c]
  | b :: high :: low :: rest =>
    if b == percent then
      match unescape? high low with
      | some c => c :: decodeBytes plusIsSpace rest
      | none => b :: decodeBytes plusIsSpace (high :: low :: rest)
    else
      (if plusIsSpace && b == plus then space else b)
        :: decodeBytes plusIsSpace (high :: low :: rest)

def decode (plusIsSpace : Bool) (t : Text) : Text :=
  Utf8.lossy (decodeBytes plusIsSpace (Utf8.encode t))

def encodeByte (spaceAsPlus : Bool) (b : UInt8) : Text :=
  if spaceAsPlus && b == space then ['+']
  else if isUnreserved b then [Char.ofNat b.toNat]
  else escape b

def encode (spaceAsPlus : Bool) (t : Text) : Text :=
  (Utf8.encode t).flatMap (encodeByte spaceAsPlus)

-- A target keeps its delimiters and escapes; only what cannot stand in one is coded.
def encodeTarget (t : Text) : Text :=
  (Utf8.encode t).flatMap fun b => if Text.isGraphicByte b then [Char.ofNat b.toNat] else escape b

end HttpWire.Percent

namespace HttpWire.Query

def cutPair (pair : Text) : Text × Text :=
  (cutAt '=' pair).getD (pair, [])

def parse (query : Text) : FieldMap :=
  (((splitAll '&' query).map cutPair).filter (·.1 ≠ [])).foldl
    (fun m pair => m.insert (Percent.decode true pair.1) (Percent.decode true pair.2))
    .empty

def pairText (spaceAsPlus : Bool) (f : Field) : Text :=
  Percent.encode spaceAsPlus f.name ++ '=' :: Percent.encode spaceAsPlus f.value

def addTo (uri : Text) (params : FieldMap) (spaceAsPlus : Bool) : Text :=
  match (params.fields.filter (·.value ≠ [])).map (pairText spaceAsPlus) with
  | [] => uri
  | pairs => uri ++ (if uri.contains '?' then '&' else '?') :: List.intercalate ['&'] pairs

end HttpWire.Query

namespace HttpWire

structure Target where
  host : Option Text := none
  port : Option Nat := none
  path : Option Text := none
  query : Option Text := none
  deriving DecidableEq

namespace Target

def portBound : Nat := 65536

def port? (t : Text) : Option Nat := Numeral.signedBelow? portBound t

-- Only a colon right after the closing bracket begins a port.
def cutHost (t : Text) : Text × Option Text :=
  let bracketed := if t.head? = some '[' then cutAt ']' t else none
  match bracketed with
  | some (inside, rest) => (inside ++ [']'], if rest.head? = some ':' then some rest.tail else none)
  | none =>
    match cutAt ':' t with
    | some (host, port) => (host, some port)
    | none => (t, none)

def authority? (t : Text) : Option (Text × Option Nat) :=
  let place := match cutAtLast '@' t with
    | some (_, place) => place
    | none => t
  match cutHost place with
  | ([], _) => none
  | (host, none) => some (host, none)
  | (host, some port) => (port? port).map fun n => (host, some n)

def ofPath (t : Text) : Target :=
  match cutAt '?' t with
  | some (path, query) => { path := some path, query := some query }
  | none => { path := some t }

def endsAuthority (c : Char) : Bool := c == '/' || c == '?'

def ofAbsolute? (rest : Text) : Option Target :=
  (authority? (rest.takeWhile fun c => !endsAuthority c)).map fun place =>
    let tail := ofPath (rest.dropWhile fun c => !endsAuthority c)
    { tail with
      host := some place.1
      port := place.2
      path := if tail.path = some [] then some ['/'] else tail.path }

def parse? (uri : Text) : Option Target :=
  if uri = [] ∨ uri.all Text.isGraphic = false then none
  else
    let bare := match cutAt '#' uri with
      | some (bare, _) => bare
      | none => uri
    if bare = ['*'] then some { path := some bare }
    else if bare.head? = some '/' then some (ofPath bare)
    else
      match cutMark "://".toList bare with
      | some ([], _) => none
      | some (_, rest) => ofAbsolute? rest
      | none => (authority? bare).map fun place => { host := some place.1, port := place.2 }

-- A scheme in front is tolerated, and a port that is no number is dropped.
def ofHostField? (value : Text) : Option (Text × Option Nat) :=
  let rest := match cutMark "://".toList value with
    | some (_, rest) => rest
    | none => value
  match rest.takeWhile fun c => !endsAuthority c with
  | [] => none
  | place => some ((cutHost place).1, (cutHost place).2.bind port?)

end Target
end HttpWire
