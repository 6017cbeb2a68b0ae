import HttpWire.Message.Basic

namespace HttpWire.Quoted

def escaped (c : Char) : Text :=
  if c = '"' then ['\\', '"']
  else if c = '\\' then ['\\', '\\']
  else if c = '\n' then ['\\', 'n']
  else if c = '\r' then ['\\', 'r']
  else if c = '\t' then ['\\', 't']
  else if c = '\x00' then ['\\', '0']
  else if c.toNat < 0x20 || c.toNat = 0x7F then
    "\\u\x7b".toList ++ Nat.toDigits 16 c.toNat ++ "\x7d".toList
  else [c]

def encode (t : Text) : Text := '"' :: t.flatMap escaped ++ ['"']

end HttpWire.Quoted

-- The form of a message shown for inspection.
namespace HttpWire

def FieldMap.inspect (m : FieldMap) : Text :=
  ['\x7b'] ++ Text.commaJoined
    (m.fields.map fun f => Quoted.encode f.name ++ [':', ' '] ++ Quoted.encode f.value)
    ++ ['\x7d']

namespace Message

def kindName : Kind → String
  | .unknown => "Unknown"
  | .request => "Request"
  | .response => "Response"

def optional (value : Option Text) : Text :=
  match value with
  | none => "None".toList
  | some t => "Some(".toList ++ t ++ [')']

def startParts (m : Message) : List (String × Text) :=
  match m.kind with
  | .unknown => []
  | .request =>
    [ ("method", optional (m.method.map (·.token.toList))),
      ("uri", optional (m.uri.map Quoted.encode)) ]
  | .response =>
    [ ("status_code", Numeral.decimal m.status),
      ("reason_phrase", optional (m.reason.map Quoted.encode)) ]

def inspect (m : Message) : Text :=
  let parts :=
    [ ("kind", (kindName m.kind).toList),
      ("version", optional (m.version.map (·.inspect.toList))) ]
    ++ m.startParts
    ++ [ ("headers", m.headers.inspect),
         ("body_len", Numeral.decimal m.body.length) ]
  "HttpMessage \x7b ".toList
    ++ Text.commaJoined (parts.map fun part => part.1.toList ++ [':', ' '] ++ part.2)
    ++ " \x7d".toList

end Message
end HttpWire
