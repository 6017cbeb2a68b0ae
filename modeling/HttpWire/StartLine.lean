import HttpWire.Text.Charset

namespace HttpWire

inductive Version where
  | v10
  | v11
  deriving DecidableEq

namespace Version

def digits : Version → String
  | v10 => "1.0"
  | v11 => "1.1"

def text : Version → String
  | v10 => "HTTP/1.0"
  | v11 => "HTTP/1.1"

def inspect (v : Version) : String := "\"" ++ v.text ++ "\""

def ofDigits? (bytes : Bytes) : Option Version :=
  [v10, v11].find? fun v => ascii v.digits == bytes

def preferred : Version := v11

def atLeast : Version → Version → Bool
  | v10, v11 => false
  | _, _ => true

end Version

inductive Method where
  | get
  | head
  | post
  | put
  | delete
  | connect
  | options
  | trace
  | patch
  deriving DecidableEq

namespace Method

def all : List Method := [get, head, post, put, delete, connect, options, trace, patch]

def token : Method → String
  | get => "GET"
  | head => "HEAD"
  | post => "POST"
  | put => "PUT"
  | delete => "DELETE"
  | connect => "CONNECT"
  | options => "OPTIONS"
  | trace => "TRACE"
  | patch => "PATCH"

def ofToken? (bytes : Bytes) : Option Method :=
  all.find? fun m => ascii m.token == bytes

def bodyless : Method → Bool
  | get | head | delete | trace => true
  | post | put | connect | options | patch => false

theorem ofToken_token (m : Method) : ofToken? (ascii m.token) = some m := by
  cases m <;> decide

end Method
end HttpWire

namespace HttpWire.Status

def registered : List (Nat × String) :=
  [ (100, "Continue"), (101, "Switching Protocols"),
    (200, "OK"), (201, "Created"), (202, "Accepted"),
    (203, "Non-Authoritative Information"), (204, "No Content"), (205, "Reset Content"),
    (206, "Partial Content"),
    (300, "Multiple Choices"), (301, "Moved Permanently"), (302, "Found"), (303, "See Other"),
    (304, "Not Modified"), (305, "Use Proxy"), (307, "Temporary Redirect"),
    (308, "Permanent Redirect"),
    (400, "Bad Request"), (401, "Unauthorized"), (402, "Payment Required"),
    (403, "Forbidden"), (404, "Not Found"), (405, "Method Not Allowed"),
    (406, "Not Acceptable"), (407, "Proxy Authentication Required"), (408, "Request Timeout"),
    (409, "Conflict"), (410, "Gone"), (411, "Length Required"), (412, "Precondition Failed"),
    (413, "Content Too Large"), (414, "URI Too Long"), (415, "Unsupported Media Type"),
    (416, "Range Not Satisfiable"), (417, "Expectation Failed"), (421, "Misdirected Request"),
    (422, "Unprocessable Content"), (426, "Upgrade Required"), (428, "Precondition Required"),
    (429, "Too Many Requests"), (431, "Request Header Fields Too Large"),
    (500, "Internal Server Error"), (501, "Not Implemented"), (502, "Bad Gateway"),
    (503, "Service Unavailable"), (504, "Gateway Timeout"),
    (505, "HTTP Version Not Supported") ]

def classPhrase (code : Nat) : String :=
  match code / 100 with
  | 1 => "Informational"
  | 2 => "Success"
  | 3 => "Redirect"
  | 4 => "Client Error"
  | 5 => "Server Error"
  | _ => "Unknown"

def phrase (code : Nat) : String :=
  match registered.find? (fun row => row.1 == code) with
  | some row => row.2
  | none => classPhrase code

def bodyless (code : Nat) : Bool :=
  (100 ≤ code && code ≤ 199) || code == 204 || code == 304

end HttpWire.Status

namespace HttpWire

inductive StartLine where
  | request (method : Method) (uri : Text) (version : Version)
  | response (version : Version) (status : Nat) (reason : Text)
  deriving DecidableEq

inductive Kind where
  | unknown
  | request
  | response
  deriving DecidableEq

inductive Sender where
  | unknown
  | client (method : Method)
  | server (status : Nat)
  deriving DecidableEq

def Sender.kind : Sender → Kind
  | .unknown => .unknown
  | .client _ => .request
  | .server _ => .response

namespace StartLine

def sender : StartLine → Sender
  | request method _ _ => .client method
  | response _ status _ => .server status

def version : StartLine → Version
  | request _ _ version => version
  | response version _ _ => version

def protocol : Bytes := ascii "HTTP/"

def version? (bytes : Bytes) : Except Error Version :=
  if protocol.isPrefixOf bytes then
    match Version.ofDigits? (bytes.drop protocol.length) with
    | none => .error .unknownVersion
    | some version => .ok version
  else .error .notHttp

def status? (bytes : Bytes) : Option Nat :=
  if bytes.length = 3 ∧ bytes.all (Numeral.isDigit 10) then some (Numeral.value 10 bytes) else none

-- The first fault in this order is reported: an empty part or a fourth one, the method, the
-- target, the version.
def ofRequest (method uri version : Bytes) : Except Error StartLine :=
  if method = [] ∨ uri = [] ∨ version.contains 0x20 then .error .startLineMalformed
  else
    match Method.ofToken? method with
    | none => .error .requestMethodUnrecognized
    | some method =>
      if uri.all Text.isGraphicByte then
        (version? version).map (request method (Text.ofLatin1 uri))
      else .error .uriInvalid

-- The version is looked at before the status, and the reason must not be empty.
def ofResponse (version status reason : Bytes) : Except Error StartLine :=
  match version? version, status? status with
  | .error e, _ => .error e
  | .ok _, none => .error .startLineMalformed
  | .ok version, some status =>
    if reason = [] then .error .startLineMalformed
    else .ok (response version status (Utf8.lossy reason))

def ofLine (line : Bytes) : Except Error StartLine :=
  if line.any fun b => b == 0x0D || b == 0x0A then .error .startLineMalformed
  else
    match splitSome 0x20 2 line with
    | [first, second, third] =>
      if protocol.isPrefixOf first then ofResponse first second third
      else ofRequest first second third
    | _ => .error .startLineMalformed

def bytes : StartLine → Bytes
  | request method uri version =>
    ascii method.token ++ [0x20] ++ Utf8.encode uri ++ [0x20] ++ ascii version.text
  | response version status reason =>
    ascii version.text ++ [0x20] ++ Utf8.encode (Numeral.decimal status) ++ [0x20]
      ++ Utf8.encode reason

end StartLine
end HttpWire
