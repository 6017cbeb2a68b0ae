namespace HttpWire

-- `moreData` is the only cause that more input can cure.
inductive Error where
  | invalidUse
  | notHttp
  | unknownVersion
  | startLineMalformed
  | startLineTooLong
  | requestMethodUnrecognized
  | uriInvalid
  | headerTooLong
  | headerFolded
  | headerInvalidSyntax
  | headerDuplicateFraming
  | contentLengthMalformed
  | chunkStartTooLong
  | chunkLengthInvalid
  | chunkMalformed
  | chunkDataMalformed
  | chunkExtensionNotAllowed
  | chunkExtensionMalformed
  | multipartNoBoundary
  | multipartInvalid
  | multipartMissingPart
  | multipartMissingFinalBoundary
  | multipartInvalidFraming
  | trailerNotAllowed
  | textCodecFailure
  | userAbort
  | moreData
  | lengthRequired
  | unsupportedData
  deriving DecidableEq

namespace Error

def message : Error → String
  | invalidUse => "invalid use"
  | notHttp => "not an http message"
  | unknownVersion => "unknown http version"
  | startLineMalformed => "malformed start line"
  | startLineTooLong => "start line too long"
  | requestMethodUnrecognized => "unrecognized request method"
  | uriInvalid => "invalid request uri"
  | headerTooLong => "header section too long"
  | headerFolded => "folded header line"
  | headerInvalidSyntax => "invalid header syntax"
  | headerDuplicateFraming => "duplicate message framing headers"
  | contentLengthMalformed => "malformed content length"
  | chunkStartTooLong => "chunk size line too long"
  | chunkLengthInvalid => "invalid chunk size"
  | chunkMalformed => "malformed chunk size line"
  | chunkDataMalformed => "chunk data not terminated by crlf"
  | chunkExtensionNotAllowed => "chunk extensions not allowed"
  | chunkExtensionMalformed => "malformed chunk extension"
  | multipartNoBoundary => "multipart without boundary"
  | multipartInvalid => "multipart request without length"
  | multipartMissingPart => "multipart without parts"
  | multipartMissingFinalBoundary => "multipart without final boundary"
  | multipartInvalidFraming => "invalid multipart framing"
  | trailerNotAllowed => "trailers not allowed"
  | textCodecFailure => "body text decoding failed"
  | userAbort => "aborted by handler"
  | moreData => "more data required"
  | lengthRequired => "content length required"
  | unsupportedData => "unsupported body format"

def inspect (e : Error) : String :=
  "Error(\"" ++ e.message ++ "\")"

end Error
end HttpWire
