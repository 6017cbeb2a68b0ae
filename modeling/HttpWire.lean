import HttpWire.Cursor
import HttpWire.Date
import HttpWire.Message.Assembly
import HttpWire.Message.Inspect
import HttpWire.Proofs.Assembling
import HttpWire.Proofs.ChunkedReading
import HttpWire.Proofs.Delimiting
import HttpWire.Proofs.EventProtocol
import HttpWire.Proofs.Fragments
import HttpWire.Proofs.FramingLines
import HttpWire.Proofs.HeaderVerdict
import HttpWire.Proofs.MultipartReading
import HttpWire.Proofs.Receiving
import HttpWire.Proofs.Rereading
import HttpWire.Stream
import HttpWire.Writer
import HttpWire.Proofs.Rounds
import HttpWire.Proofs.PendingInput
import HttpWire.Proofs.Refusal
import HttpWire.Proofs.Registers.Machine
import HttpWire.Proofs.Registers.Agreement
import HttpWire.Proofs.Registers.Parts
import HttpWire.Proofs.Registers.Soundness
import HttpWire.Proofs.FieldLines
import HttpWire.Proofs.SplitCodings
import HttpWire.Proofs.CodedMessages
import HttpWire.Proofs.WrittenLengths
import HttpWire.Proofs.Multimap
import HttpWire.Proofs.Ledger.Replacing
import HttpWire.Proofs.Ledger.ContentTypes
import HttpWire.Proofs.Ledger.Decoding
import HttpWire.Proofs.Drafting
import HttpWire.Proofs.GatheredLines
import HttpWire.Proofs.Policies
import HttpWire.Proofs.Persistence
import HttpWire.Proofs.WrittenLines
import HttpWire.Proofs.RawBodies
import HttpWire.Proofs.SkippedStart
import HttpWire.Proofs.StartLines
import HttpWire.Proofs.TargetParts
import HttpWire.Proofs.PercentCoding
import HttpWire.Proofs.AddedParameters
import HttpWire.Proofs.DateText
import HttpWire.Proofs.MarkSearch
import HttpWire.Proofs.QueryStrings
import HttpWire.Proofs.TargetCoding
import HttpWire.Proofs.LineGrammar
import HttpWire.Proofs.Numerals
import HttpWire.Proofs.CursorParts
