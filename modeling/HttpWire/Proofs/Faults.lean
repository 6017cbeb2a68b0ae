import HttpWire.Reader.Read

-- A reader that lacks input waits for it; no further input can cure what it reports.
namespace HttpWire

theorem map_final {α β : Type} {result : Except Error α} (change : α → β)
    (final : result ≠ .error .moreData) : result.map change ≠ .error .moreData := by
  cases result with
  | ok a => nofun
  | error e =>
    intro failed
    cases failed
    exact final rfl

section Lines

theorem StartLine.version_final (bytes : Bytes) : StartLine.version? bytes ≠ .error .moreData := by
  unfold StartLine.version?
  split
  · split <;> nofun
  · nofun

theorem StartLine.ofRequest_final (method uri version : Bytes) :
    StartLine.ofRequest method uri version ≠ .error .moreData := by
  unfold StartLine.ofRequest
  split
  · nofun
  · split
    · nofun
    · split
      · exact map_final _ (StartLine.version_final version)
      · nofun

theorem StartLine.ofResponse_final (version status reason : Bytes) :
    StartLine.ofResponse version status reason ≠ .error .moreData := by
  unfold StartLine.ofResponse
  cases read : StartLine.version? version with
  | error e =>
    intro failed
    cases failed
    exact StartLine.version_final version read
  | ok v =>
    cases StartLine.status? status with
    | none => nofun
    | some number =>
      dsimp only
      split <;> nofun

theorem StartLine.ofLine_final (line : Bytes) : StartLine.ofLine line ≠ .error .moreData := by
  unfold StartLine.ofLine
  split
  · nofun
  · split
    · split
      · exact StartLine.ofResponse_final _ _ _
      · exact StartLine.ofRequest_final _ _ _
    · nofun

theorem Field.ofLine_final (line : Bytes) : Field.ofLine line ≠ .error .moreData := by
  unfold Field.ofLine
  split
  · nofun
  · split
    · nofun
    · split
      · nofun
      · split <;> nofun

theorem ChunkLine.ofLine_final (line : Bytes) : ChunkLine.ofLine line ≠ .error .moreData := by
  unfold ChunkLine.ofLine
  split
  · nofun
  · split
    · nofun
    · split <;> nofun

theorem ChunkLine.extensions_final {line : Bytes} {chunk : ChunkLine}
    (read : ChunkLine.ofLine line = .ok chunk) : chunk.fault ≠ some .moreData := by
  unfold ChunkLine.ofLine at read
  split at read
  · cases read
  · split at read
    · cases read
      nofun
    · split at read
      · cases read
        dsimp only
        split <;> nofun
      · cases read

end Lines

namespace Framing

variable (fr : Framing)

theorem boundary_final (value : Text) : boundary? value ≠ .error .moreData := by
  unfold boundary?
  dsimp only
  split
  · split <;> nofun
  · nofun

theorem note_final (f : Field) : fr.note f ≠ .error .moreData := by
  unfold note
  split
  · unfold noteLength
    split
    · nofun
    · split <;> nofun
  · split
    · unfold noteCoding
      split
      · split <;> nofun
      · nofun
    · split
      · exact map_final _ (boundary_final f.value)
      · nofun

theorem settleRequest_final (bodyless : Bool) : fr.settleRequest bodyless ≠ .error .moreData := by
  unfold settleRequest
  split
  · nofun
  · split <;> nofun

theorem settle_final (sender : Sender) : fr.settle sender ≠ .error .moreData := by
  cases sender with
  | unknown => exact fr.settleRequest_final _
  | client method => exact fr.settleRequest_final _
  | server status => nofun

end Framing

namespace Reader

variable (r : Reader) (bytes : Bytes) (told : List Event)

section Turns

theorem startTurn_final : startTurn r bytes ≠ .fault told .moreData := by
  unfold startTurn
  split
  · nofun
  · dsimp only
    split <;> nofun

theorem startLineTurn_final : startLineTurn r bytes ≠ .fault told .moreData := by
  unfold startLineTurn
  split
  · nofun
  · nofun
  · rename_i line rest _
    cases read : StartLine.ofLine line with
    | ok start => nofun
    | error e =>
      intro failed
      cases failed
      exact StartLine.ofLine_final line read

theorem sectionLine_final (size : Nat) : sectionLine size bytes ≠ .fault .moreData := by
  unfold sectionLine
  split
  · nofun
  · nofun
  · nofun
  · rename_i line rest _ _
    cases read : Field.ofLine line with
    | ok f => nofun
    | error e =>
      intro failed
      cases failed
      exact Field.ofLine_final line read

theorem headerTurn_final (size : Nat) : headerTurn r size bytes ≠ .fault told .moreData := by
  unfold headerTurn
  cases line : sectionLine size bytes with
  | fault e =>
    intro failed
    cases failed
    exact sectionLine_final bytes size line
  | unfinished => nofun
  | closed rest =>
    dsimp only
    cases settled : r.framing.settle r.sender with
    | ok framing => nofun
    | error e =>
      intro failed
      cases failed
      exact r.framing.settle_final r.sender settled
  | field f size rest =>
    dsimp only
    cases noted : r.framing.note f with
    | ok framing => nofun
    | error e =>
      intro failed
      cases failed
      exact r.framing.note_final f noted

theorem trailerTurn_final (size : Nat) : trailerTurn r size bytes ≠ .fault told .moreData := by
  unfold trailerTurn
  cases line : sectionLine size bytes with
  | fault e =>
    intro failed
    cases failed
    exact sectionLine_final bytes size line
  | _ => nofun

theorem partHeaderTurn_final (size : Nat) : partHeaderTurn r size bytes ≠ .fault told .moreData := by
  unfold partHeaderTurn
  cases line : sectionLine size bytes with
  | fault e =>
    intro failed
    cases failed
    exact sectionLine_final bytes size line
  | _ => nofun

theorem bodyTurn_final : bodyTurn r bytes ≠ .fault told .moreData := by
  unfold bodyTurn
  dsimp only
  split <;> nofun

theorem chunkLineTurn_final : chunkLineTurn r bytes ≠ .fault told .moreData := by
  unfold chunkLineTurn
  split
  · nofun
  · nofun
  · rename_i line rest _
    cases read : ChunkLine.ofLine line with
    | error e =>
      intro failed
      cases failed
      exact ChunkLine.ofLine_final line read
    | ok chunk =>
      dsimp only
      cases malformed : chunk.fault with
      | some e =>
        intro failed
        cases failed
        exact ChunkLine.extensions_final read malformed
      | none =>
        dsimp only
        split <;> nofun

theorem chunkDataTurn_final (missing : Nat) :
    chunkDataTurn r missing bytes ≠ .fault told .moreData := by
  unfold chunkDataTurn
  dsimp only
  split
  · nofun
  · split <;> nofun

theorem afterFirst_final (back rest : Bytes) (before : List Event) :
    afterFirst r before back rest ≠ .fault told .moreData := by
  unfold afterFirst
  split <;> nofun

theorem preambleTurn_final : preambleTurn r bytes ≠ .fault told .moreData := by
  unfold preambleTurn
  split
  · exact afterFirst_final r told _ _ _
  · nofun
  · split
    · nofun
    · exact afterFirst_final r told _ _ _

theorem partDataTurn_final : partDataTurn r bytes ≠ .fault told .moreData := by
  unfold partDataTurn
  split <;> nofun

theorem partEndTurn_final : partEndTurn r bytes ≠ .fault told .moreData := by
  unfold partEndTurn
  split <;> nofun

theorem drain_final (whole data : Bytes) : drain r whole data ≠ .fault told .moreData := by
  unfold drain
  split <;> nofun

theorem epilogueTurn_final (opened : Bool) :
    epilogueTurn r opened bytes ≠ .fault told .moreData := by
  unfold epilogueTurn
  split
  · exact drain_final r told _ _
  · split
    · exact drain_final r told _ _
    · split
      · nofun
      · exact drain_final r told _ _
    · exact drain_final r told _ _

theorem lack_final (phase : Phase) : lack? phase ≠ some .moreData := by
  cases phase <;> nofun

-- The body that ends too early lacks something else than input.
theorem inBody_final {step : Reader → Bytes → Turn}
    (sound : ∀ own told, step r own ≠ .fault told .moreData) :
    inBody r step bytes ≠ .fault told .moreData := by
  unfold inBody
  dsimp only
  split
  · rename_i told' e ran
    intro failed
    cases failed
    exact sound _ _ ran
  · nofun
  · split
    · rename_i e lacking
      intro failed
      cases failed
      split at lacking
      · cases lacking
      · exact lack_final r.phase lacking
    · nofun

end Turns

theorem turn_final : turn r bytes ≠ .fault told .moreData := by
  unfold turn
  split
  · exact startTurn_final r bytes told
  · exact startLineTurn_final r bytes told
  · exact headerTurn_final r bytes told _
  · exact bodyTurn_final r bytes told
  · exact chunkLineTurn_final r bytes told
  · exact chunkDataTurn_final r bytes told _
  · exact trailerTurn_final r bytes told _
  · exact inBody_final r bytes told (preambleTurn_final r)
  · exact inBody_final r bytes told fun own told => partHeaderTurn_final r own told _
  · exact inBody_final r bytes told (partDataTurn_final r)
  · exact inBody_final r bytes told (partEndTurn_final r)
  · exact inBody_final r bytes told fun own told => epilogueTurn_final r own told _
  · nofun

theorem scan_final : (scan r bytes).result ≠ .error .moreData := by
  fun_induction scan r bytes with
  | case1 r bytes told next rest went later ih => exact ih
  | case2 r bytes told next rest went => nofun
  | case3 r bytes told e went =>
    intro failed
    cases failed
    exact turn_final r bytes told went

end Reader
end HttpWire
