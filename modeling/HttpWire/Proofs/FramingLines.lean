import HttpWire.Proofs.Fragments
import Mathlib.Data.List.TakeWhile

-- Nothing in a line that frames a message could pass for the end of one, but in the extensions of a
-- chunk.
namespace HttpWire

def OneLine (bytes : Bytes) : Prop := 0x0D ∉ bytes ∧ 0x0A ∉ bytes

section Parsers

variable {line : Bytes}

theorem OneLine.of_any {p : UInt8 → Bool} (free : ¬ line.any p = true) (cr : p 0x0D = true)
    (lf : p 0x0A = true) : OneLine line :=
  ⟨fun member => free (List.any_eq_true.mpr ⟨_, member, cr⟩),
    fun member => free (List.any_eq_true.mpr ⟨_, member, lf⟩)⟩

theorem StartLine.ofLine_oneLine {start : StartLine} (read : StartLine.ofLine line = .ok start) :
    OneLine line := by
  unfold StartLine.ofLine at read
  split at read
  · cases read
  · rename_i free
    exact .of_any free rfl rfl

theorem Field.ofLine_oneLine {f : Field} (read : Field.ofLine line = .ok f) : OneLine line := by
  unfold Field.ofLine at read
  split at read
  · cases read
  · split at read
    · cases read
    · rename_i free
      exact .of_any free rfl rfl

theorem takeWhile_before {front tail : Bytes} {p : UInt8 → Bool}
    (ends : ∀ b, tail.head? = some b → p b = false) : (front ++ tail).takeWhile p ⊆ front := by
  rw [List.takeWhile_append]
  split
  · have none : tail.takeWhile p = [] := by
      cases tail with
      | nil => rfl
      | cons b tail => simp [ends b rfl]
    rw [none, List.append_nil]
    exact List.Subset.refl front
  · exact (List.takeWhile_sublist p).subset

theorem ChunkLine.ofLine_oneLine {chunk : ChunkLine} (read : ChunkLine.ofLine line = .ok chunk) :
    OneLine (line.takeWhile (· ≠ 0x3B)) := by
  unfold ChunkLine.ofLine at read
  split at read
  · cases read
  · rename_i size rest number
    have digits : rest = line.dropWhile (Numeral.isDigit 16) := by
      unfold Numeral.readWord at number
      dsimp only at number
      split at number <;> cases number
      rfl
    -- Behind the number and its blanks only a semicolon is accepted.
    have ends : ∀ b, (rest.dropWhile Text.isBlankByte).head? = some b → decide (b ≠ 0x3B) = false := by
      intro b first
      split at read
      · rename_i none
        rw [none] at first
        cases first
      · rename_i list
        rw [list] at first
        cases first
        split at read
        · rename_i semicolon
          simp [semicolon]
        · cases read
    have front : line = line.takeWhile (Numeral.isDigit 16) ++ rest.takeWhile Text.isBlankByte
        ++ rest.dropWhile Text.isBlankByte := by
      rw [List.append_assoc, List.takeWhile_append_dropWhile, digits,
        List.takeWhile_append_dropWhile]
    have part : line.takeWhile (· ≠ 0x3B)
        ⊆ line.takeWhile (Numeral.isDigit 16) ++ rest.takeWhile Text.isBlankByte := by
      conv => lhs; rw [front]
      exact takeWhile_before ends
    have plain : ∀ b ∈ line.takeWhile (· ≠ 0x3B),
        Numeral.isDigit 16 b = true ∨ Text.isBlankByte b = true := by
      intro b member
      exact (List.mem_append.mp (part member)).imp List.mem_takeWhile_imp List.mem_takeWhile_imp
    refine ⟨fun member => ?_, fun member => ?_⟩
    · have cr := plain _ member
      revert cr
      decide
    · have lf := plain _ member
      revert lf
      decide

end Parsers

namespace Reader

inductive LineKind where
  | start
  | header
  | partHeader
  | chunk
  | trailer
  deriving DecidableEq

def lineOf (kind : LineKind) (room : Nat) (bytes : Bytes) : List (LineKind × Bytes) :=
  match takeLine room bytes with
  | .whole line _ => [(kind, line)]
  | _ => []

def framingLine (r : Reader) (bytes : Bytes) : List (LineKind × Bytes) :=
  match r.phase with
  | .startLine => lineOf .start startLineRoom bytes
  | .header size => lineOf .header (sectionRoom - size) bytes
  | .chunkLine => lineOf .chunk chunkLineRoom bytes
  | .trailer size => lineOf .trailer (sectionRoom - size) bytes
  | .partHeader size => lineOf .partHeader (sectionRoom - size) (within r.remaining bytes)
  | _ => []

def framingLines (r : Reader) (bytes : Bytes) : List (LineKind × Bytes) :=
  match _ran : turn r bytes with
  | .onward _told next rest => framingLine r bytes ++ framingLines next rest
  | _ => []
termination_by bytes.length + rank r.phase
decreasing_by exact turn_descends r next bytes rest _told _ran

def fedLines : List Bytes → Reading → List (LineKind × Bytes)
  | [], _ => []
  | piece :: pieces, x =>
    framingLines x.reader (x.rest ++ piece) ++
      match (x.push Handler.record #[] piece).2 with
      | .ok y => fedLines pieces y
      | .error _ => []

def checked : LineKind × Bytes → Bytes
  | (.chunk, line) => line.takeWhile (· ≠ 0x3B)
  | (_, line) => line

-- A line that stands in the input with the CRLF that ends it, and is no two lines.
structure Stands (bytes : Bytes) (entry : LineKind × Bytes) : Prop where
  placed : entry.2 ++ crlf <:+: bytes
  whole : OneLine (checked entry)

theorem Stands.within {inner outer : Bytes} {entry : LineKind × Bytes}
    (stands : Stands inner entry) (inside : inner <:+: outer) : Stands outer entry :=
  ⟨stands.placed.trans inside, stands.whole⟩

section Turns

variable {r next : Reader} {bytes rest : Bytes} {told : List Event} {entry : LineKind × Bytes}

theorem lineOf_stands {kind : LineKind} {room : Nat} (member : entry ∈ lineOf kind room bytes)
    (whole : ∀ line rest, takeLine room bytes = .whole line rest → OneLine (checked (kind, line))) :
    Stands bytes entry := by
  unfold lineOf at member
  split at member
  · rename_i line behind taken
    cases List.mem_singleton.mp member
    refine ⟨⟨[], behind, ?_⟩, whole line behind taken⟩
    rw [(takeLine_whole room bytes line behind taken).1]
    simp
  · cases member

theorem sectionLine_stands {kind : LineKind} {size : Nat}
    (member : entry ∈ lineOf kind (sectionRoom - size) bytes) (other : kind ≠ .chunk)
    (sound : ∀ e, sectionLine size bytes ≠ .fault e) : Stands bytes entry := by
  refine lineOf_stands member fun line behind taken => ?_
  have all : checked (kind, line) = line := by
    cases kind with
    | chunk => exact absurd rfl other
    | _ => rfl
  rw [all]
  cases line with
  | nil => exact ⟨nofun, nofun⟩
  | cons b line =>
    cases read : Field.ofLine (b :: line) with
    | ok f => exact Field.ofLine_oneLine read
    | error e =>
      have failed : sectionLine size bytes = .fault e := by
        unfold sectionLine
        rw [taken]
        simp only [read]
      exact absurd failed (sound e)

theorem startLineTurn_stands (ran : startLineTurn r bytes = .onward told next rest)
    (member : entry ∈ lineOf .start startLineRoom bytes) : Stands bytes entry := by
  refine lineOf_stands member fun line behind taken => ?_
  unfold startLineTurn at ran
  rw [taken] at ran
  cases read : StartLine.ofLine line with
  | ok start => exact StartLine.ofLine_oneLine read
  | error e =>
    simp only [read] at ran
    cases ran

theorem headerTurn_stands {size : Nat} (ran : headerTurn r size bytes = .onward told next rest)
    (member : entry ∈ lineOf .header (sectionRoom - size) bytes) : Stands bytes entry := by
  refine sectionLine_stands member (by decide) fun e failed => ?_
  rw [headerTurn, failed] at ran
  cases ran

theorem trailerTurn_stands {size : Nat} (ran : trailerTurn r size bytes = .onward told next rest)
    (member : entry ∈ lineOf .trailer (sectionRoom - size) bytes) : Stands bytes entry := by
  refine sectionLine_stands member (by decide) fun e failed => ?_
  rw [trailerTurn, failed] at ran
  cases ran

theorem chunkLineTurn_stands (ran : chunkLineTurn r bytes = .onward told next rest)
    (member : entry ∈ lineOf .chunk chunkLineRoom bytes) : Stands bytes entry := by
  refine lineOf_stands member fun line behind taken => ?_
  unfold chunkLineTurn at ran
  rw [taken] at ran
  cases read : ChunkLine.ofLine line with
  | ok chunk => exact ChunkLine.ofLine_oneLine read
  | error e =>
    simp only [read] at ran
    cases ran

theorem partHeaderTurn_stands {size : Nat}
    (ran : inBody r (partHeaderTurn · size ·) bytes = .onward told next rest)
    (member : entry ∈ lineOf .partHeader (sectionRoom - size) (within r.remaining bytes)) :
    Stands bytes entry := by
  have own : Stands (within r.remaining bytes) entry := by
    refine sectionLine_stands member (by decide) fun e failed => ?_
    simp only [inBody, partHeaderTurn, failed] at ran
    cases ran
  exact own.within ⟨[], _, within_append_drop r.remaining bytes⟩

theorem turn_stands (ran : turn r bytes = .onward told next rest)
    (member : entry ∈ framingLine r bytes) : Stands bytes entry := by
  unfold framingLine at member
  cases phase : r.phase with
  | startLine =>
    simp only [turn, phase] at ran member
    exact startLineTurn_stands ran member
  | header size =>
    simp only [turn, phase] at ran member
    exact headerTurn_stands ran member
  | chunkLine =>
    simp only [turn, phase] at ran member
    exact chunkLineTurn_stands ran member
  | trailer size =>
    simp only [turn, phase] at ran member
    exact trailerTurn_stands ran member
  | partHeader size =>
    simp only [turn, phase] at ran member
    exact partHeaderTurn_stands ran member
  | _ =>
    rw [phase] at member
    cases member

end Turns

section Runs

variable {entry : LineKind × Bytes}

theorem framingLines_stand (r : Reader) (bytes : Bytes) (member : entry ∈ framingLines r bytes) :
    Stands bytes entry := by
  fun_induction framingLines r bytes with
  | case1 r bytes told next rest ran ih =>
    rcases List.mem_append.mp member with here | later
    · exact turn_stands ran here
    · have left := turn_leaves r bytes
      rw [ran] at left
      exact (ih later).within left.isInfix
  | case2 => cases member

theorem fedLines_stand (pieces : List Bytes) (x : Reading) (member : entry ∈ fedLines pieces x) :
    Stands (x.rest ++ pieces.flatten) entry := by
  induction pieces generalizing x with
  | nil => cases member
  | cons piece pieces ih =>
    rw [List.flatten_cons, ← List.append_assoc]
    rcases List.mem_append.mp member with here | later
    · exact (framingLines_stand _ _ here).within (List.prefix_append ..).isInfix
    · cases pushed : (x.push Handler.record #[] piece).2 with
      | error e =>
        rw [pushed] at later
        cases later
      | ok y =>
        rw [pushed] at later
        obtain ⟨_, z, ran, rfl⟩ := read_taken (Prod.ext rfl pushed)
        obtain ⟨front, left⟩ := scan_leaves _ _ _ ran
        refine (ih _ later).within ⟨front, [], ?_⟩
        rw [← left]
        simp [Reading.counted]

-- Start lines, the fields of a section, and chunk lines up to their first semicolon have no CR and no
-- LF in them: nowhere else could one who ends lines at those see the end of a line.
theorem framing_lines_unbroken (skip : Bool) (pieces : List Bytes) (kind : LineKind) (line : Bytes)
    (taken : (kind, line) ∈ fedLines pieces { reader := { skipStartLine := skip } }) :
    line ++ crlf <:+: pieces.flatten ∧
      OneLine (if kind = .chunk then line.takeWhile (· ≠ 0x3B) else line) := by
  have stands := fedLines_stand pieces _ taken
  refine ⟨stands.placed, ?_⟩
  have whole := stands.whole
  cases kind <;> exact whole

theorem chunk_line_in_fragments :
    let pieces := [ascii "HTTP/1.1 200 OK\r\nTransfer-Encoding: chunked\r\n\r\n1;", ascii "a=b\r\nx"]
    (.chunk, ascii "1;a=b") ∈ fedLines pieces {} ∧
      ascii "1;a=b" ++ crlf <:+: pieces.flatten ∧ OneLine (ascii "1") := by
  intro pieces
  have taken : (.chunk, ascii "1;a=b") ∈ fedLines pieces {} := by decide +kernel
  obtain ⟨stands, free⟩ := framing_lines_unbroken false pieces .chunk (ascii "1;a=b") taken
  exact ⟨taken, stands, free⟩

theorem extension_with_line_feed :
    let input := ascii
      "HTTP/1.1 200 OK\r\nTransfer-Encoding: chunked\r\n\r\n1;a\nb\r\nx\r\n0\r\n\r\n"
    ∃ x, (feed Handler.record [input] #[] {}).2 = .ok x ∧ x.progress = .complete ∧
      (.chunk, ascii "1;a\nb") ∈ fedLines [input] {} ∧ ¬ OneLine (ascii "1;a\nb") := by
  intro input
  have ran : (feed Handler.record [input] #[] {}).2
      = .ok ⟨{ phase := .done, sender := .server 200, framing := ⟨.chunked, none, none⟩,
               seen := 1, index := 1, consumed := 62 }, []⟩ := by
    decide +kernel
  have taken : (.chunk, ascii "1;a\nb") ∈ fedLines [input] {} := by decide +kernel
  exact ⟨_, ran, rfl, taken, fun free => free.2 (by decide)⟩

end Runs

end Reader
end HttpWire
