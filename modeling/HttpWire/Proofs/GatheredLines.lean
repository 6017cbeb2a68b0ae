import HttpWire.Proofs.GatheredHeaders
import HttpWire.Proofs.MessageLines
import HttpWire.Proofs.Unions

-- Under every name a message has the elements of all lines with that name, and the cookies apart.
namespace HttpWire

section Lines

def lineName (line : Bytes) : Text := Utf8.lossy (line.takeWhile (· ≠ 0x3A))

def lineValue (line : Bytes) : Text :=
  Text.trim (Utf8.lossy ((line.dropWhile (· ≠ 0x3A)).drop 1))

def linePieces (line : Bytes) : List Text :=
  if Field.isWhole (lineName line) then [lineValue line]
  else (splitAll ',' (lineValue line)).map Text.trim

def lineElements (line : Bytes) : List Text := (linePieces line).filter (· ≠ [])

-- A line of a trailer has an empty element if it has no other.
def trailerElements (line : Bytes) : List Text :=
  if lineElements line = [] then [[]] else lineElements line

theorem trailerElements_ne_nil (line : Bytes) : trailerElements line ≠ [] := by
  unfold trailerElements
  split
  · exact List.cons_ne_nil _ _
  · assumption

def lineField (line : Bytes) : Field := ⟨lineName line, lineValue line⟩

theorem FieldLine.cut {line : Bytes} {f : Field} (read : FieldLine line f) : f = lineField line := by
  obtain ⟨name, value, parts, rfl⟩ := (ofLine_iff _ _).mp read.accepted
  obtain ⟨first, later⟩ := parts.cut
  unfold lineField lineName lineValue
  rw [← Utf8.lossy_trim, ← first, ← later]
  rfl

theorem fields_cut {lines : List Bytes} {fields : List Field} (reads : List.Forall₂ FieldLine lines fields) :
    fields = lines.map lineField := by
  induction reads with
  | nil => rfl
  | cons read _ ih => rw [List.map_cons, ← read.cut, ← ih]

theorem elements_trailer (line : Bytes) : (lineField line).elements = trailerElements line := by
  unfold Field.elements trailerElements lineElements linePieces lineField
  dsimp only
  split
  · by_cases empty : lineValue line = []
    · simp [empty]
    · simp [empty]
  · unfold Field.listElements
    split
    · rename_i none
      rw [if_pos none]
    · rename_i some
      rw [if_neg some]

theorem each_trailer (lines : List Bytes) : (lines.map lineField).flatMap Field.each
    = lines.flatMap (FieldMap.spread lineName trailerElements) := by
  rw [List.flatMap_map]
  refine List.flatMap_congr fun line _ => ?_
  rw [Field.each, elements_trailer]
  rfl

theorem elements_line (line : Bytes) :
    (lineField line).elements.filter (· ≠ []) = lineElements line := by
  rw [elements_trailer, trailerElements]
  split
  · rename_i none
    rw [none]
    rfl
  · unfold lineElements
    rw [List.filter_filter]
    simp

end Lines

namespace Message

section Gathering

def lineCookies (lines : List Bytes) : List Text :=
  ((lines.filter fun line => isCookie (lineName line)).map lineValue).filter (· ≠ [])

def lineHeaders (lines : List Bytes) : List Field :=
  (lines.filter fun line => !isCookie (lineName line)).flatMap (FieldMap.spread lineName lineElements)

theorem takeFields_lines (m : Message) (lines : List Bytes) :
    (lines.map lineField).foldl takeField m = { m with
      headers := (lineHeaders lines).foldl (fun h f => h.insert f.name f.value) m.headers
      cookies := m.cookies ++ lineCookies lines } := by
  induction lines generalizing m with
  | nil => simp [lineHeaders, lineCookies]
  | cons line lines ih =>
    rw [List.map_cons, List.foldl_cons, ih]
    cases cookie : isCookie (lineName line) with
    | true =>
      have apart : lineHeaders (line :: lines) = lineHeaders lines := by simp [lineHeaders, cookie]
      have first : lineCookies (line :: lines) = [lineValue line].filter (· ≠ []) ++ lineCookies lines := by
        unfold lineCookies
        rw [List.filter_cons_of_pos (by exact cookie), List.map_cons, ← List.filter_append,
          List.singleton_append]
      rw [takeField_cookie m (lineField line) cookie, apart, first, ← List.append_assoc]
      rfl
    | false =>
      have apart : lineCookies (line :: lines) = lineCookies lines := by simp [lineCookies, cookie]
      have first : lineHeaders (line :: lines)
          = FieldMap.spread lineName lineElements line ++ lineHeaders lines := by
        simp [lineHeaders, cookie]
      rw [takeField_list m (lineField line) cookie, elements_line, apart, first, List.foldl_append,
        FieldMap.spread, List.foldl_map]
      rfl

theorem lineHeaders_values (lines : List Bytes) (k : Text) (other : isCookie k = false) :
    (FieldMap.ofFields (lineHeaders lines)).values k
      = lines.flatMap fun line => if Text.sameName (lineName line) k then lineElements line else [] := by
  rw [lineHeaders, FieldMap.spread_values]
  induction lines with
  | nil => rfl
  | cons line lines ih =>
    cases cookie : isCookie (lineName line) with
    | true =>
      have differ : Text.sameName (lineName line) k = false := by
        cases same : Text.sameName (lineName line) k with
        | false => rfl
        | true =>
          have also : isCookie (lineName line) = isCookie k := Text.sameName_congr same _
          rw [cookie, other] at also
          cases also
      rw [List.filter_cons_of_neg (by simp [cookie]), ih, List.flatMap_cons, differ,
        if_neg Bool.false_ne_true, List.nil_append]
    | false => rw [List.filter_cons_of_pos (by simp [cookie]), List.flatMap_cons, ih, List.flatMap_cons]

-- A name stands where the first of its lines stands that has something under it.
structure Gathered (lines trailer : List Bytes) (m : Message) : Prop where
  values : ∀ k, isCookie k = false → m.headers.values k
    = lines.flatMap fun line => if Text.sameName (lineName line) k then lineElements line else []
  names : m.headers.names = newcomers [] ((lines.filter fun line =>
    !isCookie (lineName line) && decide (lineElements line ≠ [])).map lineName)
  cookies : m.cookies = lineCookies lines
  trailerValues : ∀ k, m.trailers.values k
    = trailer.flatMap fun line => if Text.sameName (lineName line) k then trailerElements line else []
  trailerNames : m.trailers.names = newcomers [] (trailer.map lineName)

variable {m : Message} {start : StartLine} {lines trailer : List Bytes}

theorem headed_lines (start : StartLine) (lines : List Bytes) :
    let m := (headed start (lines.map lineField)).placed
    m.headers = .ofFields (lineHeaders lines) ∧ m.cookies = lineCookies lines ∧ m.trailers = .empty := by
  obtain ⟨headers, cookies, trailers, _⟩ := started_bare start
  obtain ⟨host, port, same⟩ := (headed start (lines.map lineField)).placed_eq
  have taken := takeFields_lines (started start) lines
  rw [headers, cookies, List.nil_append] at taken
  dsimp only
  rw [same]
  unfold headed
  rw [taken]
  exact ⟨rfl, rfl, trailers⟩

theorem gathered_spread (headers : m.headers = .ofFields (lineHeaders lines))
    (cookies : m.cookies = lineCookies lines)
    (trailers : m.trailers = .ofFields (trailer.flatMap (FieldMap.spread lineName trailerElements))) :
    Gathered lines trailer m where
  values k other := by rw [headers, lineHeaders_values lines k other]
  names := by
    rw [headers, lineHeaders, FieldMap.spread_names, List.filter_filter]
    simp only [Bool.and_comm]
  cookies := cookies
  trailerValues k := by rw [trailers, FieldMap.spread_values]
  trailerNames := by
    have filled : trailer.filter (fun line => trailerElements line ≠ []) = trailer :=
      List.filter_eq_self.mpr fun line _ => decide_eq_true (trailerElements_ne_nil line)
    rw [trailers, FieldMap.spread_names, filled]

theorem ofBytes_gathered (policy : Policy) (bytes : Bytes) (m : Message) (n : Nat)
    (kept : policy.keepBody = true) (read : ofBytes policy bytes = .ok (m, n)) :
    ∃ lines trailer, Lines bytes lines trailer ∧
      (∀ others more, Lines bytes others more → others = lines ∧ more = trailer) ∧
      Gathered lines trailer m := by
  obtain ⟨reading, ran, enough⟩ := ofBytes_read kept read
  obtain ⟨told, x, ended, rfl⟩ := Reader.read_taken ran
  obtain ⟨blank, line, start, lines, fields, noted, settled, rest, found⟩ :=
    Reader.message_found bytes x ended (Reader.progress_past x.reader enough)
  rw [found.scanned] at told
  obtain ⟨_, single, taken⟩ := header_told told
  obtain ⟨trailer, trailing, stood, reads, trailed⟩ := lines_found found single ended enough
  have follows := (Reader.scan_follows _ rest
    (Reader.bodyPhase_past { sender := start.sender } settled)).1
  obtain ⟨headers, cookies⟩ := deliver_behind _ follows taken
  have trailers := deliver_trailers _ taken
  obtain ⟨first, second, third⟩ := headed_lines start lines
  rw [fields_cut found.reads] at headers cookies trailers
  rw [trailed, fields_cut reads, each_trailer, third] at trailers
  refine ⟨lines, trailer, stood, fun _ _ also => also.unique stood, ?_⟩
  exact gathered_spread (headers.trans first) (cookies.trans second) trailers

theorem chunked_response_gathered :
    let policy : Policy := { keepBody := true }
    let lines := ["X-A: 1,, 2".toList, "Set-Cookie: a=b, c".toList, "Transfer-Encoding: chunked".toList,
      "x-a:3".toList].map Utf8.encode
    let trailer := ["T: ".toList, "set-cookie: d, e".toList].map Utf8.encode
    let input := ascii "HTTP/1.1 200 OK\r\n" ++ sectionBytes lines ++ ascii "1\r\nz\r\n0\r\n"
      ++ sectionBytes trailer
    ∃ m n, ofBytes policy input = .ok (m, n) ∧ Lines input lines trailer ∧
      m.headers.values "X-a".toList = ["1".toList, "2".toList, "3".toList] ∧
      m.headers.names = ["X-A".toList, "Transfer-Encoding".toList] ∧
      m.cookies = ["a=b, c".toList] ∧
      m.trailers.names = ["T".toList, "set-cookie".toList] ∧ m.trailers.values "t".toList = [[]] := by
  intro policy lines trailer input
  obtain ⟨⟨m, n⟩, read⟩ : ∃ result, ofBytes policy input = .ok result := by
    have accepted : (ofBytes policy input).isOk = true := by decide +kernel
    cases read : ofBytes policy input with
    | ok result => exact ⟨result, rfl⟩
    | error e =>
      rw [read] at accepted
      cases accepted
  have stood : Lines input lines trailer := by
    have coded : Announced input .chunked := by
      rw [announced_iff]
      decide +kernel
    have opened : PlainLine (ascii "HTTP/1.1 200 OK") := by decide
    have plain : ∀ line ∈ lines, PlainLine line := by decide
    have last : SizedLine (ascii "0") 0 := ⟨by decide, { size := 0 }, rfl, rfl⟩
    have first : SizedLine (ascii "1") 1 := ⟨by decide, { size := 1 }, rfl, rfl⟩
    have chunks := ChunkedBody.chunk (ascii "1") (ascii "z") _ trailer first (by decide)
      (.last (ascii "0") trailer last (by decide))
    refine .chunked trailer _ [] ⟨⟨0, ascii "HTTP/1.1 200 OK", opened, ?_⟩, plain⟩ coded chunks
    decide
  obtain ⟨_, _, _, only, gathered⟩ := ofBytes_gathered policy input m n rfl read
  obtain ⟨rfl, rfl⟩ := only lines trailer stood
  refine ⟨m, n, read, stood, ?_, ?_, ?_, ?_, ?_⟩
  · rw [gathered.values _ (by decide)]
    decide
  · rw [gathered.names]
    decide
  · rw [gathered.cookies]
    decide
  · rw [gathered.trailerNames]
    decide
  · rw [gathered.trailerValues]
    decide

end Gathering

end Message
end HttpWire
