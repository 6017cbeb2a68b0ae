import HttpWire.Proofs.MessageLines
import HttpWire.Proofs.WrittenLengths

-- No text but the target of a request is kept from having a line end of its own.
namespace HttpWire

section Pairs

variable {α : Type} {x y : α}

theorem pair_between {d : α} (first : d ≠ x) (last : d ≠ y) (l r : List α) :
    [x, y] <:+: l ++ d :: r ↔ [x, y] <:+: l ∨ [x, y] <:+: r := by
  have apart : ¬ [x, y] <+: d :: r := by
    simp [List.cons_prefix_cons, first.symm]
  induction l with
  | nil => simp [List.infix_cons_iff, apart]
  | cons a l ih =>
    have here : [x, y] <+: a :: (l ++ d :: r) ↔ [x, y] <+: a :: l := by
      cases l with
      | nil => simp [List.cons_prefix_cons, last.symm]
      | cons b l => simp [List.cons_prefix_cons]
    calc [x, y] <:+: a :: l ++ d :: r
        ↔ [x, y] <+: a :: l ∨ [x, y] <:+: l ++ d :: r := List.infix_cons_iff.trans (or_congr_left here)
      _ ↔ [x, y] <+: a :: l ∨ [x, y] <:+: l ∨ [x, y] <:+: r := or_congr_right ih
      _ ↔ [x, y] <:+: a :: l ∨ [x, y] <:+: r := by rw [List.infix_cons_iff, or_assoc]

theorem pair_behind (l r : List α) (free : x ∉ l) : [x, y] <:+: l ++ r ↔ [x, y] <:+: r := by
  induction l with
  | nil => rfl
  | cons a l ih =>
    obtain ⟨other, later⟩ := List.ne_and_not_mem_of_not_mem_cons free
    rw [List.cons_append, List.infix_cons_iff, ih later]
    simp [List.cons_prefix_cons, other]

end Pairs

namespace Text

-- A carriage return or a line feed alone ends no line.
def Unbroken (t : Text) : Prop := ¬ ['\r', '\n'] <:+: t

instance (t : Text) : Decidable t.Unbroken := inferInstanceAs (Decidable (¬ _))

variable {s t : Text}

theorem Unbroken.inside (unbroken : t.Unbroken) (part : s <:+: t) : s.Unbroken :=
  fun broken => unbroken (broken.trans part)

theorem plain_unbroken (plain : Plain t) : t.Unbroken := fun broken =>
  (plain.unbroken _ (broken.subset (List.mem_cons_self ..))).1 rfl

theorem unbroken_between (c : Char) (apart : c ≠ '\r' ∧ c ≠ '\n') (s t : Text) :
    Unbroken (s ++ c :: t) ↔ s.Unbroken ∧ t.Unbroken := by
  unfold Unbroken
  rw [pair_between apart.1 apart.2, not_or]

theorem Unbroken.lower (unbroken : t.Unbroken) : (lower t).Unbroken := by
  rintro ⟨before, behind, whole⟩
  have same : ∀ c d : Char, ¬ IsLetter d → c.toLower = d → c = d := by
    intro c d other lowered
    have letters : ∀ e, IsLetter e → (e == d) = false := by
      rintro e letter
      exact beq_false_of_ne fun equal => other (equal ▸ letter)
    have kept := toLower_apart (p := (· == d)) letters c
    rw [lowered, beq_self_eq_true] at kept
    exact beq_iff_eq.mp kept.symm
  obtain ⟨front, back, split, opened, -⟩ := List.append_eq_map_iff.mp whole
  obtain ⟨first, pair, rfl, -, paired⟩ := List.append_eq_map_iff.mp opened.symm
  obtain ⟨c, more, rfl, carriage, rest⟩ := List.map_eq_cons_iff.mp paired
  obtain ⟨d, last, rfl, feed, ended⟩ := List.map_eq_cons_iff.mp rest
  have return_same := same c '\r' (by unfold IsLetter; decide) carriage
  have feed_same := same d '\n' (by unfold IsLetter; decide) feed
  rw [List.map_eq_nil_iff.mp ended, return_same, feed_same] at split
  exact unbroken ⟨first, back, split.symm⟩

theorem commaJoined_unbroken (pieces : List Text) :
    (commaJoined pieces).Unbroken ↔ ∀ piece ∈ pieces, piece.Unbroken := by
  induction pieces with
  | nil => decide
  | cons x pieces ih =>
    cases pieces with
    | nil => rw [commaJoined_one, List.forall_mem_singleton]
    | cons y pieces =>
      have blank := unbroken_between ' ' (by decide) [] (commaJoined (y :: pieces))
      rw [commaJoined_cons, unbroken_between ',' (by decide), List.forall_mem_cons, ← ih]
      rw [List.nil_append] at blank
      rw [blank, and_iff_right (a := Unbroken []) (by decide)]

end Text

section Bytes

variable {name value : Text}

theorem encode_feed (t : Text) : [0x0A] <+: Utf8.encode t ↔ ['\n'] <+: t := by
  cases t with
  | nil => decide
  | cons c t =>
    have whole : Utf8.encode (c :: t) = Utf8.encode [c] ++ Utf8.encode t := Utf8.encode_append [c] t
    obtain ⟨b, more, split⟩ := List.exists_cons_of_ne_nil (encode_ne_nil [c] (List.cons_ne_nil _ _))
    have same : 0x0A = b ↔ '\n' = c := by
      constructor
      · rintro rfl
        have own : 0x0A ∈ Utf8.encode [c] := by rw [split]; exact List.mem_cons_self ..
        exact List.mem_singleton.mp (Utf8.encode_ascii 0x0A (by decide) [c] own)
      · rintro rfl
        exact (List.cons.inj split).1
    rw [whole, split, List.cons_append, List.cons_prefix_cons, List.cons_prefix_cons, same]
    simp only [List.nil_prefix]

-- Where a pair of bytes ends a line, a pair of characters did.
theorem encode_unbroken (t : Text) : ¬ crlf <:+: Utf8.encode t ↔ t.Unbroken := by
  refine not_congr ?_
  induction t with
  | nil => decide
  | cons c t ih =>
    have whole : Utf8.encode (c :: t) = Utf8.encode [c] ++ Utf8.encode t := Utf8.encode_append [c] t
    by_cases carriage : c = '\r'
    · subst carriage
      calc crlf <:+: Utf8.encode ('\r' :: t)
          ↔ [0x0A] <+: Utf8.encode t ∨ crlf <:+: Utf8.encode t := by
            rw [whole, show Utf8.encode ['\r'] = [0x0D] by decide, List.singleton_append, crlf,
              List.infix_cons_iff, List.cons_prefix_cons]
            simp only [true_and]
        _ ↔ ['\n'] <+: t ∨ ['\r', '\n'] <:+: t := or_congr (encode_feed t) ih
        _ ↔ ['\r', '\n'] <:+: '\r' :: t := by
            rw [List.infix_cons_iff, List.cons_prefix_cons]
            simp only [true_and]
    · have apart : 0x0D ∉ Utf8.encode [c] := fun inside =>
        carriage (List.mem_singleton.mp (Utf8.encode_ascii 0x0D (by decide) [c] inside)).symm
      have other : '\r' ∉ [c] := fun inside => carriage (List.mem_singleton.mp inside).symm
      calc crlf <:+: Utf8.encode (c :: t)
          ↔ crlf <:+: Utf8.encode t := by
            rw [whole]
            exact pair_behind _ _ apart
        _ ↔ ['\r', '\n'] <:+: t := ih
        _ ↔ ['\r', '\n'] <:+: c :: t := (pair_behind [c] t other).symm

theorem row_plain_iff : PlainLine (rowBytes name value) ↔ name.Unbroken ∧ value.Unbroken := by
  have filled : rowBytes name value ≠ [] := List.append_ne_nil_of_right_ne_nil _ (List.cons_ne_nil _ _)
  have blank : crlf <:+: 0x20 :: Utf8.encode value ↔ crlf <:+: Utf8.encode value :=
    pair_behind [0x20] _ (by decide)
  have free : ¬ crlf <:+: rowBytes name value ↔ name.Unbroken ∧ value.Unbroken := by
    unfold rowBytes
    rw [show crlf = [0x0D, 0x0A] from rfl] at blank ⊢
    rw [pair_between (by decide) (by decide), blank, not_or]
    exact and_congr (encode_unbroken name) (encode_unbroken value)
  exact ⟨fun plain => free.mp plain.free, fun unbroken => ⟨filled, free.mpr unbroken⟩⟩

end Bytes

section Starting

variable {start : StartLine}

theorem unbroken_absent {line : Bytes} (unbroken : StartLine.Unbroken line) : 0x0D ∉ line := by
  intro inside
  cases unbroken _ inside

-- A target has no line end: what is not graphic in it is written as an escape.
theorem requestLine_plain {method : Method} {uri : Text} {version : Version}
    (started : Writer.requestLine method uri version = .ok start) : PlainLine start.bytes := by
  unfold Writer.requestLine at started
  split at started
  · cases started
  · rename_i real
    cases started
    have writable := StartLine.Writable.request method (Percent.encodeTarget uri) version
      (Percent.encodeTarget_ne_nil uri real) (Percent.encodeTarget_graphic uri)
    have free := unbroken_absent (StartLine.bytes_unbroken writable)
    exact ⟨by simp [StartLine.bytes], crlf_absent _ free⟩

theorem statusLine_plain_iff (version : Version) (status : Nat) (reason : Text) :
    PlainLine (Writer.statusLine version status reason).bytes ↔ reason.Unbroken := by
  have front : StartLine.Unbroken
      (ascii version.text ++ [0x20] ++ Utf8.encode (Numeral.decimal status) ++ [0x20]) := by
    have text : StartLine.Unbroken (ascii version.text) := by cases version <;> decide
    have code := StartLine.graphic_unbroken _ (StartLine.decimal_graphic status)
    exact ((text.append (by decide)).append code).append (by decide)
  have filled : (Writer.statusLine version status reason).bytes ≠ [] := by
    simp [Writer.statusLine, StartLine.bytes]
  have free : ¬ crlf <:+: (Writer.statusLine version status reason).bytes ↔ reason.Unbroken := by
    unfold Writer.statusLine
    dsimp only [StartLine.bytes]
    rw [crlf, pair_behind _ _ (unbroken_absent front)]
    refine (encode_unbroken _).trans ?_
    split
    · rename_i empty
      subst empty
      exact iff_of_true (Text.plain_unbroken (Status.phrase_plain status).2) (by decide)
    · rfl
  exact ⟨fun plain => free.mp plain.free, fun unbroken => ⟨filled, free.mpr unbroken⟩⟩

end Starting

section Typing

variable {value : Text} {charset : Option Text}

theorem contentType_cases (value : Text) (charset : Option Text) :
    Writer.contentType value charset = value ∨ ∃ label, charset = some label ∧
      Writer.contentType value charset = value ++ ';' :: (" charset=".toList ++ label) := by
  unfold Writer.contentType
  split
  · exact .inl rfl
  · rename_i label
    split
    · exact .inl rfl
    · exact .inr ⟨label, rfl, List.append_assoc _ _ _⟩

theorem contentType_value (unbroken : (Writer.contentType value charset).Unbroken) : value.Unbroken := by
  rcases contentType_cases value charset with same | ⟨label, -, added⟩
  · rwa [same] at unbroken
  · rw [added] at unbroken
    exact unbroken.inside (List.prefix_append _ _).isInfix

theorem contentType_unbroken (unbroken : value.Unbroken)
    (label : ∀ t, charset = some t → t.Unbroken) : (Writer.contentType value charset).Unbroken := by
  rcases contentType_cases value charset with same | ⟨t, given, added⟩
  · rwa [same]
  · have whole : Text.Unbroken (" charset=".toList ++ t) :=
      fun broken => label t given ((pair_behind _ _ (by decide)).mp broken)
    rw [added]
    exact (Text.unbroken_between ';' (by decide) value _).mpr ⟨unbroken, whole⟩

variable {entry : Text × List Text}

theorem entryLines_given (filled : entry.2 ≠ [])
    (rows : ∀ row ∈ Writer.entryLines charset entry, row.1.Unbroken ∧ row.2.Unbroken) :
    entry.1.Unbroken ∧ ∀ value ∈ entry.2, value.Unbroken := by
  unfold Writer.entryLines at rows
  split at rows
  · obtain ⟨first, more, whole⟩ := List.exists_cons_of_ne_nil filled
    have each : ∀ value ∈ entry.2, entry.1.Unbroken ∧ value.Unbroken :=
      fun value member => rows _ (List.mem_map_of_mem member)
    have some : first ∈ entry.2 := by rw [whole]; exact List.mem_cons_self ..
    exact ⟨(each first some).1, fun value member => (each value member).2⟩
  · split at rows
    · obtain ⟨name, joined⟩ := rows _ (List.mem_singleton.mpr rfl)
      exact ⟨name, (Text.commaJoined_unbroken _).mp (contentType_value joined)⟩
    · obtain ⟨name, joined⟩ := rows _ (List.mem_singleton.mpr rfl)
      exact ⟨name, (Text.commaJoined_unbroken _).mp joined⟩

theorem entryLines_unbroken (label : ∀ t, charset = some t → t.Unbroken) (name : entry.1.Unbroken)
    (values : ∀ value ∈ entry.2, value.Unbroken) :
    ∀ row ∈ Writer.entryLines charset entry, row.1.Unbroken ∧ row.2.Unbroken := by
  have joined := (Text.commaJoined_unbroken entry.2).mpr values
  intro row member
  unfold Writer.entryLines at member
  split at member
  · obtain ⟨value, inside, rfl⟩ := List.mem_map.mp member
    exact ⟨name, values value inside⟩
  · split at member
    · rw [List.mem_singleton.mp member]
      exact ⟨name, contentType_unbroken joined label⟩
    · rw [List.mem_singleton.mp member]
      exact ⟨name, joined⟩

end Typing

namespace Writer.Job

def names (job : Job) : List Text :=
  job.headers.entries.flatMap (fun entry =>
      if Message.isCookie entry.1 then entry.2.map fun _ => entry.1 else [entry.1])
    ++ job.cookies.map (fun _ => "Set-Cookie".toList)
    ++ (if isCoded job.headers || job.headers.has "content-length" then []
        else ["Content-Length".toList])
    ++ (if job.headers.has "date" then [] else ["Date".toList])

def rows (date : Text) (job : Job) : List (Text × Text) :=
  fieldLines date job.headers job.cookies job.charset job.body

def lines (date : Text) (job : Job) (start : StartLine) : List Bytes :=
  start.bytes :: (job.rows date).map fun row => rowBytes row.1 row.2

def reason : Job → Text
  | request .. => []
  | response _ _ reason _ _ => reason
  | message m =>
    match m.kind with
    | .response => m.reason.getD []
    | _ => []

structure Unbroken (job : Job) : Prop where
  reason : job.reason.Unbroken
  names : ∀ entry ∈ job.headers.entries, entry.1.Unbroken
  values : ∀ entry ∈ job.headers.entries, ∀ value ∈ entry.2, value.Unbroken
  cookies : ∀ value ∈ job.cookies, value.Unbroken

instance (job : Job) : Decidable job.Unbroken :=
  decidable_of_iff (job.reason.Unbroken ∧ (∀ entry ∈ job.headers.entries, entry.1.Unbroken) ∧
      (∀ entry ∈ job.headers.entries, ∀ value ∈ entry.2, value.Unbroken) ∧
      ∀ value ∈ job.cookies, value.Unbroken)
    ⟨fun ⟨reason, names, values, cookies⟩ => ⟨reason, names, values, cookies⟩,
      fun ⟨reason, names, values, cookies⟩ => ⟨reason, names, values, cookies⟩⟩

variable {job : Job} {start : StartLine} {bytes : Bytes} (date : Text)

theorem rows_names : (job.rows date).map Prod.fst = job.names := by
  have given : ∀ entry, (entryLines job.charset entry).map Prod.fst
      = if Message.isCookie entry.1 then entry.2.map (fun _ => entry.1) else [entry.1] := by
    intro entry
    unfold entryLines
    split
    · rw [List.map_map]
      rfl
    · split <;> rfl
  unfold rows fieldLines names
  simp only [List.map_append, List.map_flatMap, List.map_map, given]
  congr 1
  · congr 1
    split <;> rfl
  · split <;> rfl

theorem run_lines (written : job.run date = .ok bytes) :
    ∃ start, job.start = .ok start ∧ bytes = sectionBytes (job.lines date start) ++ job.body := by
  rw [run_eq] at written
  cases started : job.start with
  | error e =>
    rw [started] at written
    cases written
  | ok start =>
    rw [started] at written
    change fields date start _ _ _ _ = _ at written
    unfold fields at written
    split at written
    · cases written
    · split at written
      · cases written
        refine ⟨start, rfl, ?_⟩
        rw [assemble_eq, lines, sectionBytes_cons, List.append_assoc, List.append_assoc]
        rfl
      · cases written

theorem start_plain_iff (started : job.start = .ok start) :
    PlainLine start.bytes ↔ job.reason.Unbroken := by
  have none : Text.Unbroken [] := by decide
  cases job with
  | request method uri version => exact iff_of_true (requestLine_plain started) none
  | response version status reason =>
    cases started
    exact statusLine_plain_iff version status reason
  | message m =>
    change startLine m = .ok start at started
    unfold startLine at started
    dsimp only [reason]
    split at started
    · cases started
    · rename_i version known
      split at started
      · cases started
      · rename_i kind
        rw [kind]
        split at started
        · exact iff_of_true (requestLine_plain started) none
        · cases started
      · rename_i kind
        rw [kind]
        split at started
        · cases started
        · cases started
          exact statusLine_plain_iff version m.status _

theorem label_unbroken (values : ∀ entry ∈ job.headers.entries, ∀ value ∈ entry.2, value.Unbroken)
    (t : Text) (label : job.charset = some t) : t.Unbroken := by
  obtain ⟨part, rfl, rfl | ⟨entry, member, value, own, inside⟩⟩ := label_inside t label
  · decide
  · exact ((values entry member value own).inside inside).lower

theorem rows_unbroken (dated : date.Unbroken) (unbroken : job.Unbroken) :
    ∀ row ∈ job.rows date, row.1.Unbroken ∧ row.2.Unbroken := by
  have named : Text.Unbroken "Content-Length".toList ∧ Text.Unbroken "Date".toList ∧
      Text.Unbroken "Set-Cookie".toList := by decide
  intro row member
  unfold rows fieldLines at member
  simp only [List.append_assoc, List.mem_append] at member
  rcases member with given | cookie | length | added
  · obtain ⟨entry, inside, here⟩ := List.mem_flatMap.mp given
    exact entryLines_unbroken (label_unbroken unbroken.values) (unbroken.names entry inside)
      (unbroken.values entry inside) row here
  · obtain ⟨value, inside, rfl⟩ := List.mem_map.mp cookie
    exact ⟨named.2.2, unbroken.cookies value inside⟩
  · split at length
    · cases length
    · rw [List.mem_singleton.mp length]
      exact ⟨named.1, Text.plain_unbroken (decimal_plain _)⟩
  · split at added
    · cases added
    · rw [List.mem_singleton.mp added]
      exact ⟨named.2.1, dated⟩

theorem rows_given (formed : job.headers.WellFormed) (reason : job.reason.Unbroken)
    (plain : ∀ row ∈ job.rows date, row.1.Unbroken ∧ row.2.Unbroken) : job.Unbroken := by
  have entries : ∀ entry ∈ job.headers.entries,
      entry.1.Unbroken ∧ ∀ value ∈ entry.2, value.Unbroken := by
    intro entry inside
    refine entryLines_given (formed.filled entry inside)
      fun row (member : row ∈ Writer.entryLines job.charset entry) => plain row ?_
    simp only [rows, fieldLines, List.mem_append, List.mem_flatMap]
    exact .inl (.inl (.inl ⟨entry, inside, member⟩))
  refine ⟨reason, fun entry inside => (entries entry inside).1,
    fun entry inside => (entries entry inside).2, fun value inside => ?_⟩
  have row : ("Set-Cookie".toList, value) ∈ job.rows date := by
    simp only [rows, fieldLines, List.mem_append, List.mem_map]
    exact .inl (.inl (.inr ⟨value, inside, rfl⟩))
  exact (plain _ row).2

theorem lines_plain_iff (formed : job.headers.WellFormed) (dated : date.Unbroken)
    (started : job.start = .ok start) :
    (∀ line ∈ job.lines date start, PlainLine line) ↔ job.Unbroken := by
  unfold lines
  rw [List.forall_mem_cons, start_plain_iff started, List.forall_mem_map]
  constructor
  · rintro ⟨reason, plain⟩
    exact rows_given date formed reason fun row member => row_plain_iff.mp (plain row member)
  · intro unbroken
    exact ⟨unbroken.reason,
      fun row member => row_plain_iff.mpr (rows_unbroken date dated unbroken row member)⟩

end Writer.Job

section Heads

structure Head (bytes : Bytes) (lines : List Bytes) (rest : Bytes) : Prop where
  plain : ∀ line ∈ lines, PlainLine line
  whole : bytes = sectionBytes lines ++ rest

instance (bytes : Bytes) (lines : List Bytes) (rest : Bytes) : Decidable (Head bytes lines rest) :=
  decidable_of_iff ((∀ line ∈ lines, PlainLine line) ∧ bytes = sectionBytes lines ++ rest)
    ⟨fun ⟨plain, whole⟩ => ⟨plain, whole⟩, fun ⟨plain, whole⟩ => ⟨plain, whole⟩⟩

structure Writer.Job.Found (date : Text) (job : Writer.Job) (start : StartLine) (bytes : Bytes) : Prop where
  started : job.start = .ok start
  names : (job.rows date).map Prod.fst = job.names
  exact : job.Unbroken ↔
    ∀ lines rest, Head bytes lines rest ↔ lines = job.lines date start ∧ rest = job.body

-- If a job is written then its lines are found again and the body behind them, unless a reason, a
-- name, a value or a cookie has a line end, and then they are not.
theorem written_lines (seconds : Int) (job : Writer.Job) (built : job.headers.Built) (bytes : Bytes)
    (written : job.run (Date.render seconds) = .ok bytes) :
    ∃ start, job.Found (Date.render seconds) start bytes := by
  obtain ⟨start, started, whole⟩ := Writer.Job.run_lines _ written
  have dated : (Date.render seconds).Unbroken := Text.plain_unbroken (Date.render_plain seconds)
  have plain_iff := Writer.Job.lines_plain_iff (Date.render seconds) built.wellFormed dated started
  refine ⟨start, started, Writer.Job.rows_names _, ?_⟩
  rw [← plain_iff]
  constructor
  · intro plain lines rest
    constructor
    · intro head
      exact section_unique head.plain plain (head.whole.symm.trans whole)
    · rintro ⟨rfl, rfl⟩
      exact ⟨plain, whole⟩
  · intro found
    exact ((found _ _).mpr ⟨rfl, rfl⟩).plain

theorem written_lines_bare :
    let headers := FieldMap.empty.insert "X\n".toList "a\r".toList |>.insert "x\n".toList "\nb".toList
      |>.insert "Date".toList []
    let job := Writer.Job.response .v11 200 "O\rK".toList headers (ascii "\r\n\r\n")
    ∃ bytes, job.run (Date.render 0) = .ok bytes ∧ ∀ lines rest, Head bytes lines rest ↔
      lines = [ascii "HTTP/1.1 200 O\rK", ascii "X\n: a\r, \nb", ascii "Date: ", ascii "Content-Length: 4"] ∧
        rest = ascii "\r\n\r\n" := by
  intro headers job
  have built : job.headers.Built := .insert _ _ (.insert _ _ (.insert _ _ .empty))
  have passed : (job.run (Date.render 0)).isOk = true := by decide +kernel
  cases written : job.run (Date.render 0) with
  | error e =>
    rw [written] at passed
    cases passed
  | ok bytes =>
    obtain ⟨start, started, -, exact⟩ := written_lines 0 job built bytes written
    cases started
    have lines : job.lines (Date.render 0) (Writer.statusLine .v11 200 "O\rK".toList)
        = [ascii "HTTP/1.1 200 O\rK", ascii "X\n: a\r, \nb", ascii "Date: ", ascii "Content-Length: 4"] := by
      decide +kernel
    refine ⟨bytes, rfl, ?_⟩
    rw [← lines]
    exact exact.mp (by decide)

theorem field_injected :
    let headers := FieldMap.empty.insert "X".toList "a\r\nInjected: b".toList |>.insert "Date".toList []
    let job := Writer.Job.response .v11 200 "OK".toList headers []
    ∃ bytes start, job.run (Date.render 0) = .ok bytes ∧ job.start = .ok start ∧ job.names.length = 3 ∧
      ¬ Head bytes (job.lines (Date.render 0) start) job.body ∧
      Head bytes [ascii "HTTP/1.1 200 OK", ascii "X: a", ascii "Injected: b", ascii "Date: ",
        ascii "Content-Length: 0"] job.body := by
  intro headers job
  have passed : (job.run (Date.render 0)).toOption = some (sectionBytes
      [ascii "HTTP/1.1 200 OK", ascii "X: a", ascii "Injected: b", ascii "Date: ",
        ascii "Content-Length: 0"]) := by
    decide +kernel
  cases written : job.run (Date.render 0) with
  | error e =>
    rw [written] at passed
    cases passed
  | ok bytes =>
    rw [written] at passed
    cases passed
    refine ⟨_, Writer.statusLine .v11 200 "OK".toList, rfl, rfl, by decide, ?_, ?_⟩
    · decide +kernel
    · decide +kernel

end Heads

end HttpWire
