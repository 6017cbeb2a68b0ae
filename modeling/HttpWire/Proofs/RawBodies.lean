import HttpWire.Proofs.Delimiting
import HttpWire.Proofs.Receiving
import HttpWire.Proofs.SoundReaders
import HttpWire.Proofs.WrittenMessages

-- Such a body is the bytes behind the header, up to the declared length or to the end of input.
namespace HttpWire

namespace Event

section Summaries

def bodyData (events : List Event) : Bytes :=
  events.flatMap fun
    | .data .body bytes => bytes
    | _ => []

theorem bodyData_append (first last : List Event) : bodyData (first ++ last) = bodyData first ++ bodyData last :=
  List.flatMap_append

theorem bodyData_ofData (bytes : Bytes) : bodyData (ofData .body bytes) = bytes := by
  unfold ofData
  split
  · rename_i empty
    rw [empty]
    rfl
  · exact List.append_nil bytes

theorem joinOnto_cases (e : Event) (events : List Event) :
    joinOnto e events = e :: events ∨ ∃ place a b later, e = .data place a ∧
      events = .data place b :: later ∧ joinOnto e events = .data place (a ++ b) :: later := by
  unfold joinOnto
  split
  · split
    · rename_i place a other b later same
      subst same
      exact .inr ⟨place, a, b, later, rfl, rfl, rfl⟩
    · exact .inl rfl
  · exact .inl rfl

theorem bodyData_joined (events : List Event) : bodyData (joined events) = bodyData events := by
  induction events with
  | nil => rfl
  | cons e events ih =>
    have cons : bodyData (e :: events) = bodyData [e] ++ bodyData events := bodyData_append [e] events
    rw [joined_cons, cons, ← ih]
    rcases joinOnto_cases e (joined events) with same | ⟨place, a, b, later, rfl, next, both⟩
    · rw [same]
      exact bodyData_append [e] (joined events)
    · rw [both, next]
      cases place with
      | body => simp [bodyData]
      | _ => rfl

theorem filter_joined (p : Event → Bool) (plain : ∀ place bytes, p (.data place bytes) = false)
    (events : List Event) : (joined events).filter p = events.filter p := by
  induction events with
  | nil => rfl
  | cons e events ih =>
    rw [joined_cons, List.filter_cons, ← ih]
    rcases joinOnto_cases e (joined events) with same | ⟨place, a, b, later, rfl, next, both⟩
    · rw [same, List.filter_cons]
    · rw [both, next]
      simp only [List.filter_cons, plain, Bool.false_eq_true, if_false]

theorem headerDone_isOther (format : BodyFormat) : (headerDone format).IsOther := fun _ _ => nofun

theorem mem_joined {e : Event} (other : e.IsOther) {events others : List Event}
    (same : joined events = joined others) (member : e ∈ events) : e ∈ others := by
  have plain : ∀ place bytes, (Event.data place bytes == e) = false := fun place bytes =>
    beq_false_of_ne fun data => other place bytes data.symm
  have kept : e ∈ events.filter (· == e) := List.mem_filter.mpr ⟨member, beq_self_eq_true e⟩
  rw [← filter_joined _ plain, same, filter_joined _ plain] at kept
  exact (List.mem_filter.mp kept).1

end Summaries

end Event

namespace Reader

section Heading

def Ahead : Event → Prop
  | .start _ | .field .header _ | .element .header _ => True
  | _ => False

theorem ahead_ofField (f : Field) : ∀ e ∈ Event.ofField .header f, Ahead e := by
  intro e member
  rcases List.mem_cons.mp member with rfl | element
  · trivial
  · obtain ⟨value, _, rfl⟩ := List.mem_map.mp element
    trivial

-- A turn in front of the body ends the header, and announces nothing else, or stays in front of it.
def Turn.Heads (r : Reader) (bytes : Bytes) : Turn → Prop
  | .onward told next rest =>
    (∃ size format, r.phase = .header size ∧ told = [.headerDone format] ∧ bytes = crlf ++ rest ∧
      next.phase = bodyPhase format ∧ next.seen = r.seen) ∨ (∀ e ∈ told, Ahead e) ∧ ¬ next.Past
  | .pause told _ _ => told = []
  | .fault told _ => told = []

theorem turn_heads (r : Reader) (bytes : Bytes) (early : ¬ r.Past) : (turn r bytes).Heads r bytes := by
  cases phase : r.phase with
  | start =>
    simp only [turn, phase, startTurn]
    split
    · exact .inr ⟨List.forall_mem_nil _, Bool.false_ne_true⟩
    · split
      · rfl
      · exact .inr ⟨List.forall_mem_nil _, Bool.false_ne_true⟩
  | startLine =>
    simp only [turn, phase, startLineTurn]
    split
    · rfl
    · rfl
    · split
      · rfl
      · exact .inr ⟨List.forall_mem_singleton.mpr trivial, Bool.false_ne_true⟩
  | header size =>
    simp only [turn, phase, headerTurn]
    split
    · rfl
    · rfl
    · rename_i rest closed
      split
      · rfl
      · rename_i framing _
        exact .inl ⟨size, framing.format, phase, rfl, (sectionLine_closed_behind closed).1, rfl, rfl⟩
    · split
      · rfl
      · exact .inr ⟨ahead_ofField _, Bool.false_ne_true⟩
  | _ => exact absurd (by rw [Past, phase]; rfl) early

theorem header_end {r next : Reader} {bytes rest : Bytes} {told : List Event} {size : Nat}
    (inside : r.phase = .header size) (went : turn r bytes = .onward told next rest)
    (whole : bytes = crlf ++ rest) (other : Bytes) :
    scan r (crlf ++ other) = (scan next other).announce told := by
  have started : r.phase ≠ .start := by
    rw [inside]
    nofun
  obtain ⟨spent, split, again⟩ := turn_selfContained r started _ _ _ _ went
  obtain rfl : spent = crlf := List.append_cancel_right (split.symm.trans whole)
  exact scan_step (again other)

-- Where a call announces the end of the header, the bytes in front of it do so, whatever comes behind.
theorem header_behind (r : Reader) (bytes : Bytes) (format : BodyFormat) (early : ¬ r.Past) (sound : r.Sound)
    (announced : .headerDone format ∈ (scan r bytes).events) :
    ∃ spent rest told next, bytes = spent ++ rest ∧ 2 ≤ spent.length ∧ (∀ e ∈ told, Ahead e) ∧
      next.phase = bodyPhase format ∧ next.seen = 0 ∧ next.Sound ∧
      ∀ other, scan r (spent ++ other) = (scan next other).announce (told ++ [.headerDone format]) := by
  fun_induction scan r bytes with
  | case1 r bytes told next rest went later ih =>
    have heads := turn_heads r bytes early
    have kept := turn_sound r bytes sound
    rw [went] at heads kept
    rcases heads with ⟨size, found, inside, rfl, whole, phase, seen⟩ | ⟨ahead, before⟩
    · -- This turn ends the header, and no later one announces its end.
      have unread : next.seen = 0 := seen.trans (sound.unread (Bool.eq_false_iff.mpr early))
      have past : next.Past := by
        rw [Past, phase]
        cases found <;> rfl
      have same : format = found := by
        rcases List.mem_append.mp announced with here | behind
        · exact Event.headerDone.inj (List.mem_singleton.mp here)
        · exact absurd ((scan_follows next rest past).1 _ behind) id
      subst same
      exact ⟨crlf, rest, [], next, whole, by decide, List.forall_mem_nil _, phase, unread, kept.2,
        header_end inside went whole⟩
    · -- This turn stands in front of the end, which is still to be announced.
      have behind : .headerDone format ∈ later.events := by
        rcases List.mem_append.mp announced with here | behind
        · exact absurd (ahead _ here) id
        · exact behind
      obtain ⟨mine, left, told', last, split, long, ahead', phase, seen, sound', after⟩ :=
        ih before kept.2 behind
      rw [split] at went
      obtain ⟨spent, whole, again⟩ := turn_behind went fun _ => long
      refine ⟨spent ++ mine, left, told ++ told', last, ?_, ?_, ?_, phase, seen, sound', fun other => ?_⟩
      · rw [whole, List.append_assoc]
      · rw [List.length_append]
        omega
      · intro e member
        rcases List.mem_append.mp member with here | there
        · exact ahead e here
        · exact ahead' e there
      · rw [List.append_assoc, scan_step (again other), after, announce_announce, List.append_assoc]
  | case2 r bytes told next rest went =>
    have heads := turn_heads r bytes early
    rw [went] at heads
    subst heads
    cases announced
  | case3 r bytes told e went =>
    have heads := turn_heads r bytes early
    rw [went] at heads
    subst heads
    cases announced

end Heading

section Raw

-- That the header has ended is the last that a fresh reader announces of these bytes.
def RawHeader (skip : Bool) (head : Bytes) (declared : Option Nat) : Prop :=
  ∃ (told : Array Event) (r : Reader), ({ skipStartLine := skip } : Reader).read Handler.record #[] head
      = (told.push (.headerDone .raw), .ok ⟨r, []⟩) ∧ r.framing.declared = declared

structure Entered (skip : Bool) (head : Bytes) (told : List Event) (r : Reader) : Prop where
  phase : r.phase = .body
  unread : r.seen = 0
  filled : ∀ length, r.framing.declared = some length → 0 < length
  ahead : ∀ e ∈ told, Ahead e
  long : 2 ≤ head.length
  behind : ∀ supplied, scan { skipStartLine := skip } (head ++ supplied)
    = (scan r supplied).announce (told ++ [.headerDone .raw])

variable {skip : Bool} {head supplied : Bytes} {declared : Option Nat} {told : List Event} {r : Reader}

theorem entered_found (bytes : Bytes)
    (announced : .headerDone .raw ∈ (scan { skipStartLine := skip } bytes).events) :
    ∃ head supplied told r, bytes = head ++ supplied ∧ Entered skip head told r := by
  obtain ⟨head, supplied, told, r, whole, long, ahead, phase, unread, sound, behind⟩ :=
    header_behind _ bytes .raw (by nofun) (fresh_sound skip) announced
  refine ⟨head, supplied, told, r, whole, phase, unread, fun length declared => ?_, ahead, long, behind⟩
  exact unread ▸ (sound.body phase).2 length declared

namespace Entered

theorem remaining (entered : Entered skip head told r) : r.remaining = r.framing.declared := by
  unfold Reader.remaining
  rw [entered.unread]
  cases r.framing.declared <;> rfl

theorem unended (entered : Entered skip head told r) (supplied : Bytes)
    (short : ∀ length, r.framing.declared = some length → supplied.length < length) :
    scan { skipStartLine := skip } (head ++ supplied)
      = ⟨told ++ .headerDone .raw :: Event.ofData .body supplied,
          .ok ⟨{ r with seen := supplied.length }, []⟩⟩ := by
  have rest := body_open r entered.phase supplied fun missing left =>
    short missing (entered.remaining ▸ left)
  rw [entered.unread, Nat.zero_add] at rest
  rw [entered.behind, rest]
  simp only [Scan.announce, List.append_assoc, List.singleton_append]

theorem ended (entered : Entered skip head told r) (length : Nat)
    (declared : r.framing.declared = some length) (enough : length ≤ supplied.length) :
    scan { skipStartLine := skip } (head ++ supplied)
      = ⟨told ++ .headerDone .raw :: (Event.ofData .body (supplied.take length) ++ [.dataDone .body]),
          .ok ⟨{ r with phase := .done, seen := length }, supplied.drop length⟩⟩ := by
  have rest := body_ended r entered.phase supplied length (entered.remaining.trans declared) enough
  rw [entered.unread, Nat.zero_add] at rest
  rw [entered.behind, rest]
  simp only [Scan.announce, List.append_assoc, List.singleton_append]

theorem alone (entered : Entered skip head told r) :
    scan { skipStartLine := skip } head = ⟨told ++ [.headerDone .raw], .ok ⟨r, []⟩⟩ := by
  have whole := entered.unended [] entered.filled
  have same : { r with seen := ([] : Bytes).length } = r := by
    rw [List.length_nil, ← entered.unread]
  rwa [List.append_nil, same] at whole

theorem uncounted (entered : Entered skip head told r) : r.consumed = 0 :=
  scan_consumed _ head ⟨r, []⟩ (congrArg Scan.result entered.alone)

theorem header (entered : Entered skip head told r) : RawHeader skip head r.framing.declared := by
  have delivered : Handler.deliver Handler.record #[] (told ++ [.headerDone .raw])
      = (told.toArray.push (.headerDone .raw), none) := by
    rw [Handler.deliver_record]
    simp
  refine ⟨told.toArray, (Reading.counted ⟨r, []⟩ head).reader, ?_, rfl⟩
  rw [read, entered.alone]
  simp only [delivered]
  rfl

theorem silent (entered : Entered skip head told r) (quiet : (scan r supplied).events = []) :
    supplied = [] := by
  by_cases short : ∀ missing, r.remaining = some missing → supplied.length < missing
  · rw [body_open r entered.phase supplied short] at quiet
    by_contra some
    simp [Event.ofData, some] at quiet
  · simp only [not_forall, Nat.not_lt] at short
    obtain ⟨missing, left, enough⟩ := short
    rw [body_ended r entered.phase supplied missing left enough] at quiet
    exact absurd quiet (List.append_ne_nil_of_right_ne_nil _ (List.cons_ne_nil _ _))

end Entered

theorem append_last {α : Type} {front more seen : List α} {e : α} (same : front ++ more = seen ++ [e])
    (free : e ∉ more) : more = [] := by
  rcases List.eq_nil_or_concat more with none | ⟨init, last, rfl⟩
  · exact none
  · rw [List.concat_eq_append, ← List.append_assoc] at same
    have ended : last = e := List.singleton_inj.mp (List.append_inj' same rfl).2
    exact absurd (by simp [ended]) free

theorem RawHeader.entered (header : RawHeader skip head declared) :
    ∃ told r, Entered skip head told r ∧ r.framing.declared = declared := by
  obtain ⟨seen, last, ran, rfl⟩ := header
  obtain ⟨delivered, x, scanned, same⟩ := read_taken ran
  have events : (scan { skipStartLine := skip } head).events = seen.toList ++ [.headerDone .raw] := by
    rw [Handler.deliver_record, Prod.mk.injEq] at delivered
    simpa using congrArg Array.toList delivered.1
  obtain ⟨front, extra, told, r, rfl, entered⟩ := entered_found head (by rw [events]; simp)
  have quiet : (scan r extra).events = [] := by
    have follows := (scan_follows r extra (by rw [Past, entered.phase]; rfl)).1
    rw [entered.behind] at events
    exact append_last events fun again => follows _ again
  have nothing : extra = [] := entered.silent quiet
  subst nothing
  rw [List.append_nil] at scanned same ⊢
  rw [entered.alone] at scanned
  cases scanned
  cases same
  exact ⟨told, r, entered, rfl⟩

end Raw

section Supplied

structure Counted (head supplied : Bytes) (length : Nat) (told : Array Event) (x : Reading) : Prop where
  announced : .headerDone .raw ∈ told
  data : Event.bodyData told.toList = supplied.take length
  rest : x.rest = supplied.drop length
  consumed : x.reader.consumed = head.length + min length supplied.length
  progress : x.progress = if length ≤ supplied.length then .complete else .incomplete
  ended : told.toList.filter (· == .dataDone .body)
    = if length ≤ supplied.length then [.dataDone .body] else []
  finish : x.reader.finish Handler.record told
    = (told, if length ≤ supplied.length then .ok x.reader else .error .moreData)

structure OpenEnded (head supplied : Bytes) (told : Array Event) (x : Reading) : Prop where
  announced : .headerDone .raw ∈ told
  data : Event.bodyData told.toList = supplied
  rest : x.rest = []
  consumed : x.reader.consumed = head.length + supplied.length
  progress : x.progress = .openEnded
  ended : told.toList.filter (· == .dataDone .body) = []
  finish : x.reader.finish Handler.record told
    = (told.push (.dataDone .body), .ok { x.reader with phase := .done })

variable {skip : Bool} {head supplied : Bytes} {told : List Event} {r : Reader}

theorem fed_scan (skip : Bool) (pieces : List Bytes) (some : pieces ≠ []) :
    let cut := feed Handler.record pieces #[] { reader := { skipStartLine := skip } }
    let whole := scan { skipStartLine := skip } pieces.flatten
    Event.joined cut.1.toList = Event.joined whole.events ∧
      cut.2 = whole.result.map (·.counted pieces.flatten) := by
  cases pieces with
  | nil => exact absurd rfl some
  | cons first later =>
    have law := feed_record { reader := { skipStartLine := skip } } #[] first later
    rw [push_record] at law
    simpa using law

theorem ahead_quiet (ahead : ∀ e ∈ told, Ahead e) (behind : List Event) :
    Event.bodyData (told ++ .headerDone .raw :: behind) = Event.bodyData behind ∧
      (told ++ .headerDone .raw :: behind).filter (· == .dataDone .body)
        = behind.filter (· == .dataDone .body) := by
  have none : Event.bodyData told = [] ∧ told.filter (· == .dataDone .body) = [] := by
    constructor
    · refine List.flatMap_eq_nil_iff.mpr fun e member => ?_
      have here := ahead e member
      cases e with
      | data place bytes => exact absurd here id
      | _ => rfl
    · refine List.filter_eq_nil_iff.mpr fun e member same => ?_
      have here := ahead e member
      rw [beq_iff_eq.mp same] at here
      exact here
  constructor
  · rw [Event.bodyData_append, none.1]
    rfl
  · rw [List.filter_append, none.2]
    rfl

theorem fed_summary {cut : Array Event} (ahead : ∀ e ∈ told, Ahead e) (data : Bytes) (ends : List Event)
    (closing : ends = [] ∨ ends = [.dataDone .body])
    (events : Event.joined cut.toList
      = Event.joined (told ++ .headerDone .raw :: (Event.ofData .body data ++ ends))) :
    Event.bodyData cut.toList = data ∧ cut.toList.filter (· == .dataDone .body) = ends ∧
      .headerDone .raw ∈ cut := by
  have plain : (Event.ofData .body data).filter (· == .dataDone .body) = [] := by
    unfold Event.ofData
    split <;> rfl
  have last : Event.bodyData ends = [] ∧ ends.filter (· == .dataDone .body) = ends := by
    rcases closing with rfl | rfl
    · exact ⟨rfl, rfl⟩
    · exact ⟨rfl, rfl⟩
  obtain ⟨summary, marks⟩ := ahead_quiet ahead (Event.ofData .body data ++ ends)
  have header : .headerDone .raw ∈ cut.toList :=
    Event.mem_joined (Event.headerDone_isOther .raw) events.symm (by simp)
  refine ⟨?_, ?_, Array.mem_def.mpr header⟩
  · rw [← Event.bodyData_joined, events, Event.bodyData_joined, summary, Event.bodyData_append,
      Event.bodyData_ofData, last.1, List.append_nil]
  · rw [← Event.filter_joined _ (fun _ _ => rfl), events, Event.filter_joined _ (fun _ _ => rfl), marks,
      List.filter_append, plain, last.2, List.nil_append]

theorem Entered.ended_counted (entered : Entered skip head told r) {length : Nat} {cut : Array Event}
    (enough : length ≤ supplied.length)
    (events : Event.joined cut.toList = Event.joined (told ++ .headerDone .raw ::
      (Event.ofData .body (supplied.take length) ++ [.dataDone .body]))) :
    Counted head supplied length cut (Reading.counted
      ⟨{ r with phase := .done, seen := length }, supplied.drop length⟩ (head ++ supplied)) := by
  obtain ⟨data, ends, announced⟩ := fed_summary entered.ahead _ _ (.inr rfl) events
  refine ⟨announced, data, rfl, ?_, ?_, ?_, ?_⟩
  · simp only [Reading.counted, Reading.used, entered.uncounted, List.length_append, List.length_drop]
    omega
  · rw [if_pos enough]
    rfl
  · rw [if_pos enough]
    exact ends
  · rw [if_pos enough]
    exact done_finish Handler.record cut rfl

theorem Entered.unended_counted (entered : Entered skip head told r) {length : Nat} {cut : Array Event}
    (declared : r.framing.declared = some length) (short : supplied.length < length)
    (events : Event.joined cut.toList
      = Event.joined (told ++ .headerDone .raw :: Event.ofData .body supplied)) :
    Counted head supplied length cut (Reading.counted
      ⟨{ r with seen := supplied.length }, []⟩ (head ++ supplied)) := by
  rw [← List.append_nil (Event.ofData .body supplied)] at events
  obtain ⟨data, ends, announced⟩ := fed_summary entered.ahead _ _ (.inl rfl) events
  have open_ : ¬ length ≤ supplied.length := Nat.not_le.mpr short
  refine ⟨announced, ?_, ?_, ?_, ?_, ?_, ?_⟩
  · rw [List.take_of_length_le (Nat.le_of_lt short)]
    exact data
  · exact (List.drop_of_length_le (Nat.le_of_lt short)).symm
  · simp only [Reading.counted, Reading.used, entered.uncounted, List.length_append, List.length_nil]
    omega
  · rw [if_neg open_]
    simp only [Reading.progress, Reading.counted, Reader.progress, isDone, isOpenEnded, entered.phase, declared]
    rfl
  · rw [if_neg open_]
    exact ends
  · rw [if_neg open_, finish_record]
    simp only [Reading.counted, ending?, entered.phase, isOpenEnded, declared]
    rfl

theorem Entered.open_ended (entered : Entered skip head told r) {cut : Array Event}
    (declared : r.framing.declared = none)
    (events : Event.joined cut.toList
      = Event.joined (told ++ .headerDone .raw :: Event.ofData .body supplied)) :
    OpenEnded head supplied cut (Reading.counted
      ⟨{ r with seen := supplied.length }, []⟩ (head ++ supplied)) := by
  rw [← List.append_nil (Event.ofData .body supplied)] at events
  obtain ⟨data, ends, announced⟩ := fed_summary entered.ahead _ _ (.inl rfl) events
  refine ⟨announced, data, rfl, ?_, ?_, ends, ?_⟩
  · simp only [Reading.counted, Reading.used, entered.uncounted, List.length_append, List.length_nil]
    omega
  · simp only [Reading.progress, Reading.counted, Reader.progress, isDone, isOpenEnded, entered.phase, declared]
    rfl
  · rw [finish_record]
    simp only [Reading.counted, ending?, entered.phase, isOpenEnded, declared]
    simp

-- No call fails behind such a header. A declared length ends the body, once, as soon as it is there,
-- and nothing but the end of input ends a body without one.
theorem raw_body_exact (skip : Bool) (pieces : List Bytes) :
    let cut := feed Handler.record pieces #[] { reader := { skipStartLine := skip } }
    (.headerDone .raw ∈ cut.1 →
      ∃ head supplied declared, pieces.flatten = head ++ supplied ∧ RawHeader skip head declared) ∧
    ∀ head supplied declared, RawHeader skip head declared → pieces.flatten = head ++ supplied →
      ∃ x, cut.2 = .ok x ∧
        (∀ length, declared = some length → Counted head supplied length cut.1 x) ∧
        (declared = none → OpenEnded head supplied cut.1 x) := by
  intro cut
  have fed := fed_scan skip pieces
  constructor
  · intro announced
    have some : pieces ≠ [] := by
      rintro rfl
      exact absurd announced (Array.not_mem_empty _)
    obtain ⟨head, supplied, told, r, whole, entered⟩ := entered_found pieces.flatten
      (Event.mem_joined (Event.headerDone_isOther .raw) (fed some).1 (Array.mem_def.mp announced))
    exact ⟨head, supplied, _, whole, entered.header⟩
  · intro head supplied declared header whole
    obtain ⟨told, r, entered, rfl⟩ := header.entered
    have some : pieces ≠ [] := by
      rintro rfl
      have long := entered.long
      rw [(List.append_eq_nil_iff.mp whole.symm).1] at long
      cases long
    obtain ⟨events, result⟩ := fed some
    rw [whole] at events result
    cases limit : r.framing.declared with
    | none =>
      have scanned := entered.unended supplied fun length given => by
        rw [limit] at given
        cases given
      rw [scanned] at events result
      exact ⟨_, result, nofun, fun _ => entered.open_ended limit events⟩
    | some length =>
      by_cases enough : length ≤ supplied.length
      · rw [entered.ended length limit enough] at events result
        have counted := entered.ended_counted enough events
        refine ⟨_, result, fun same given => ?_, nofun⟩
        cases given
        exact counted
      · have short := Nat.not_le.mp enough
        have scanned := entered.unended supplied fun same given => by
          rw [limit] at given
          cases given
          exact short
        rw [scanned] at events result
        have counted := entered.unended_counted limit short events
        refine ⟨_, result, fun same given => ?_, nofun⟩
        cases given
        exact counted

theorem raw_body_in_fragments :
    let counted := ascii "HTTP/1.1 200 OK\r\nContent-Length: 3\r\n\r\n"
    let pieces := [ascii "HTTP/1.1 200 OK\r\nContent-Length: 3\r\n\r", ascii "\na", [], ascii "bcd"]
    let cut := feed Handler.record pieces #[] {}
    let unlimited := ascii "HTTP/1.1 200 OK\r\n\r\n"
    let run := feed Handler.record [ascii "HTTP/1.1 200 OK\r\n\r\nab", ascii "cd"] #[] {}
    (∃ x, cut.2 = .ok x ∧ Counted counted (ascii "abcd") 3 cut.1 x) ∧
      ∃ x, run.2 = .ok x ∧ OpenEnded unlimited (ascii "abcd") run.1 x := by
  intro counted pieces cut unlimited run
  have limited : RawHeader false counted (some 3) := by
    refine ⟨#[.start (.response .v11 200 "OK".toList), .field .header ⟨"Content-Length".toList, ['3']⟩,
        .element .header ⟨"Content-Length".toList, ['3']⟩],
      { phase := .body, sender := .server 200, framing := ⟨.raw, some 3, none⟩, consumed := counted.length },
      Prod.ext ?_ ?_, rfl⟩
    · decide +kernel
    · decide +kernel
  have bare : RawHeader false unlimited none := by
    refine ⟨#[.start (.response .v11 200 "OK".toList)],
      { phase := .body, sender := .server 200, framing := ⟨.raw, none, none⟩, consumed := unlimited.length },
      Prod.ext ?_ ?_, rfl⟩
    · decide +kernel
    · decide +kernel
  obtain ⟨x, read, stands, -⟩ :=
    (raw_body_exact false pieces).2 counted (ascii "abcd") _ limited (by decide)
  obtain ⟨y, ran, -, open_⟩ := (raw_body_exact false [ascii "HTTP/1.1 200 OK\r\n\r\nab", ascii "cd"]).2
    unlimited (ascii "abcd") _ bare (by decide)
  exact ⟨⟨x, read, stands 3 rfl⟩, y, ran, open_ rfl⟩

end Supplied

end Reader
end HttpWire
