import HttpWire.Proofs.Resumption.Turns

-- A turn sees only the body's own bytes, so two facts are joined: how the turn itself resumes, and
-- that the end of the body stays where it is.
namespace HttpWire.Reader

def Turn.enclose (r : Reader) (own beyond : Bytes) : Turn → Turn
  | .fault told e => .fault told e
  | .onward told next rest =>
    .onward told { next with seen := r.seen + (own.length - rest.length) } (rest ++ beyond)
  | .pause told next rest =>
    match if r.expectsMore own then none else lack? r.phase with
    | some e => .fault told e
    | none => .pause told { next with seen := r.seen + (own.length - rest.length) } (rest ++ beyond)

theorem inBody_eq (r : Reader) (f : Reader → Bytes → Turn) (bytes : Bytes) :
    inBody r f bytes = (f r (within r.remaining bytes)).enclose r (within r.remaining bytes)
      (bytes.drop (within r.remaining bytes).length) := by
  cases ran : f r (within r.remaining bytes) with
  | onward told next rest => simp only [inBody, ran, Turn.enclose]
  | fault told e => simp only [inBody, ran, Turn.enclose]
  | pause told next rest =>
    cases lacks : if r.expectsMore (within r.remaining bytes) then none else lack? r.phase with
    | none => simp only [inBody, ran, Turn.enclose, lacks]
    | some e => simp only [inBody, ran, Turn.enclose, lacks]

-- A turn up to the count of body bytes, which is kept outside of it.
def Turn.uncounted : Turn → Turn
  | .onward told next rest => .onward (Event.joined told) { next with seen := 0 } rest
  | .pause told next rest => .pause (Event.joined told) { next with seen := 0 } rest
  | .fault told e => .fault (Event.joined told) e

theorem recount {a b : Reader} {m n : Nat}
    (same : ({ a with seen := 0 } : Reader) = { b with seen := 0 })
    (count : m = n) : ({ a with seen := m } : Reader) = { b with seen := n } := by
  subst count
  exact congrArg (fun r : Reader => { r with seen := m }) same

theorem enclose_congr (r s : Reader) (own left beyond : Bytes) (t u : Turn)
    (same : t.uncounted = u.uncounted) (leaves : u.Leaves left)
    (place : ∃ spent, own = spent ++ left ∧ s.seen = r.seen + spent.length)
    (more : r.expectsMore own = s.expectsMore left) (lacks : lack? r.phase = lack? s.phase) :
    (t.enclose r own beyond).joined = (u.enclose s left beyond).joined := by
  obtain ⟨spent, rfl, seen⟩ := place
  have count : ∀ rest : Bytes, rest <:+ left →
      r.seen + ((spent ++ left).length - rest.length) = s.seen + (left.length - rest.length) := by
    intro rest inside
    have short := inside.length_le
    rw [seen, List.length_append]
    omega
  cases t with
  | onward told next rest =>
    cases u with
    | onward told' next' rest' =>
      simp only [Turn.uncounted, Turn.onward.injEq] at same
      obtain ⟨events, readers, rfl⟩ := same
      simp only [Turn.enclose, Turn.joined, events, recount readers (count rest leaves)]
    | pause _ _ _ => cases same
    | fault _ _ => cases same
  | pause told next rest =>
    cases u with
    | onward _ _ _ => cases same
    | pause told' next' rest' =>
      simp only [Turn.uncounted, Turn.pause.injEq] at same
      obtain ⟨events, readers, rfl⟩ := same
      simp only [Turn.enclose, more, lacks]
      split
      · simp only [Turn.joined, events]
      · simp only [Turn.joined, events, recount readers (count rest leaves)]
    | fault _ _ => cases same
  | fault told e =>
    cases u with
    | onward _ _ _ => cases same
    | pause _ _ _ => cases same
    | fault told' e' => exact same

theorem expectsMore_iff (r : Reader) (bytes : Bytes) :
    r.expectsMore bytes = true ↔ r.remaining.map (· - bytes.length) ≠ some 0 := by
  unfold expectsMore
  cases r.remaining with
  | none => simp
  | some n => simp only [decide_eq_true_eq, Option.map_some, ne_eq, Option.some.injEq]; omega

theorem within_expecting (r : Reader) (bytes : Bytes) (expects : r.expectsMore bytes = true) :
    within r.remaining bytes = bytes := by
  unfold expectsMore at expects
  cases left : r.remaining with
  | none => rfl
  | some n =>
    simp only [left, decide_eq_true_eq] at expects
    exact List.take_of_length_le (Nat.le_of_lt expects)

-- Some of the body's bytes are spent, and the reader `s` will take up the others with its turn `g`.
def Waits (r : Reader) (f : Reader → Bytes → Turn) (own : Bytes) (told : List Event)
    (next : Reader) (rest : Bytes) : Prop :=
  ∃ spent s g, own = spent ++ rest ∧ s = { next with seen := r.seen + spent.length } ∧
    s.framing.declared = r.framing.declared ∧ lack? r.phase = lack? s.phase ∧
    (∀ input, turn s input = inBody s g input) ∧ (∀ input, (g s input).Leaves input) ∧
    ∀ more, (f r (own ++ more)).uncounted = ((g s (rest ++ more)).announce told).uncounted

structure Resumable (r : Reader) (f : Reader → Bytes → Turn) (own : Bytes) : Prop where
  onward : ∀ told next rest more, f r own = .onward told next rest →
    f r (own ++ more) = .onward told next (rest ++ more)
  fault : ∀ told e more, f r own = .fault told e → f r (own ++ more) = .fault told e
  pause : ∀ told next rest, f r own = .pause told next rest → Waits r f own told next rest

theorem Resumable.of_pause (r next : Reader) (f : Reader → Bytes → Turn) (own rest : Bytes)
    (told : List Event) (wait : f r own = .pause told next rest)
    (waits : Waits r f own told next rest) : Resumable r f own := by
  constructor
  · intro told' next' rest' more went
    rw [wait] at went
    cases went
  · intro told' e more went
    rw [wait] at went
    cases went
  · intro told' next' rest' went
    rw [wait] at went
    cases went
    exact waits

theorem Turn.Leaves.announce {bytes : Bytes} {t : Turn} (leaves : t.Leaves bytes) (told : List Event) :
    (t.announce told).Leaves bytes := by
  cases t <;> exact leaves

theorem enclose_announce (r : Reader) (own beyond : Bytes) (told : List Event) (t : Turn) :
    (t.announce told).enclose r own beyond = (t.enclose r own beyond).announce told := by
  cases t with
  | onward => rfl
  | fault => rfl
  | pause later next rest =>
    simp only [Turn.announce, Turn.enclose]
    split <;> rfl

theorem remaining_moved (r s : Reader) (spent : Bytes) (seen : s.seen = r.seen + spent.length)
    (declared : s.framing.declared = r.framing.declared) :
    s.remaining = r.remaining.map (· - spent.length) := by
  simp [remaining, seen, declared, Function.comp_def, Nat.sub_sub]

theorem expectsMore_moved (r s : Reader) (spent left : Bytes)
    (seen : s.seen = r.seen + spent.length)
    (declared : s.framing.declared = r.framing.declared) :
    r.expectsMore (spent ++ left) = s.expectsMore left := by
  rw [Bool.eq_iff_iff, expectsMore_iff, expectsMore_iff, remaining_moved r s spent seen declared]
  simp [Function.comp_def, Nat.sub_sub]

theorem inBody_append_ended (r : Reader) (f : Reader → Bytes → Turn) (bytes more : Bytes)
    (reached : r.remaining.map (· - (within r.remaining bytes).length) = some 0)
    (waits : ∀ own told next rest, f r own = .pause told next rest → lack? r.phase = none →
      r.expectsMore own = true) :
    (inBody r f (bytes ++ more)).joined = ((inBody r f bytes).resume more).joined := by
  have same := within_reached r.remaining bytes more reached
  have ended : r.expectsMore (within r.remaining bytes) = false := by
    simpa [reached] using expectsMore_iff r (within r.remaining bytes)
  rw [inBody_eq, inBody_eq, same,
    List.drop_append_of_le_length (within_length_le r.remaining bytes)]
  cases ran : f r (within r.remaining bytes) with
  | onward told next rest => simp only [Turn.enclose, Turn.resume, List.append_assoc]
  | fault told e => rfl
  | pause told next rest =>
    cases lacks : lack? r.phase with
    | some e => simp only [Turn.enclose, ended, lacks]; rfl
    | none =>
      rw [waits _ told next rest ran lacks] at ended
      cases ended

theorem Waits.resumed {r : Reader} {f : Reader → Bytes → Turn} {bytes more own rest : Bytes}
    {told : List Event} {next : Reader} (waits : Waits r f bytes told next rest)
    (expects : r.expectsMore bytes = true)
    (behind : within (r.remaining.map (· - bytes.length)) more = own) :
    ((f r (bytes ++ own)).enclose r (bytes ++ own) (more.drop own.length)).joined
      = (((Turn.pause told next rest).enclose r bytes []).resume more).joined := by
  obtain ⟨spent, s, g, whole, place, declared, lacks, there, leaves, same⟩ := waits
  have seen : s.seen = r.seen + spent.length := by rw [place]
  have used : bytes.length - rest.length = spent.length := by
    rw [whole, List.length_append]
    omega
  have expects' : s.expectsMore rest = true := by
    rwa [← expectsMore_moved r s spent rest seen declared, ← whole]
  have mine : within s.remaining (rest ++ more) = rest ++ own := by
    rw [within_append, within_expecting s rest expects', ← behind,
      remaining_moved r s spent seen declared, whole]
    simp [Function.comp_def, Nat.sub_sub]
  have waiting : (Turn.pause told next rest).enclose r bytes [] = .pause told s rest := by
    simp only [Turn.enclose, expects, if_true, used, List.append_nil, ← place]
  have turned : turn s (rest ++ more)
      = (g s (rest ++ own)).enclose s (rest ++ own) (more.drop own.length) := by
    rw [there, inBody_eq, mine, List.length_append, List.drop_length_add_append]
  rw [waiting, Turn.resume, turned, ← enclose_announce]
  refine enclose_congr r s (bytes ++ own) (rest ++ own) _ _ _ (same own)
    ((leaves (rest ++ own)).announce told) ⟨spent, ?_, seen⟩ ?_ lacks
  · rw [whole, List.append_assoc]
  · rw [whole, List.append_assoc]
    exact expectsMore_moved r s spent (rest ++ own) seen declared

theorem inBody_append (r : Reader) (f : Reader → Bytes → Turn) (bytes more : Bytes)
    (here : ∀ input, turn r input = inBody r f input)
    (resumable : r.expectsMore bytes = true → Resumable r f bytes)
    (waits : ∀ own told next rest, f r own = .pause told next rest → lack? r.phase = none →
      r.expectsMore own = true) :
    (turn r (bytes ++ more)).joined = ((turn r bytes).resume more).joined := by
  rw [here, here]
  by_cases reached : r.remaining.map (· - (within r.remaining bytes).length) = some 0
  · exact inBody_append_ended r f bytes more reached waits
  · have all := within_open r.remaining bytes reached
    rw [all] at reached
    have expects := (expectsMore_iff r bytes).mpr reached
    obtain ⟨onward, fault, pause⟩ := resumable expects
    have parts := within_append_drop (r.remaining.map (· - bytes.length)) more
    rw [inBody_eq, inBody_eq, within_append, all, List.drop_length, List.length_append,
      List.drop_length_add_append]
    generalize behind : within (r.remaining.map (· - bytes.length)) more = own at parts ⊢
    cases ran : f r bytes with
    | onward told next rest =>
      have count : (bytes ++ own).length - (rest ++ own).length = bytes.length - rest.length := by
        simp only [List.length_append]
        omega
      simp only [onward told next rest own ran, Turn.enclose, Turn.resume, count,
        List.append_assoc, parts, List.append_nil]
    | fault told e =>
      rw [fault told e own ran]
      rfl
    | pause told next rest => exact (pause told next rest ran).resumed expects behind

-- A turn that waits without having done anything is simply tried again.
theorem Waits.in_place (r : Reader) (f : Reader → Bytes → Turn) (own : Bytes)
    (here : ∀ input, turn r input = inBody r f input) (leaves : ∀ input, (f r input).Leaves input) :
    Waits r f own [] r own :=
  ⟨[], r, f, rfl, rfl, rfl, rfl, here, leaves, fun more => by rw [Turn.announce_nil]⟩

theorem partHeaderTurn_append (r : Reader) (size : Nat) (bytes more : Bytes)
    (phase : r.phase = .partHeader size) :
    (turn r (bytes ++ more)).joined = ((turn r bytes).resume more).joined := by
  have here : ∀ input, turn r input = inBody r (partHeaderTurn · size ·) input := fun input => by
    simp only [turn, phase]
  refine inBody_append r _ bytes more here (fun _ => ?_) fun own told next rest ran lacks => by
    simp [phase, lack?] at lacks
  have followed : ∀ more, partHeaderTurn r size bytes ≠ .pause [] r bytes →
      sectionLine size (bytes ++ more) = (sectionLine size bytes).resume more := fun more went =>
    sectionLine_append size bytes more fun unended => went (by unfold partHeaderTurn; rw [unended])
  constructor
  · intro told next rest more went
    have longer := followed more (by rw [went]; simp)
    unfold partHeaderTurn at went ⊢
    rw [longer]
    cases line : sectionLine size bytes <;> rw [line] at went <;> cases went <;> rfl
  · intro told e more went
    have longer := followed more (by rw [went]; simp)
    unfold partHeaderTurn at went ⊢
    rw [longer]
    cases line : sectionLine size bytes <;> rw [line] at went <;> cases went
    rfl
  · intro told next rest went
    unfold partHeaderTurn at went
    cases line : sectionLine size bytes <;> rw [line] at went <;> cases went
    exact Waits.in_place r _ bytes here fun input => partHeaderTurn_leaves r input size

def Closing.resume (more : Bytes) : Closing → Closing
  | .part rest => .part (rest ++ more)
  | .last rest => .last (rest ++ more)
  | after => after

theorem closing_append (bytes more : Bytes) (settled : closing bytes ≠ .undecided) :
    closing (bytes ++ more) = (closing bytes).resume more := by
  cases after : closing bytes with
  | undecided => exact absurd after settled
  | part rest =>
    rw [closing_part bytes rest after, List.append_assoc]
    simp [closing, opening_mark, Closing.resume]
  | last rest =>
    rw [closing_last bytes rest after, List.append_assoc]
    simp [closing, Closing.resume, opening, crlf, dashes]
  | neither =>
    unfold closing at after ⊢
    split at after <;> cases after
    rename_i absent absent'
    rw [opening_append_absent _ _ more absent, opening_append_absent _ _ more absent']
    rfl

theorem partEndTurn_append (r : Reader) (bytes more : Bytes) (phase : r.phase = .partEnd) :
    (turn r (bytes ++ more)).joined = ((turn r bytes).resume more).joined := by
  have here : ∀ input, turn r input = inBody r partEndTurn input := fun input => by
    simp only [turn, phase]
  refine inBody_append r _ bytes more here (fun _ => ?_) fun own told next rest ran lacks => by
    simp [phase, lack?] at lacks
  have followed : ∀ more, partEndTurn r bytes ≠ .pause [] r bytes →
      closing (bytes ++ more) = (closing bytes).resume more := fun more went =>
    closing_append bytes more fun undecided => went (by unfold partEndTurn; rw [undecided])
  constructor
  · intro told next rest more went
    have longer := followed more (by rw [went]; simp)
    unfold partEndTurn at went ⊢
    rw [longer]
    cases after : closing bytes <;> rw [after] at went <;> cases went <;> rfl
  · intro told e more went
    have longer := followed more (by rw [went]; simp)
    unfold partEndTurn at went ⊢
    rw [longer]
    cases after : closing bytes <;> rw [after] at went <;> cases went
    rfl
  · intro told next rest went
    unfold partEndTurn at went
    cases after : closing bytes <;> rw [after] at went <;> cases went
    exact Waits.in_place r _ bytes here (partEndTurn_leaves r)

theorem partDataTurn_append (r : Reader) (bytes more : Bytes) (phase : r.phase = .partData) :
    (turn r (bytes ++ more)).joined = ((turn r bytes).resume more).joined := by
  have here : ∀ (s : Reader), s.phase = .partData → ∀ input,
      turn s input = inBody s partDataTurn input := fun s data input => by simp only [turn, data]
  refine inBody_append r _ bytes more (here r phase) (fun _ => ?_) fun own told next rest ran lacks =>
    by simp [phase, lack?] at lacks
  constructor
  · intro told next rest more went
    unfold partDataTurn at went ⊢
    cases sought : seek r.framing.delimiter bytes with
    | missing free held => rw [sought] at went; cases went
    | found data after =>
      rw [sought] at went
      cases went
      rw [seek_append_found _ _ more _ _ sought]
  · intro told e more went
    unfold partDataTurn at went
    split at went <;> cases went
  · intro told next rest went
    unfold partDataTurn at went
    cases sought : seek r.framing.delimiter bytes with
    | found data after => rw [sought] at went; cases went
    | missing free held =>
      rw [sought] at went
      cases went
      refine ⟨free, { r with seen := r.seen + free.length }, partDataTurn,
        seek_missing _ _ free rest sought, rfl, rfl, rfl, here _ phase, partDataTurn_leaves _, ?_⟩
      intro more
      unfold partDataTurn
      rw [seek_append_missing _ _ more free rest sought]
      cases seek r.framing.delimiter (rest ++ more) with
      | found data after =>
        simp only [Sought.grow, Turn.announce, Turn.uncounted]
        rw [← List.append_assoc, Event.joined_append_congr
          (Event.joined_ofData_append (.part r.index) free data) rfl]
      | missing free' held' =>
        simp only [Sought.grow, Turn.announce, Turn.uncounted, Event.joined_ofData_append]

theorem afterFirst_announce (r s : Reader) (all told later : List Event) (back rest : Bytes)
    (same : ({ r with seen := 0 } : Reader) = { s with seen := 0 })
    (events : Event.joined all = Event.joined (told ++ later)) :
    (afterFirst r all back rest).uncounted
      = ((afterFirst s later back rest).announce told).uncounted := by
  unfold afterFirst
  cases closing rest with
  | part after =>
    have entered := congrArg (fun x : Reader => { x with phase := .partHeader 0 }) same
    simp only [Turn.announce, Turn.uncounted]
    rw [← List.append_assoc, Event.joined_append_congr events rfl]
    exact congrArg (Turn.onward _ · after) entered
  | last after => simp only [Turn.announce, Turn.uncounted, events]
  | undecided =>
    simp only [Turn.announce, Turn.uncounted, events]
    exact congrArg (Turn.pause _ · back) same
  | neither => simp only [Turn.announce, Turn.uncounted, events]

theorem afterFirst_append (r : Reader) (told : List Event) (back rest more : Bytes)
    (settled : closing rest ≠ .undecided) :
    afterFirst r told (back ++ more) (rest ++ more) = (afterFirst r told back rest).resume more := by
  unfold afterFirst
  rw [closing_append rest more settled]
  cases after : closing rest with
  | undecided => exact absurd after settled
  | _ => rfl

theorem afterFirst_onward (r next : Reader) (told told' : List Event) (back rest left more : Bytes)
    (went : afterFirst r told back rest = .onward told' next left) :
    afterFirst r told (back ++ more) (rest ++ more) = .onward told' next (left ++ more) := by
  rw [afterFirst_append, went]
  · rfl
  · intro undecided
    rw [afterFirst, undecided] at went
    cases went

theorem afterFirst_fault (r : Reader) (told told' : List Event) (back rest more : Bytes) (e : Error)
    (went : afterFirst r told back rest = .fault told' e) :
    afterFirst r told (back ++ more) (rest ++ more) = .fault told' e := by
  rw [afterFirst_append, went]
  · rfl
  · intro undecided
    rw [afterFirst, undecided] at went
    cases went

theorem afterFirst_pause (r next : Reader) (told told' : List Event) (back rest left : Bytes)
    (went : afterFirst r told back rest = .pause told' next left) :
    told' = told ∧ next = r ∧ left = back := by
  unfold afterFirst at went
  split at went <;> cases went
  exact ⟨rfl, rfl, rfl⟩

def beginning (r : Reader) (bytes : Bytes) : Opening :=
  if r.seen = 0 then opening r.framing.opener bytes else .absent

theorem preambleTurn_eq (r : Reader) (bytes : Bytes) :
    preambleTurn r bytes = match beginning r bytes with
      | .present rest => afterFirst r [] bytes rest
      | .undecided => .pause [] r bytes
      | .absent =>
        match seek r.framing.delimiter bytes with
        | .missing free held => .pause (Event.ofData .preamble free) r held
        | .found data rest =>
          afterFirst r (Event.ofData .preamble data) (r.framing.delimiter ++ rest) rest := rfl

theorem beginning_present (r : Reader) (bytes rest more : Bytes)
    (begun : beginning r bytes = .present rest) :
    beginning r (bytes ++ more) = .present (rest ++ more) := by
  unfold beginning at begun ⊢
  by_cases first : r.seen = 0
  · rw [if_pos first] at begun ⊢
    exact opening_append_present _ _ more rest begun
  · rw [if_neg first] at begun
    cases begun

theorem beginning_absent (r : Reader) (bytes more : Bytes) (begun : beginning r bytes = .absent) :
    beginning r (bytes ++ more) = .absent := by
  unfold beginning at begun ⊢
  by_cases first : r.seen = 0
  · rw [if_pos first] at begun ⊢
    exact opening_append_absent _ _ more begun
  · exact if_neg first

theorem beginning_moved (r : Reader) (spent left : Bytes)
    (begun : beginning r (spent ++ left) = .absent) :
    beginning { r with seen := r.seen + spent.length } left = .absent := by
  unfold beginning at begun ⊢
  by_cases first : r.seen + spent.length = 0
  · have zero : r.seen = 0 := Nat.eq_zero_of_add_eq_zero_right first
    have empty : spent = [] := List.eq_nil_of_length_eq_zero (Nat.eq_zero_of_add_eq_zero_left first)
    subst empty
    rw [if_pos zero] at begun
    rw [if_pos first]
    exact begun
  · exact if_neg first

theorem seek_here (mark rest : Bytes) (real : mark ≠ []) :
    seek mark (mark ++ rest) = .found [] rest := by
  unfold seek
  cases mark with
  | nil => exact absurd rfl real
  | cons m mark =>
    rw [List.cons_append, cutMark, if_pos (by simp [List.isPrefixOf_iff_prefix])]
    simp

theorem preamble_here (r : Reader) (phase : r.phase = .preamble) (input : Bytes) :
    turn r input = inBody r preambleTurn input := by
  simp only [turn, phase]

theorem preamble_in_place (r : Reader) (phase : r.phase = .preamble) (bytes : Bytes) :
    Waits r preambleTurn bytes [] r bytes :=
  Waits.in_place r _ bytes (preamble_here r phase) (preambleTurn_leaves r)

theorem preamble_bare (r : Reader) (phase : r.phase = .preamble) (bytes after : Bytes)
    (begun : beginning r bytes = .present after) : Resumable r preambleTurn bytes := by
  have enter : preambleTurn r bytes = afterFirst r [] bytes after := by rw [preambleTurn_eq, begun]
  have longer : ∀ more, preambleTurn r (bytes ++ more)
      = afterFirst r [] (bytes ++ more) (after ++ more) := fun more => by
    rw [preambleTurn_eq, beginning_present r bytes after more begun]
  constructor
  · intro told next rest more went
    rw [longer, afterFirst_onward r next [] told bytes after rest more (enter ▸ went)]
  · intro told e more went
    rw [longer, afterFirst_fault r [] told bytes after more e (enter ▸ went)]
  · intro told next rest went
    obtain ⟨rfl, rfl, rfl⟩ := afterFirst_pause r next [] told bytes after rest (enter ▸ went)
    exact preamble_in_place next phase rest

theorem preamble_missing (r : Reader) (phase : r.phase = .preamble) (bytes free held : Bytes)
    (begun : beginning r bytes = .absent)
    (sought : seek r.framing.delimiter bytes = .missing free held) :
    Resumable r preambleTurn bytes := by
  have wait : preambleTurn r bytes = .pause (Event.ofData .preamble free) r held := by
    rw [preambleTurn_eq, begun]
    simp only [sought]
  have whole := seek_missing _ _ free held sought
  refine .of_pause r r _ bytes held _ wait ⟨free, { r with seen := r.seen + free.length },
    preambleTurn, whole, rfl, rfl, rfl, preamble_here _ phase, preambleTurn_leaves _, ?_⟩
  intro more
  have still := beginning_absent r bytes more begun
  have moved := beginning_moved r free (held ++ more) (by
    rw [← List.append_assoc, ← whole]
    exact still)
  rw [preambleTurn_eq, still, preambleTurn_eq, moved]
  simp only [seek_append_missing _ _ more free held sought]
  cases seek r.framing.delimiter (held ++ more) with
  | missing free' held' =>
    simp only [Sought.grow, Turn.announce, Turn.uncounted, Event.joined_ofData_append]
  | found data after =>
    exact afterFirst_announce r { r with seen := r.seen + free.length } _ _ _ _ _ rfl
      (Event.joined_ofData_append .preamble free data).symm

-- The data in front of an open end of the boundary is spent, and the boundary is found again where
-- the reader has moved to.
theorem preamble_found (r : Reader) (phase : r.phase = .preamble) (bytes data after : Bytes)
    (begun : beginning r bytes = .absent)
    (sought : seek r.framing.delimiter bytes = .found data after) :
    Resumable r preambleTurn bytes := by
  have still := fun more => beginning_absent r bytes more begun
  have real : r.framing.delimiter ≠ [] := by
    have long := r.framing.delimiter_length
    intro empty
    simp [empty] at long
  have enter : ∀ more, preambleTurn r (bytes ++ more)
      = afterFirst r (Event.ofData .preamble data)
          ((r.framing.delimiter ++ after) ++ more) (after ++ more) := fun more => by
    rw [preambleTurn_eq, still]
    simp only [seek_append_found _ _ more data after sought, List.append_assoc]
  have now := enter []
  simp only [List.append_nil] at now
  have whole := seek_found _ _ data after sought
  constructor
  · intro told next rest more went
    rw [enter, afterFirst_onward r next _ told _ after rest more (now ▸ went)]
  · intro told e more went
    rw [enter, afterFirst_fault r _ told _ after more e (now ▸ went)]
  · intro told next rest went
    obtain ⟨rfl, rfl, rfl⟩ := afterFirst_pause r next _ told _ after rest (now ▸ went)
    refine ⟨data, { next with seen := next.seen + data.length }, preambleTurn, whole, rfl, rfl,
      rfl, preamble_here _ phase, preambleTurn_leaves _, ?_⟩
    intro more
    have moved := beginning_moved next data ((next.framing.delimiter ++ after) ++ more) (by
      rw [← List.append_assoc, ← whole]
      exact still more)
    rw [enter, preambleTurn_eq, moved]
    simp only [List.append_assoc, seek_here _ _ real]
    exact afterFirst_announce next { next with seen := next.seen + data.length } _ _ _ _ _ rfl
      (by simp)

theorem preambleTurn_append (r : Reader) (bytes more : Bytes) (phase : r.phase = .preamble) :
    (turn r (bytes ++ more)).joined = ((turn r bytes).resume more).joined := by
  refine inBody_append r _ bytes more (preamble_here r phase) (fun _ => ?_)
    fun own told next rest ran lacks => by simp [phase, lack?] at lacks
  cases begun : beginning r bytes with
  | undecided =>
    exact .of_pause r r _ bytes bytes [] (by rw [preambleTurn_eq, begun])
      (preamble_in_place r phase bytes)
  | present after => exact preamble_bare r phase bytes after begun
  | absent =>
    cases sought : seek r.framing.delimiter bytes with
    | missing free held => exact preamble_missing r phase bytes free held begun sought
    | found data after => exact preamble_found r phase bytes data after begun sought

theorem drain_pause (r : Reader) (whole data : Bytes) (expects : r.expectsMore whole = true) :
    drain r whole data = .pause (Event.ofData .epilogue data) { r with phase := .epilogue true } [] :=
  if_pos expects

theorem drain_waits (r next : Reader) (whole data rest : Bytes) (told : List Event)
    (went : drain r whole data = .pause told next rest) : r.expectsMore whole = true := by
  unfold drain at went
  split at went
  · assumption
  · cases went

theorem drain_moved (r : Reader) (spent data more : Bytes) :
    (drain r (spent ++ more) (data ++ more)).uncounted
      = ((drain { r with phase := .epilogue true, seen := r.seen + spent.length } more more).announce
          (Event.ofData .epilogue data)).uncounted := by
  have same := expectsMore_moved r
    { r with phase := .epilogue true, seen := r.seen + spent.length } spent more rfl rfl
  have events := Event.joined_ofData_append .epilogue data more
  unfold drain
  rw [same]
  split
  · simp only [Turn.announce, Turn.uncounted, events]
  · simp only [Turn.announce, Turn.uncounted]
    rw [← List.append_assoc, Event.joined_append_congr events rfl]

theorem epilogueTurn_waits (r next : Reader) (opened : Bool) (bytes rest : Bytes) (told : List Event)
    (went : epilogueTurn r opened bytes = .pause told next rest) : r.expectsMore bytes = true := by
  unfold epilogueTurn at went
  split at went
  · exact drain_waits _ _ _ _ _ _ went
  · split at went
    · exact drain_waits _ _ _ _ _ _ went
    · split at went
      · assumption
      · exact drain_waits _ _ _ _ _ _ went
    · exact drain_waits _ _ _ _ _ _ went

-- It takes all but a CRLF in front, or nothing while that CRLF is not complete.
theorem epilogueTurn_expecting (r : Reader) (opened : Bool) (bytes : Bytes)
    (expects : r.expectsMore bytes = true) :
    epilogueTurn r opened bytes = .pause [] r bytes ∨
      ∃ data, (∀ more,
        epilogueTurn r opened (bytes ++ more) = drain r (bytes ++ more) (data ++ more)) := by
  cases opened with
  | true => exact .inr ⟨bytes, fun _ => rfl⟩
  | false =>
    cases begun : opening crlf bytes with
    | present data =>
      refine .inr ⟨data, fun more => ?_⟩
      simp only [epilogueTurn, opening_append_present _ _ more data begun]
      rfl
    | undecided =>
      refine .inl ?_
      simp [epilogueTurn, begun, expects]
    | absent =>
      refine .inr ⟨bytes, fun more => ?_⟩
      simp only [epilogueTurn, opening_append_absent _ _ more begun]
      rfl

theorem epilogueTurn_append (r : Reader) (opened : Bool) (bytes more : Bytes)
    (phase : r.phase = .epilogue opened) :
    (turn r (bytes ++ more)).joined = ((turn r bytes).resume more).joined := by
  have here : ∀ (s : Reader) opened, s.phase = .epilogue opened → ∀ input,
      turn s input = inBody s (epilogueTurn · opened ·) input :=
    fun s opened data input => by simp only [turn, data]
  refine inBody_append r _ bytes more (here r opened phase) (fun expects => ?_)
    fun own told next rest ran _ => epilogueTurn_waits r next opened own rest told ran
  rcases epilogueTurn_expecting r opened bytes expects with wait | ⟨data, drains⟩
  · exact .of_pause r r _ bytes bytes [] wait (Waits.in_place r _ bytes (here r opened phase)
      fun input => epilogueTurn_leaves r input opened)
  · have now := drains []
    simp only [List.append_nil, drain_pause r bytes data expects] at now
    refine .of_pause r _ _ bytes [] _ now
      ⟨bytes, { r with phase := .epilogue true, seen := r.seen + bytes.length },
        (epilogueTurn · true ·), (List.append_nil bytes).symm, rfl, rfl, by rw [phase]; rfl,
        here _ true rfl, fun input => epilogueTurn_leaves _ input true, ?_⟩
    intro more
    dsimp only
    rw [drains, List.nil_append]
    exact drain_moved r bytes data more

end HttpWire.Reader
