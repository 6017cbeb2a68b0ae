import HttpWire.Proofs.Assembling
import HttpWire.Proofs.Ledger.Edits
import HttpWire.Proofs.WrittenLengths

-- What was refused in the middle is taken back, so that a buffer gets all of a message or nothing.
namespace HttpWire

namespace Writer

-- What a draft has put into the buffer stays there even if it then gives up.
abbrev Draft := EStateM Error Bytes Unit

namespace Draft

def put (data : Bytes) : Draft := modify (· ++ data)

def require (good : Prop) [Decidable good] : Draft :=
  if good then pure () else throw .invalidUse

def putUnless (present : Bool) (draft : Draft) : Draft :=
  if present then pure () else draft

def transaction (draft : Draft) : Draft := fun buffer =>
  match draft buffer with
  | .ok _ after => .ok () after
  | .error e after => .error e (after.take buffer.length)

def requestLine (method : Method) (uri : Text) (version : Version) : Draft := do
  require (uri ≠ [])
  put (ascii method.token)
  put [0x20]
  put (Utf8.encode (Percent.encodeTarget uri))
  put [0x20]
  put (ascii version.text)
  put crlf

def statusLine (version : Version) (status : Nat) (reason : Text) : Draft := do
  put (ascii version.text)
  put [0x20]
  put (Utf8.encode (Numeral.decimal status))
  put [0x20]
  put (Utf8.encode (if reason = [] then (Status.phrase status).toList else reason))
  put crlf

def line (name value : Text) : Draft := do
  put (Utf8.encode name)
  put [0x3A, 0x20]
  put (Utf8.encode value)
  put crlf

def entry (charset : Option Text) (entry : Text × List Text) : Draft :=
  if Message.isCookie entry.1 then entry.2.forM (line entry.1)
  else if entry.1.named "content-type" then
    line entry.1 (contentType (Text.commaJoined entry.2) charset)
  else line entry.1 (Text.commaJoined entry.2)

def fields (date : Text) (headers : FieldMap) (cookies : List Text) (charset : Option Text)
    (body : Bytes) : Draft := do
  require (¬ (isCoded headers = true ∧ body ≠ []))
  require (lengthFits headers body = true)
  headers.entries.forM (entry charset)
  cookies.forM (line "Set-Cookie".toList)
  putUnless (isCoded headers || headers.has "content-length") do
    put (ascii "Content-Length: ")
    put (Utf8.encode (Numeral.decimal body.length))
    put crlf
  putUnless (headers.has "date") do
    put (ascii "Date: ")
    put (Utf8.encode date)
    put crlf
  put crlf
  put body

def messageLine (m : Message) (version : Version) : Draft :=
  match m.kind with
  | .request =>
    match m.method, m.uri with
    | some method, some uri => requestLine method uri version
    | _, _ => throw .invalidUse
  | .response => do
    require (m.status ≠ 0)
    statusLine version m.status (m.reason.getD [])
  | .unknown => throw .invalidUse

end Draft

def settled (buffer : Bytes) (written : Except Error Bytes) : EStateM.Result Error Bytes Unit :=
  match addTo buffer written with
  | (after, none) => .ok () after
  | (after, some e) => .error e after

def Job.write (date : Text) : Job → Draft
  | .request method uri version headers body => .transaction do
    Draft.requestLine method uri version
    Draft.fields date headers [] none body
  | .response version status reason headers body => .transaction do
    Draft.statusLine version status reason
    Draft.fields date headers [] none body
  | .message m =>
    match m.version with
    | none => throw .invalidUse
    | some version => .transaction do
      Draft.messageLine m version
      Draft.fields date m.headers m.cookies m.charset m.body

namespace Draft

section Composition

variable {first last : Draft} {front behind : Bytes} {e : Error}

def Adds (draft : Draft) (data : Bytes) : Prop := ∀ buffer, draft buffer = .ok () (buffer ++ data)

def Fails (draft : Draft) (e : Error) : Prop := ∀ buffer, ∃ data, draft buffer = .error e (buffer ++ data)

def Yields (draft : Draft) : Except Error Bytes → Prop
  | .ok data => draft.Adds data
  | .error e => draft.Fails e

theorem put_adds (data : Bytes) : (put data).Adds data := fun _ => rfl

theorem skip_adds : Adds (pure ()) [] := fun buffer => congrArg _ (List.append_nil buffer).symm

theorem throw_fails (e : Error) : Fails (throw e) e :=
  fun buffer => ⟨[], congrArg _ (List.append_nil buffer).symm⟩

theorem Adds.next (adds : first.Adds front) (later : last.Adds behind) :
    Adds (do first; last) (front ++ behind) := by
  intro buffer
  show EStateM.bind first (fun _ => last) buffer = _
  unfold EStateM.bind
  rw [adds buffer]
  exact (later _).trans (congrArg _ (List.append_assoc ..))

theorem Adds.fails (adds : first.Adds front) (later : last.Fails e) : Fails (do first; last) e := by
  intro buffer
  obtain ⟨data, failed⟩ := later (buffer ++ front)
  refine ⟨front ++ data, ?_⟩
  show EStateM.bind first (fun _ => last) buffer = _
  unfold EStateM.bind
  rw [adds buffer]
  exact failed.trans (congrArg _ (List.append_assoc ..))

theorem Fails.next (fails : first.Fails e) : Fails (do first; last) e := by
  intro buffer
  obtain ⟨data, failed⟩ := fails buffer
  refine ⟨data, ?_⟩
  show EStateM.bind first (fun _ => last) buffer = _
  unfold EStateM.bind
  rw [failed]

theorem Yields.next {start later : Except Error Bytes} (yields : first.Yields start)
    (follow : last.Yields later) :
    Yields (do first; last) (start.bind fun front => later.map (front ++ ·)) := by
  cases start with
  | error e => exact Fails.next yields
  | ok front =>
    cases later with
    | error e => exact Adds.fails yields follow
    | ok behind => exact Adds.next yields follow

theorem require_yields (good : Prop) [Decidable good] :
    (require good).Yields (if good then .ok [] else .error .invalidUse) := by
  unfold require
  split
  · exact skip_adds
  · exact throw_fails _

theorem require_adds {good : Prop} [Decidable good] (holds : good) : (require good).Adds [] := by
  have yields := require_yields good
  rwa [if_pos holds] at yields

theorem require_fails {good : Prop} [Decidable good] (wrong : ¬ good) :
    (require good).Fails .invalidUse := by
  have yields := require_yields good
  rwa [if_neg wrong] at yields

theorem putUnless_adds (present : Bool) (adds : first.Adds front) :
    (putUnless present first).Adds (if present then [] else front) := by
  cases present with
  | true => exact skip_adds
  | false => exact adds

theorem forM_adds {α : Type} (draft : α → Draft) (data : α → Bytes) (adds : ∀ x, (draft x).Adds (data x))
    (xs : List α) : Adds (xs.forM draft) (xs.flatMap data) := by
  induction xs with
  | nil => exact skip_adds
  | cons x xs ih => exact (adds x).next ih

theorem Yields.transaction {result : Except Error Bytes} (yields : first.Yields result) (buffer : Bytes) :
    first.transaction buffer = settled buffer result := by
  unfold Draft.transaction
  cases result with
  | ok data =>
    rw [yields buffer]
    rfl
  | error e =>
    obtain ⟨data, failed⟩ := yields buffer
    rw [failed]
    exact congrArg _ (List.take_left ..)

end Composition

section Lines

theorem line_adds (name value : Text) : (line name value).Adds (Writer.line name value) := by
  have adds := (put_adds (Utf8.encode name)).next ((put_adds [0x3A, 0x20]).next
    ((put_adds (Utf8.encode value)).next (put_adds crlf)))
  unfold line
  simpa only [Writer.line, List.append_assoc] using adds

theorem requestLine_yields (method : Method) (uri : Text) (version : Version) :
    (requestLine method uri version).Yields
      ((Writer.requestLine method uri version).map fun start => start.bytes ++ crlf) := by
  unfold requestLine Writer.requestLine
  by_cases empty : uri = []
  · rw [if_pos empty]
    exact Fails.next (require_fails fun real => real empty)
  · rw [if_neg empty]
    have adds := (require_adds empty).next ((put_adds (ascii method.token)).next ((put_adds [0x20]).next
      ((put_adds (Utf8.encode (Percent.encodeTarget uri))).next ((put_adds [0x20]).next
        ((put_adds (ascii version.text)).next (put_adds crlf))))))
    simpa only [Yields, Except.map, StartLine.bytes, List.append_assoc, List.nil_append] using adds

theorem statusLine_adds (version : Version) (status : Nat) (reason : Text) :
    (statusLine version status reason).Adds
      ((Writer.statusLine version status reason).bytes ++ crlf) := by
  have adds := (put_adds (ascii version.text)).next ((put_adds [0x20]).next
    ((put_adds (Utf8.encode (Numeral.decimal status))).next ((put_adds [0x20]).next
      ((put_adds (Utf8.encode (if reason = [] then (Status.phrase status).toList else reason))).next
        (put_adds crlf)))))
  unfold statusLine
  simpa only [Writer.statusLine, StartLine.bytes, List.append_assoc] using adds

theorem messageLine_yields (m : Message) (version : Version) (known : m.version = some version) :
    (messageLine m version).Yields ((Writer.startLine m).map fun start => start.bytes ++ crlf) := by
  unfold messageLine Writer.startLine
  rw [known]
  dsimp only
  cases m.kind with
  | unknown => exact throw_fails _
  | request =>
    cases m.method with
    | none => exact throw_fails _
    | some method =>
      cases m.uri with
      | none => exact throw_fails _
      | some uri => exact requestLine_yields method uri version
  | response =>
    dsimp only
    split
    · rename_i unset
      exact Fails.next (require_fails fun set => set unset)
    · rename_i set
      exact (require_adds set).next (statusLine_adds version m.status _)

theorem entry_adds (charset : Option Text) (given : Text × List Text) :
    (entry charset given).Adds
      ((entryLines charset given).flatMap fun row => Writer.line row.1 row.2) := by
  unfold entry entryLines
  split
  · rw [List.flatMap_map]
    exact forM_adds _ _ (line_adds given.1) given.2
  · split
    · rw [List.flatMap_singleton]
      exact line_adds _ _
    · rw [List.flatMap_singleton]
      exact line_adds _ _

theorem added_adds (present : Bool) (name value : Text) (label : Bytes)
    (named : label = Utf8.encode name ++ [0x3A, 0x20]) :
    Adds (putUnless present do put label; put (Utf8.encode value); put crlf)
      ((if present then [] else [(name, value)]).flatMap fun row => Writer.line row.1 row.2) := by
  have adds := (put_adds label).next ((put_adds (Utf8.encode value)).next (put_adds crlf))
  have whole := putUnless_adds present adds
  cases present with
  | true => exact whole
  | false => simpa [Writer.line, named] using whole

end Lines

end Draft

section Fields

variable (headers : FieldMap) (body : Bytes)

def Measures (value : Text) (n : Nat) : Prop :=
  ∃ digits, (value = digits ∨ value = '+' :: digits) ∧ Framing.IsLength digits ∧
    Framing.decimalValue digits = n

def Unfit (headers : FieldMap) (body : Bytes) : Prop :=
  (headers.has "transfer-encoding" = true ∧ body ≠ []) ∨
    ∃ value, headers.first? "content-length".toList = some value ∧
      ¬ Measures (Text.trim value) body.length

theorem measures_iff (value : Text) (n : Nat) :
    Numeral.signedBelow? Numeral.wordBound value = some n ↔ Measures value n := by
  rw [Framing.signedBelow?_iff]
  unfold Measures
  refine exists_congr fun digits => and_congr_right fun _ => ?_
  constructor
  · rintro ⟨nonempty, real, rfl, fits⟩
    exact ⟨⟨nonempty, real, fits⟩, rfl⟩
  · rintro ⟨⟨nonempty, real, fits⟩, rfl⟩
    exact ⟨nonempty, real, rfl, fits⟩

theorem lengthFits_iff : lengthFits headers body = true ↔
    ∀ value, headers.first? "content-length".toList = some value →
      Measures (Text.trim value) body.length := by
  unfold lengthFits
  cases headers.first? "content-length".toList with
  | none => simp
  | some value => simp [measures_iff]

theorem unfit_iff : Unfit headers body ↔
    (isCoded headers = true ∧ body ≠ []) ∨ ¬ lengthFits headers body = true := by
  rw [lengthFits_iff]
  unfold Unfit isCoded
  push Not
  rfl

instance : Decidable (Unfit headers body) := decidable_of_iff _ (unfit_iff headers body).symm

variable (date : Text) (cookies : List Text) (charset : Option Text)

theorem fields_eq (start : StartLine) : fields date start headers cookies charset body =
    if isCoded headers = true ∧ body ≠ [] ∨ ¬ lengthFits headers body = true then .error .invalidUse
    else .ok (assemble start (fieldLines date headers cookies charset body) body) := by
  unfold fields
  split
  · rename_i coded
    rw [if_pos (.inl coded)]
  · rename_i plain
    split
    · rename_i fits
      rw [if_neg (by simp [plain, fits])]
    · rename_i wrong
      rw [if_pos (.inr wrong)]

theorem Draft.fields_yields : (Draft.fields date headers cookies charset body).Yields
    (if isCoded headers = true ∧ body ≠ [] ∨ ¬ lengthFits headers body = true then .error .invalidUse
      else .ok ((fieldLines date headers cookies charset body).flatMap (fun row => Writer.line row.1 row.2)
        ++ crlf ++ body)) := by
  unfold Draft.fields
  by_cases coded : isCoded headers = true ∧ body ≠ []
  · rw [if_pos (.inl coded)]
    exact Fails.next (require_fails (not_not.mpr coded))
  · by_cases fits : lengthFits headers body = true
    · rw [if_neg (by simp [coded, fits])]
      have given := forM_adds _ _ (entry_adds charset) headers.entries
      have own := forM_adds _ _ (line_adds "Set-Cookie".toList) cookies
      have length := added_adds (isCoded headers || headers.has "content-length")
        "Content-Length".toList (Numeral.decimal body.length) (ascii "Content-Length: ") (by decide)
      have dated := added_adds (headers.has "date") "Date".toList date (ascii "Date: ") (by decide)
      have adds := (require_adds coded).next ((require_adds fits).next (given.next (own.next
        (length.next (dated.next ((put_adds crlf).next (put_adds body)))))))
      simpa only [Yields, fieldLines, List.flatMap_append, List.flatMap_assoc, List.flatMap_map,
        List.append_assoc, List.nil_append] using adds
    · rw [if_pos (.inr fits)]
      exact Adds.fails (require_adds coded) (Fails.next (require_fails fits))

end Fields

namespace Job

section Outcome

variable (date : Text) (job : Job)

theorem drafted {first : Draft} {start : Except Error StartLine} (headers : FieldMap)
    (cookies : List Text) (charset : Option Text) (body : Bytes)
    (yields : first.Yields (start.map fun line => line.bytes ++ crlf)) :
    Draft.Yields (do first; Draft.fields date headers cookies charset body)
      (start.bind fun line => Writer.fields date line headers cookies charset body) := by
  have whole := yields.next (Draft.fields_yields headers body date cookies charset)
  cases start with
  | error e => exact whole
  | ok line =>
    simp only [Except.bind, fields_eq]
    split
    · rename_i unfit
      simp only [Except.map, Except.bind, if_pos unfit] at whole
      exact whole
    · rename_i fit
      simp only [Except.map, Except.bind, if_neg fit] at whole
      simpa only [assemble, List.append_assoc] using whole

theorem write_eq (buffer : Bytes) : job.write date buffer = settled buffer (job.run date) := by
  rw [job.run_eq date]
  cases job with
  | request method uri version headers body =>
    exact (drafted date headers [] none body
      (Draft.requestLine_yields method uri version)).transaction buffer
  | response version status reason headers body =>
    have yields : (Draft.statusLine version status reason).Yields
        ((Except.ok (statusLine version status reason)).map fun line => line.bytes ++ crlf) :=
      Draft.statusLine_adds version status reason
    exact (drafted date headers [] none body yields).transaction buffer
  | message m =>
    cases known : m.version with
    | none =>
      have unstarted : startLine m = .error .invalidUse := by
        unfold startLine
        rw [known]
      simp only [write, known, start, unstarted]
      rfl
    | some version =>
      simp only [write, known]
      exact (drafted date m.headers m.cookies m.charset m.body
        (Draft.messageLine_yields m version known)).transaction buffer

-- Without being taken back, the start line of a request with a wrong length would stay.
example :
    let headers := FieldMap.empty.insert "Content-Length".toList "4".toList
    let draft : Draft := do
      Draft.requestLine .get "/".toList .v11
      Draft.fields [] headers [] none []
    draft (ascii "old") = .error .invalidUse (ascii "oldGET / HTTP/1.1\r\n") :=
  rfl

end Outcome

end Job

end Writer

namespace Message

inductive Made : Message → Prop
  | new : Made {}
  | request {m : Message} (method : Method) (uri : Text) (made : Message.request method uri = .ok m) :
    Made m
  | response (status : Nat) (reason : Text) : Made (.response status reason)
  | collect {m : Message} (policy : Policy) (event : Event) (made : Made m) :
    Made (Message.collect policy m event).1
  | edit {m : Message} (e : Edit) (made : Made m) : Made (m.edit e)

section Making

variable {m : Message} {policy : Policy}

theorem Sound.takeStart (sound : m.Sound) (line : StartLine) : (m.takeStart line).1.Sound := by
  cases line with
  | request method uri version =>
    let started : Message :=
      { m with kind := .request, version := some version, method := some method }
    have begun : started.Sound := sound.same rfl rfl rfl rfl rfl
    have placed := begun.withUri uri
    unfold Message.takeStart
    dsimp only
    split
    · rename_i taken
      rwa [show started.withUri? uri = _ from taken] at placed
    · rename_i unusable
      rwa [show started.withUri? uri = _ from unusable] at placed
  | response version status reason => exact sound.same rfl rfl rfl rfl rfl

theorem Sound.endHeaders (sound : m.Sound) (format : BodyFormat) : (m.endHeaders policy format).1.Sound := by
  obtain ⟨_, _, _, same⟩ := m.endHeaders_eq policy format
  rw [same]
  exact sound.same rfl rfl rfl rfl rfl

theorem Sound.changeChunk (sound : m.Sound) (index : Nat) {change : Chunk → Chunk}
    (keeps : ∀ c, c.seen = c.body.length → (change c).seen = (change c).body.length) :
    (m.changeChunk index change).Sound :=
  ⟨sound.headers, sound.counted.change keeps, sound.usable⟩

theorem collect_sound (sound : m.Sound) (event : Event) : (collect policy m event).1.Sound := by
  unfold collect
  split
  · exact sound.takeStart _
  · dsimp only
    split
    · exact sound
    · exact sound.addHeader _ _
  · exact sound.endHeaders _
  · exact sound.append _
  · split
    · exact sound
    · exact sound.changeChunk _ fun c before => before
  · exact sound.changeChunk _ fun c before => before
  · refine (sound.append _).changeChunk _ fun c before => ?_
    simp only [Chunk.append, List.length_append, before]
  · exact sound.changeChunk _ fun c before => before
  · split
    · exact sound
    · exact sound.same rfl rfl rfl rfl rfl
  · exact sound

theorem request_sound (method : Method) (uri : Text) (made : Message.request method uri = .ok m) :
    m.Sound := by
  have placed := (Sound.fresh .request (some .preferred) (some method) 0).withUri uri
  unfold Message.request at made
  dsimp only at made
  split at made
  · rename_i taken
    cases made
    rwa [taken] at placed
  · cases made

theorem Made.sound (made : m.Made) : m.Sound := by
  induction made with
  | new => exact .fresh .unknown none none 0
  | request method uri made => exact request_sound method uri made
  | response status reason =>
    exact (Sound.fresh .response (some .preferred) none status).same rfl rfl rfl rfl rfl
  | collect policy event _ ih => exact collect_sound ih event
  | edit e _ ih => exact edit_sound ih e

theorem Made.deliver (made : m.Made) (events : List Event) :
    ((Message.collect policy).deliver m events).1.Made := by
  induction events generalizing m with
  | nil => exact made
  | cons event events ih =>
    have step := made.collect policy event
    rw [Handler.deliver]
    cases told : Message.collect policy m event with
    | mk next refused =>
      rw [told] at step
      cases refused with
      | none => exact ih step
      | some e => exact step

theorem ofBytes_made {bytes : Bytes} {n : Nat} (read : ofBytes policy bytes = .ok (m, n)) : m.Made := by
  rw [ofBytes_eq] at read
  cases ran : Reader.read {} (Message.collect policy) {} bytes with
  | mk raw result =>
    rw [ran] at read
    cases result with
    | error e => cases read
    | ok x =>
      have made : raw.Made := by
        have reached : ((Message.collect policy).deliver {} (Reader.scan {} bytes).events).1.Made :=
          Made.new.deliver _
        rwa [(Reader.read_taken ran).1] at reached
      dsimp only at read
      split at read
      · cases read
      · unfold decoded at read
        split at read
        · cases read
          exact made
        · cases decode : raw.decodeBody with
          | error e =>
            rw [decode] at read
            cases read
          | ok decoded =>
            rw [decode] at read
            cases read
            have edited := made.edit .decodeBody
            simpa only [edit, decode, Except.toOption, Option.getD_some] using edited

theorem Made.uri (made : m.Made) : m.uri ≠ some [] := by
  intro empty
  obtain ⟨target, parsed⟩ := made.sound.usable [] empty
  cases parsed

end Making

end Message

namespace Writer.Job

section Refusal

variable (date : Text) (job : Job)

def Unstarted : Job → Prop
  | request _ uri _ _ _ => uri = []
  | response _ _ _ _ _ => False
  | message m =>
    m.version = none ∨ m.kind = .unknown ∨ (m.kind = .request ∧ (m.method = none ∨ m.uri = none)) ∨
      (m.kind = .response ∧ m.status = 0)

def Refused (job : Job) : Prop := job.Unstarted ∨ Unfit job.headers job.body

instance : Decidable job.Unstarted :=
  match job with
  | request _ uri _ _ _ => inferInstanceAs (Decidable (uri = []))
  | response _ _ _ _ _ => inferInstanceAs (Decidable False)
  | message _ => inferInstanceAs (Decidable (_ ∨ _))

instance : Decidable job.Refused := inferInstanceAs (Decidable (_ ∨ _))

theorem start_iff (made : ∀ m, job = message m → m.Made) :
    job.start = .error .invalidUse ↔ job.Unstarted := by
  cases job with
  | request method uri version =>
    unfold start requestLine Unstarted
    by_cases empty : uri = [] <;> simp [empty]
  | response => simp [start, Unstarted]
  | message m =>
    have usable := (made m rfl).uri
    unfold start startLine Unstarted requestLine
    dsimp only
    cases m.version with
    | none => simp
    | some version =>
      cases m.kind with
      | unknown => simp
      | request =>
        cases m.method with
        | none => simp
        | some method =>
          cases given : m.uri with
          | none => simp
          | some uri =>
            rw [given] at usable
            have real : uri ≠ [] := fun empty => usable (congrArg some empty)
            simp [real]
      | response => by_cases unset : m.status = 0 <;> simp [unset]

theorem run_refused (refused : job.Refused) (made : ∀ m, job = message m → m.Made) :
    job.run date = .error .invalidUse := by
  rw [job.run_eq date]
  cases started : job.start with
  | error e =>
    rw [start_error job e started]
    rfl
  | ok line =>
    rcases refused with unstarted | unfit
    · rw [(start_iff job made).mpr unstarted] at started
      cases started
    · exact (fields_eq ..).trans (if_pos ((unfit_iff _ _).mp unfit))

theorem run_accepted (accepted : ¬ job.Refused) (made : ∀ m, job = message m → m.Made) :
    ∃ bytes, job.run date = .ok bytes := by
  rw [job.run_eq date]
  cases started : job.start with
  | error e =>
    rw [start_error job e started] at started
    exact absurd (.inl ((start_iff job made).mp started)) accepted
  | ok line =>
    exact ⟨_, (fields_eq ..).trans (if_neg fun unfit => accepted (.inr ((unfit_iff _ _).mpr unfit)))⟩

-- Any job but one that must be refused is done, and adds the same bytes to every buffer.
theorem transactional (made : ∀ m, job = message m → m.Made) :
    (job.Refused → ∀ buffer, job.write date buffer = .error .invalidUse buffer) ∧
      (¬ job.Refused → ∃ bytes, job.run date = .ok bytes ∧
        ∀ buffer, job.write date buffer = .ok () (buffer ++ bytes)) := by
  constructor
  · intro refused buffer
    rw [job.write_eq date buffer, job.run_refused date refused made]
    rfl
  · intro accepted
    obtain ⟨bytes, ran⟩ := job.run_accepted date accepted made
    refine ⟨bytes, ran, fun buffer => ?_⟩
    rw [job.write_eq date buffer, ran]
    rfl

theorem refused_message_withdrawn :
    let fine := Message.response 200 "OK".toList
    let wrong := fine.edit (.setHeader "Content-Length".toList "4".toList)
    let buffer := ascii "previous"
    (∀ m, message wrong = message m → m.Made) ∧ (message wrong).Refused ∧
      (message wrong).write (Date.render 0) buffer = .error .invalidUse buffer ∧
      ¬ (message fine).Refused ∧ ∃ bytes, (message fine).run (Date.render 0) = .ok bytes ∧
        (message fine).write (Date.render 0) buffer = .ok () (buffer ++ bytes) := by
  intro fine wrong buffer
  have made : fine.Made := .response 200 "OK".toList
  have edited : wrong.Made := made.edit _
  have first : ∀ m, message wrong = message m → m.Made := by
    rintro m same
    cases same
    exact edited
  have second : ∀ m, message fine = message m → m.Made := by
    rintro m same
    cases same
    exact made
  obtain ⟨bytes, ran, written⟩ := (transactional (Date.render 0) (message fine) second).2 (by decide)
  exact ⟨first, by decide, (transactional (Date.render 0) (message wrong) first).1 (by decide) buffer,
    by decide, bytes, ran, written buffer⟩

end Refusal

end Writer.Job
end HttpWire
