import HttpWire.Proofs.GeneratedText
import HttpWire.Proofs.Numerals

-- A line is read as a start line if and only if it is three parts between spaces, of which only the
-- last may have spaces in it.
namespace HttpWire

section Splitting

variable {α : Type} [DecidableEq α] (d : α)

theorem splitSome_free (cuts : Nat) (xs : List α) (free : d ∉ xs) :
    splitSome d (cuts + 1) xs = [xs] := by
  induction xs with
  | nil => rfl
  | cons x xs ih =>
    have other : x ≠ d := fun same => free (by simp [same])
    simp [splitSome, other, ih fun inside => free (List.mem_cons_of_mem x inside), growFirst]

theorem splitSome_cut (cuts : Nat) (l r : List α) (free : d ∉ l) :
    splitSome d (cuts + 1) (l ++ d :: r) = l :: splitSome d cuts r := by
  induction l with
  | nil => exact if_pos rfl
  | cons x l ih =>
    have other : x ≠ d := fun same => free (by simp [same])
    rw [List.cons_append, splitSome, if_neg other, ih fun inside => free (List.mem_cons_of_mem x inside)]
    rfl

theorem splitSome_three (xs first second third : List α) :
    splitSome d 2 xs = [first, second, third] ↔
      d ∉ first ∧ d ∉ second ∧ xs = first ++ d :: (second ++ d :: third) := by
  constructor
  · intro split
    by_cases cut : d ∈ xs
    · obtain ⟨l, r, rfl, free⟩ := List.eq_append_cons_of_mem cut
      rw [splitSome_cut d 1 l r free] at split
      by_cases again : d ∈ r
      · obtain ⟨m, s, rfl, plain⟩ := List.eq_append_cons_of_mem again
        rw [splitSome_cut d 0 m s plain, splitSome] at split
        cases split
        exact ⟨free, plain, rfl⟩
      · rw [splitSome_free d 0 r again] at split
        cases split
    · rw [splitSome_free d 1 xs cut] at split
      cases split
  · rintro ⟨free, plain, rfl⟩
    rw [splitSome_cut d 1 _ _ free, splitSome_cut d 0 _ _ plain, splitSome]

end Splitting

namespace StartLine

section Parts

variable {bytes : Bytes}

theorem token_plain (m : Method) : 0x20 ∉ ascii m.token ∧ ascii m.token ≠ [] ∧
    protocol.isPrefixOf (ascii m.token) = false := by
  cases m <;> decide

theorem method_iff (m : Method) : Method.ofToken? bytes = some m ↔ bytes = ascii m.token := by
  constructor
  · intro found
    unfold Method.ofToken? at found
    have same := List.find?_some found
    exact (beq_iff_eq.mp same).symm
  · rintro rfl
    exact Method.ofToken_token m

theorem version_plain (v : Version) :
    0x20 ∉ ascii v.text ∧ protocol.isPrefixOf (ascii v.text) = true := by
  cases v <;> decide

theorem version_iff (v : Version) : version? bytes = .ok v ↔ bytes = ascii v.text := by
  constructor
  · intro read
    unfold version? at read
    split at read
    · rename_i named
      split at read
      · cases read
      · rename_i found
        cases read
        unfold Version.ofDigits? at found
        have digits := List.find?_some found
        have led := List.prefix_iff_eq_append.mp (List.isPrefixOf_iff_prefix.mp named)
        rw [← led, ← beq_iff_eq.mp digits]
        cases v <;> rfl
    · cases read
  · rintro rfl
    cases v <;> decide

-- A status as it stands in a line, filled up with zeros to three digits.
def code (status : Nat) : Text := (Numeral.decimal status).leftpad 3 '0'

theorem code_digits {status : Nat} (high : status ≤ 999) : code status
    = [Nat.digitChar (status / 10 / 10), Nat.digitChar (status / 10 % 10), Nat.digitChar (status % 10)] := by
  have zero : Nat.digitChar 0 = '0' := rfl
  unfold code Numeral.decimal
  by_cases one : status < 10
  · have none : status / 10 = 0 := by omega
    have same : status % 10 = status := by omega
    simp [Nat.toDigits_of_lt_base one, none, same, zero, List.leftpad, List.replicate]
  · rw [Nat.toDigits_of_base_le (by decide) (by omega)]
    by_cases two : status < 100
    · have none : status / 10 / 10 = 0 := by omega
      have same : status / 10 % 10 = status / 10 := by omega
      rw [Nat.toDigits_of_lt_base (by omega)]
      simp [none, same, zero, List.leftpad]
    · rw [Nat.toDigits_of_base_le (by decide) (by omega), Nat.toDigits_of_lt_base (by omega)]
      rfl

theorem decimal_code {status : Nat} (low : 100 ≤ status) : Numeral.decimal status = code status := by
  have three : 3 ≤ (Numeral.decimal status).length := by
    unfold Numeral.decimal
    rw [Nat.toDigits_of_base_le (by decide) (by omega), Nat.toDigits_of_base_le (by decide) (by omega)]
    have real : 0 < (Nat.toDigits 10 (status / 10 / 10)).length := List.length_pos_iff.mpr Nat.toDigits_ne_nil
    simp
    omega
  simp [code, List.leftpad, three]

theorem code_graphic (status : Nat) : ∀ c ∈ code status, Text.isGraphic c = true := by
  intro c member
  rcases List.mem_append.mp member with zero | digit
  · rw [List.eq_of_mem_replicate zero]
    decide
  · exact digit_graphic c (decimal_digits status c digit)

theorem digit_iff (b : UInt8) (d : Nat) :
    Numeral.digit? 10 b = some d ↔ d < 10 ∧ b = UInt8.ofNat (Nat.digitChar d).toNat := by
  have chars : ∀ d < 10, (Nat.digitChar d).toNat = d + 0x30 := by decide
  rw [Numeral.digit?_iff]
  constructor
  · rintro ⟨below, face⟩
    refine ⟨below, UInt8.toNat_inj.mp ?_⟩
    rw [chars d below, Utf8.toNat_byte _ (by omega)]
    omega
  · rintro ⟨below, rfl⟩
    rw [Numeral.Digit, chars d below, Utf8.toNat_byte _ (by omega)]
    omega

theorem status_iff (status : Nat) :
    status? bytes = some status ↔ status ≤ 999 ∧ bytes = Utf8.encode (code status) := by
  constructor
  · intro read
    unfold status? at read
    split at read
    · rename_i three
      obtain ⟨a, b, c, rfl⟩ := List.length_eq_three.mp three.1
      have digits := three.2
      simp only [List.all_cons, List.all_nil, Bool.and_true, Bool.and_eq_true, Numeral.isDigit,
        Option.isSome_iff_exists] at digits
      obtain ⟨⟨i, first⟩, ⟨j, second⟩, ⟨k, third⟩⟩ := digits
      cases read
      obtain ⟨hundreds, rfl⟩ := (digit_iff a i).mp first
      obtain ⟨tens, rfl⟩ := (digit_iff b j).mp second
      obtain ⟨ones, rfl⟩ := (digit_iff c k).mp third
      simp only [Numeral.value, List.foldl_cons, List.foldl_nil, first, second, third, Option.getD_some]
      have small : ((0 * 10 + i) * 10 + j) * 10 + k ≤ 999 := by omega
      refine ⟨small, ?_⟩
      rw [encode_small (graphic_small (code_graphic _)), code_digits small]
      have one : (((0 * 10 + i) * 10 + j) * 10 + k) / 10 / 10 = i := by omega
      have two : (((0 * 10 + i) * 10 + j) * 10 + k) / 10 % 10 = j := by omega
      have last : (((0 * 10 + i) * 10 + j) * 10 + k) % 10 = k := by omega
      rw [one, two, last]
      rfl
    · cases read
  · rintro ⟨high, rfl⟩
    have digit : ∀ d < 10, Numeral.digit? 10 (UInt8.ofNat (Nat.digitChar d).toNat) = some d :=
      fun d small => (digit_iff _ d).mpr ⟨small, rfl⟩
    have first := digit (status / 10 / 10) (by omega)
    have second := digit (status / 10 % 10) (by omega)
    have third := digit (status % 10) (by omega)
    rw [encode_small (graphic_small (code_graphic _)), code_digits high]
    simp [status?, Numeral.isDigit, Numeral.value, first, second, third]
    omega

end Parts

def breaks (b : UInt8) : Bool := b == 0x0D || b == 0x0A

def Unbroken (bytes : Bytes) : Prop := ∀ b ∈ bytes, breaks b = false

instance (bytes : Bytes) : Decidable (Unbroken bytes) :=
  List.decidableBAll (fun b => breaks b = false) bytes

theorem Unbroken.append {first last : Bytes} (before : Unbroken first) (behind : Unbroken last) :
    Unbroken (first ++ last) := by
  intro b member
  rcases List.mem_append.mp member with here | there
  · exact before b here
  · exact behind b there

theorem graphic_unbroken (t : Text) (graphic : ∀ c ∈ t, Text.isGraphic c = true) :
    Unbroken (Utf8.encode t) := by
  intro b member
  have real := (isGraphicByte_iff b).mp (encode_graphic graphic b member)
  unfold breaks
  rw [Bool.or_eq_false_iff]
  constructor
  · exact beq_false_of_ne fun same => by subst same; exact absurd real.1 (by decide)
  · exact beq_false_of_ne fun same => by subst same; exact absurd real.1 (by decide)

theorem reason_unbroken (t : Text) (plain : ∀ c ∈ t, c ≠ '\r' ∧ c ≠ '\n') :
    Unbroken (Utf8.encode t) := by
  intro b member
  unfold breaks
  rw [Bool.or_eq_false_iff]
  constructor
  · refine beq_false_of_ne fun same => ?_
    subst same
    exact (plain _ (Utf8.encode_ascii 0x0D (by decide) t member)).1 rfl
  · refine beq_false_of_ne fun same => ?_
    subst same
    exact (plain _ (Utf8.encode_ascii 0x0A (by decide) t member)).2 rfl

theorem lossy_unbroken {bytes : Bytes} (unbroken : Unbroken bytes) :
    ∀ c ∈ Utf8.lossy bytes, c ≠ '\r' ∧ c ≠ '\n' := by
  have absent : ∀ c ∈ Utf8.lossy bytes, c.toNat < 0x80 → breaks (UInt8.ofNat c.toNat) = false :=
    fun c member small => unbroken _ (Utf8.lossy_ascii c small bytes member)
  intro c member
  constructor
  · rintro rfl
    exact absurd (absent _ member (by decide)) (by decide)
  · rintro rfl
    exact absurd (absent _ member (by decide)) (by decide)

theorem decimal_graphic (n : Nat) : ∀ c ∈ Numeral.decimal n, Text.isGraphic c = true :=
  fun c member => digit_graphic c (decimal_digits n c member)

def spaced (first second third : Bytes) : Bytes := first ++ 0x20 :: (second ++ 0x20 :: third)

inductive Form : Bytes → StartLine → Prop
  | request (method : Method) (uri : Text) (version : Version) (real : uri ≠ [])
    (graphic : ∀ c ∈ uri, Text.isGraphic c = true) :
    Form (spaced (ascii method.token) (Utf8.encode uri) (ascii version.text))
      (.request method uri version)
  | response (version : Version) (status : Nat) (reason : Bytes) (high : status ≤ 999)
    (real : reason ≠ []) (unbroken : Unbroken reason) :
    Form (spaced (ascii version.text) (Utf8.encode (code status)) reason)
      (.response version status (Utf8.lossy reason))

section Reading

variable {line first second third : Bytes} {start : StartLine}

theorem ofRequest_iff : ofRequest first second third = .ok start ↔
    ∃ method uri version, first = ascii method.token ∧ second = Utf8.encode uri ∧
      third = ascii version.text ∧ uri ≠ [] ∧ (∀ c ∈ uri, Text.isGraphic c = true) ∧
      start = .request method uri version := by
  unfold ofRequest
  constructor
  · intro read
    split at read
    · cases read
    · rename_i filled
      split at read
      · cases read
      · rename_i method token
        split at read
        · rename_i graphic
          obtain ⟨shown, same⟩ := ofLatin1_graphic graphic
          cases named : version? third with
          | error e =>
            rw [named] at read
            cases read
          | ok version =>
            rw [named] at read
            cases read
            refine ⟨method, _, version, (method_iff method).mp token, same.symm,
              (version_iff version).mp named, ?_, shown, rfl⟩
            intro empty
            exact filled (.inr (.inl (List.map_eq_nil_iff.mp empty)))
        · cases read
  · rintro ⟨method, uri, version, rfl, rfl, rfl, real, graphic, rfl⟩
    have bytes : (Utf8.encode uri).all Text.isGraphicByte = true :=
      List.all_eq_true.mpr (encode_graphic graphic)
    rw [if_neg (by simp [(token_plain method).2.1, encode_ne_nil uri real, (version_plain version).1]),
      Method.ofToken_token]
    simp [bytes, (version_iff version).mpr rfl, ofLatin1_encode (graphic_small graphic), Except.map]

theorem ofResponse_iff : ofResponse first second third = .ok start ↔
    ∃ version status, first = ascii version.text ∧ status ≤ 999 ∧ second = Utf8.encode (code status) ∧
      third ≠ [] ∧ start = .response version status (Utf8.lossy third) := by
  unfold ofResponse
  constructor
  · intro read
    split at read
    · cases read
    · cases read
    · rename_i version status named found
      split at read
      · cases read
      · rename_i real
        cases read
        obtain ⟨high, digits⟩ := (status_iff status).mp found
        exact ⟨version, status, (version_iff version).mp named, high, digits, real, rfl⟩
  · rintro ⟨version, status, rfl, high, rfl, real, rfl⟩
    simp [(version_iff version).mpr rfl, (status_iff status).mpr ⟨high, rfl⟩, real]

theorem spaced_split (free : 0x20 ∉ first) (plain : 0x20 ∉ second) :
    splitSome 0x20 2 (spaced first second third) = [first, second, third] :=
  (splitSome_three 0x20 _ _ _ _).mpr ⟨free, plain, rfl⟩

theorem graphic_unspaced {t : Text} (graphic : ∀ c ∈ t, Text.isGraphic c = true) :
    0x20 ∉ Utf8.encode t := by
  intro inside
  exact absurd (encode_graphic graphic 0x20 inside) (by decide)

theorem Form.unbroken (form : Form line start) : Unbroken line := by
  have space : Unbroken [0x20] := by decide
  have versions : ∀ v : Version, Unbroken (ascii v.text) := by
    intro v
    cases v <;> decide
  have parts : ∀ first second third, Unbroken first → Unbroken second → Unbroken third →
      Unbroken (spaced first second third) := fun _ _ _ before between behind =>
    before.append (space.append (between.append (space.append behind)))
  cases form with
  | request method uri version real graphic =>
    have token : Unbroken (ascii method.token) := by cases method <;> decide
    exact parts _ _ _ token (graphic_unbroken uri graphic) (versions version)
  | response version status reason high real unbroken =>
    exact parts _ _ _ (versions version) (graphic_unbroken _ (code_graphic status)) unbroken

-- The protocol in front tells a response from a request, since no method begins with it.
theorem ofLine_form : ofLine line = .ok start ↔ Form line start := by
  constructor
  · intro read
    unfold ofLine at read
    split at read
    · cases read
    · rename_i unbroken
      split at read
      · rename_i first second third split
        obtain ⟨-, -, rfl⟩ := (splitSome_three 0x20 _ _ _ _).mp split
        split at read
        · obtain ⟨version, status, rfl, high, rfl, real, rfl⟩ := ofResponse_iff.mp read
          refine .response version status third high real fun b member => ?_
          exact Bool.eq_false_iff.mpr fun broken =>
            unbroken (List.any_eq_true.mpr ⟨b, by simp [member], broken⟩)
        · obtain ⟨method, uri, version, rfl, rfl, rfl, real, graphic, rfl⟩ := ofRequest_iff.mp read
          exact .request method uri version real graphic
      · cases read
  · intro form
    have whole : ¬ line.any breaks = true := by
      intro broken
      obtain ⟨b, member, still⟩ := List.any_eq_true.mp broken
      rw [form.unbroken b member] at still
      cases still
    unfold ofLine
    rw [if_neg (by exact whole)]
    cases form with
    | request method uri version real graphic =>
      obtain ⟨token, _, other⟩ := token_plain method
      rw [spaced_split token (graphic_unspaced graphic)]
      simp only [other, Bool.false_eq_true, if_false]
      exact ofRequest_iff.mpr ⟨method, uri, version, rfl, rfl, rfl, real, graphic, rfl⟩
    | response version status reason high real unbroken =>
      obtain ⟨first, named⟩ := version_plain version
      rw [spaced_split first (graphic_unspaced (code_graphic status))]
      simp only [named, if_true]
      exact ofResponse_iff.mpr ⟨version, status, rfl, high, rfl, real, rfl⟩

end Reading

section Printing

variable {start : StartLine}

inductive Printable : StartLine → Prop
  | request (method : Method) (uri : Text) (version : Version) (real : uri ≠ [])
    (graphic : ∀ c ∈ uri, Text.isGraphic c = true) : Printable (.request method uri version)
  | response (version : Version) (status : Nat) (reason : Text) (high : status ≤ 999)
    (real : reason ≠ []) (plain : ∀ c ∈ reason, c ≠ '\r' ∧ c ≠ '\n') :
    Printable (.response version status reason)

def printed : StartLine → Bytes
  | request method uri version =>
    spaced (ascii method.token) (Utf8.encode uri) (ascii version.text)
  | response version status reason =>
    spaced (ascii version.text) (Utf8.encode (code status)) (Utf8.encode reason)

theorem Printable.form (printable : start.Printable) : Form start.printed start := by
  cases printable with
  | request method uri version real graphic => exact .request method uri version real graphic
  | response version status reason high real plain =>
    have form := Form.response version status (Utf8.encode reason) high (encode_ne_nil reason real)
      (reason_unbroken reason plain)
    rwa [Utf8.lossy_encode] at form

def reasonOf (line : Bytes) : Bytes := ((splitSome 0x20 2 line)[2]?).getD []

-- A reason that is no UTF-8 is read as another text. All else of a line is kept.
theorem Form.printed {line : Bytes} (form : Form line start)
    (valid : start.sender.kind = .response → ∃ reason, Utf8.encode reason = reasonOf line) :
    start.Printable ∧ start.printed = line := by
  cases form with
  | request method uri version real graphic => exact ⟨.request method uri version real graphic, rfl⟩
  | response version status reason high real unbroken =>
    obtain ⟨text, same⟩ := valid rfl
    rw [reasonOf, spaced_split (version_plain version).1 (graphic_unspaced (code_graphic status))] at same
    obtain rfl : Utf8.encode text = reason := same
    refine ⟨.response version status _ high (Utf8.lossy_ne_nil _ real) (lossy_unbroken unbroken), ?_⟩
    rw [StartLine.printed, Utf8.lossy_encode]

end Printing

section Writing

variable {start : StartLine}

inductive Writable : StartLine → Prop
  | request (method : Method) (uri : Text) (version : Version) (real : uri ≠ [])
    (graphic : ∀ c ∈ uri, Text.isGraphic c = true) : Writable (.request method uri version)
  | response (version : Version) (status : Nat) (reason : Text) (low : 100 ≤ status)
    (high : status ≤ 999) (real : reason ≠ []) (plain : ∀ c ∈ reason, c ≠ '\r' ∧ c ≠ '\n') :
    Writable (.response version status reason)

-- A writer prints a status as it is, which takes three digits.
theorem Writable.printed (writable : start.Writable) : start.Printable ∧ start.printed = start.bytes := by
  cases writable with
  | request method uri version real graphic =>
    refine ⟨.request method uri version real graphic, ?_⟩
    simp [StartLine.printed, bytes, spaced]
  | response version status reason low high real plain =>
    refine ⟨.response version status reason high real plain, ?_⟩
    simp [StartLine.printed, bytes, spaced, decimal_code low]

theorem Writable.form (writable : start.Writable) : Form start.bytes start := by
  obtain ⟨printable, same⟩ := writable.printed
  exact same ▸ printable.form

theorem bytes_unbroken (writable : start.Writable) : Unbroken start.bytes :=
  writable.form.unbroken

theorem ofLine_bytes (writable : start.Writable) : ofLine start.bytes = .ok start :=
  ofLine_form.mpr writable.form

theorem ofLine_writable {line : Bytes} (read : ofLine line = .ok start)
    (coded : ∀ v code text, start = .response v code text → 100 ≤ code) : start.Writable := by
  cases ofLine_form.mp read with
  | request method uri version real graphic => exact .request method uri version real graphic
  | response version status reason high real unbroken =>
    exact .response version status _ (coded _ _ _ rfl) high (Utf8.lossy_ne_nil reason real)
      (lossy_unbroken unbroken)

end Writing

end StartLine
end HttpWire

-- Within the limit of its length, what is printed is read, and what is read prints as its line.
namespace HttpWire.Reader

def startLine? (line : Bytes) : Except Error StartLine :=
  if line.length + 2 ≤ startLineRoom then StartLine.ofLine line else .error .startLineTooLong

theorem startLineTurn_line (r : Reader) (line rest : Bytes) (free : ¬ crlf <:+: line) :
    startLineTurn r (line ++ (crlf ++ rest)) =
      match startLine? line with
      | .error e => .fault [] e
      | .ok start => .onward [.start start] { r with sender := start.sender, phase := .header 0 } rest := by
  unfold startLineTurn startLine?
  by_cases fits : line.length + 2 ≤ startLineRoom
  · have whole := takeLine_line _ line rest free fits
    cases read : StartLine.ofLine line <;> simp [whole, fits, read]
  · have long : takeLine startLineRoom (line ++ (crlf ++ rest)) = .tooLong := by
      unfold takeLine
      rw [cutMark_line line rest free]
      exact if_neg fits
    rw [long, if_neg fits]

theorem startLine_inverse :
    (∀ start : StartLine, start.Printable → start.printed.length ≤ 6144 →
      startLine? start.printed = .ok start ∧
        ∀ (r : Reader) (rest : Bytes), startLineTurn r (start.printed ++ (crlf ++ rest))
          = .onward [.start start] { r with sender := start.sender, phase := .header 0 } rest) ∧
    ∀ (line : Bytes) (start : StartLine), startLine? line = .ok start →
      (start.sender.kind = .response → ∃ reason, Utf8.encode reason = StartLine.reasonOf line) →
      start.Printable ∧ start.printed = line := by
  constructor
  · intro start printable short
    have form := printable.form
    have fits : start.printed.length + 2 ≤ startLineRoom := Nat.add_le_add_right short 2
    have read : startLine? start.printed = .ok start := by
      unfold startLine?
      rw [if_pos fits]
      exact StartLine.ofLine_form.mpr form
    have free : ¬ crlf <:+: start.printed := crlf_absent _ fun inside =>
      absurd (form.unbroken 0x0D inside) (by decide)
    refine ⟨read, fun r rest => ?_⟩
    rw [startLineTurn_line r _ rest free, read]
  · intro line start read valid
    unfold startLine? at read
    split at read
    · exact (StartLine.ofLine_form.mp read).printed valid
    · cases read

theorem startLine_inverse_low_status :
    let start : StartLine := .response .v10 7 "Ça va  bien".toList
    let line := ascii "HTTP/1.0 007 " ++ [0xC3, 0x87] ++ ascii "a va  bien"
    start.Printable ∧ start.printed.length ≤ 6144 ∧ startLine? start.printed = .ok start ∧
      startLine? line = .ok start ∧ Utf8.encode "Ça va  bien".toList = StartLine.reasonOf line ∧
      start.printed = line := by
  intro start line
  have printable : start.Printable := .response .v10 7 _ (by decide) (by decide) (by simp)
  have short : start.printed.length ≤ 6144 := by decide
  have read : startLine? line = .ok start := by decide
  have reason : Utf8.encode "Ça va  bien".toList = StartLine.reasonOf line := by decide
  exact ⟨printable, short, (startLine_inverse.1 start printable short).1, read, reason,
    (startLine_inverse.2 line start read fun _ => ⟨_, reason⟩).2⟩

end HttpWire.Reader
