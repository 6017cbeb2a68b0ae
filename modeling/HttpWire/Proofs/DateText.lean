import HttpWire.Proofs.Calendar
import HttpWire.Proofs.GeneratedText
import Mathlib.Data.List.Flatten

namespace HttpWire.Date

structure Moment where
  date : Civil
  hour : Nat
  minute : Nat
  second : Nat

structure Moment.Valid (m : Moment) : Prop where
  date : m.date.Valid
  year : 1970 ≤ m.date.year ∧ m.date.year ≤ 9999
  hour : m.hour < 24
  minute : m.minute < 60
  second : m.second < 60

def Moment.clock (m : Moment) : Nat := 3600 * m.hour + 60 * m.minute + m.second

def padded (width n : Nat) : Text := List.leftpad width '0' (Numeral.decimal n)

def firstWeek : List String := ["Thu", "Fri", "Sat", "Sun", "Mon", "Tue", "Wed"]

def weekdayOf (c : Civil) : String := firstWeek.getD (c.dayNumber % 7).toNat ""

def monthName : Nat → String
  | 1 => "Jan"
  | 2 => "Feb"
  | 3 => "Mar"
  | 4 => "Apr"
  | 5 => "May"
  | 6 => "Jun"
  | 7 => "Jul"
  | 8 => "Aug"
  | 9 => "Sep"
  | 10 => "Oct"
  | 11 => "Nov"
  | 12 => "Dec"
  | _ => ""

def Moment.pieces (m : Moment) : List Text :=
  [(weekdayOf m.date).toList, ", ".toList, padded 2 m.date.day, " ".toList,
    (monthName m.date.month).toList, " ".toList, padded 4 m.date.year.toNat, " ".toList,
    padded 2 m.hour, ":".toList, padded 2 m.minute, ":".toList, padded 2 m.second, " GMT".toList]

def Moment.text (m : Moment) : Text := m.pieces.flatten

def written (seconds : Int) : Int := min (max seconds 0) 253402300799

section Numbers

variable {n : Nat}

theorem twoDigits_padded (small : n < 100) : twoDigits n = padded 2 n := by
  have table : ∀ n < 100, twoDigits n = padded 2 n := by decide
  exact table n small

theorem decimal_last (filled : 10 ≤ n) :
    Numeral.decimal n = Numeral.decimal (n / 10) ++ [Nat.digitChar (n % 10)] := by
  have cut := Nat.toDigits_append_toDigits (b := 10) (n := n / 10) (d := n % 10) (by decide) (by omega)
    (Nat.mod_lt _ (by decide))
  rw [Nat.div_add_mod, Nat.toDigits_of_lt_base (Nat.mod_lt n (by decide))] at cut
  exact cut.symm

theorem fourDigits_padded (low : 1000 ≤ n) (high : n < 10000) :
    twoDigits (n / 100) ++ twoDigits (n % 100) = padded 4 n := by
  have digits : Numeral.decimal n = [Nat.digitChar (n / 10 / 10 / 10), Nat.digitChar (n / 10 / 10 % 10),
      Nat.digitChar (n / 10 % 10), Nat.digitChar (n % 10)] := by
    rw [decimal_last (by omega), decimal_last (show 10 ≤ n / 10 by omega),
      decimal_last (show 10 ≤ n / 10 / 10 by omega), Numeral.decimal, Nat.toDigits_of_lt_base (by omega)]
    rfl
  have first : n / 100 / 10 % 10 = n / 10 / 10 / 10 := by omega
  have second : n / 100 % 10 = n / 10 / 10 % 10 := by omega
  have third : n % 100 / 10 % 10 = n / 10 % 10 := by omega
  have fourth : n % 100 % 10 = n % 10 := by omega
  unfold padded twoDigits
  rw [digits, first, second, third, fourth]
  rfl

theorem padded_two (small : n < 100) : (padded 2 n).length = 2 := by
  rw [← twoDigits_padded small]
  rfl

theorem padded_four (low : 1000 ≤ n) (high : n < 10000) : (padded 4 n).length = 4 := by
  rw [← fourDigits_padded low high]
  rfl

theorem padded_value (width n : Nat) : Framing.decimalValue (padded width n) = n := by
  have zeros : ∀ k, Nat.ofDigitChars 10 (List.replicate k '0') 0 = 0 := by
    intro k
    induction k with
    | zero => rfl
    | succ k ih => exact ih
  have whole := decimalValue_decimal n
  rw [decimalValue_eq] at whole
  unfold padded List.leftpad
  rw [decimalValue_eq, Nat.ofDigitChars_append, zeros, whole]

theorem padded_injective {width m : Nat} (same : padded width n = padded width m) : n = m := by
  rw [← padded_value width n, same, padded_value]

end Numbers

section Rendering

variable {m : Moment} {seconds : Int}

theorem clamp_written (seconds : Int) : (clamp seconds : Int) = written seconds := by
  unfold clamp written lastSecond
  omega

theorem Moment.Valid.day_small (valid : m.Valid) : m.date.day < 100 := by
  have longest : ∀ leap, ∀ k < 12, (Civil.monthLengths leap).getD k 0 < 100 := by decide
  have range := valid.date.month
  exact Nat.lt_of_le_of_lt valid.date.day.2 (longest _ _ (by omega))

-- All the numbers have their width, and so have the names.
theorem Moment.Valid.widths (valid : m.Valid) :
    m.pieces.map List.length = [3, 2, 2, 1, 3, 1, 4, 1, 2, 1, 2, 1, 2, 4] := by
  have weekdayNames : ∀ k < 7, (firstWeek.getD k "").toList.length = 3 := by decide
  have monthNames : ∀ k < 13, 1 ≤ k → (monthName k).toList.length = 3 := by decide
  have range := valid.date.month
  have years := valid.year
  have weekday := weekdayNames (m.date.dayNumber % 7).toNat (by omega)
  have hours := valid.hour
  have minutes := valid.minute
  have seconds := valid.second
  have day := padded_two valid.day_small
  have month := monthNames m.date.month (by omega) range.1
  have year : (padded 4 m.date.year.toNat).length = 4 := padded_four (by omega) (by omega)
  have hour : (padded 2 m.hour).length = 2 := padded_two (by omega)
  have minute : (padded 2 m.minute).length = 2 := padded_two (by omega)
  have second : (padded 2 m.second).length = 2 := padded_two (by omega)
  unfold pieces weekdayOf
  simp only [List.map_cons, List.map_nil, weekday, day, month, year, hour, minute, second]
  rfl

theorem Moment.Valid.injective {n : Moment} (first : m.Valid) (other : n.Valid) (same : m.text = n.text) :
    m = n := by
  have pieces : m.pieces = n.pieces :=
    List.eq_iff_flatten_eq.mpr ⟨same, first.widths.trans other.widths.symm⟩
  unfold Moment.pieces at pieces
  simp only [List.cons.injEq, true_and, and_true] at pieces
  obtain ⟨-, day, month, year, hour, minute, second⟩ := pieces
  have table : ∀ i < 13, ∀ j < 13, (monthName i).toList = (monthName j).toList → i = j := by
    decide
  have range := first.date.month
  have late := other.date.month
  have months := table _ (by omega) _ (by omega) month
  have years : m.date.year = n.date.year := by
    have digits := padded_injective year
    have low := first.year
    have high := other.year
    omega
  obtain ⟨⟨_, _, _⟩, _, _, _⟩ := m
  obtain ⟨⟨_, _, _⟩, _, _, _⟩ := n
  rw [Moment.mk.injEq, Civil.mk.injEq]
  exact ⟨⟨years, months, padded_injective day⟩, padded_injective hour, padded_injective minute,
    padded_injective second⟩

def Moment.ofSeconds (now : Nat) : Moment :=
  { date := Civil.ofDays (now / 86400 : Nat)
    hour := now % 86400 / 3600
    minute := now % 86400 % 3600 / 60
    second := now % 86400 % 60 }

theorem ofSeconds_clock (now : Nat) : (Moment.ofSeconds now).clock = now % 86400 := by
  unfold Moment.clock Moment.ofSeconds
  dsimp only
  omega

-- The bounds of the seconds are those of the years with four digits from 1970 on.
theorem ofSeconds_valid {now : Nat} (inside : now ≤ lastSecond) : (Moment.ofSeconds now).Valid := by
  obtain ⟨valid, number⟩ := Civil.ofDays_valid (now / 86400 : Nat)
  obtain ⟨low, high⟩ := valid.inYear
  have bound : now ≤ 253402300799 := inside
  refine ⟨valid, ⟨?_, ?_⟩, ?_, ?_, ?_⟩
  · refine Int.not_lt.mp fun early => ?_
    have before := Civil.daysToYear_mono (show (Civil.ofDays (now / 86400 : Nat)).year + 1 ≤ 1970 from early)
    have zero : Civil.daysToYear 1970 = 0 := by decide
    omega
  · refine Int.not_lt.mp fun late => ?_
    have behind := Civil.daysToYear_mono (show 10000 ≤ (Civil.ofDays (now / 86400 : Nat)).year by exact late)
    have last := Civil.daysToYear_eq 10000
    omega
  · unfold Moment.ofSeconds
    dsimp only
    omega
  · unfold Moment.ofSeconds
    dsimp only
    omega
  · exact Nat.mod_lt _ (by decide)

theorem weekdayOf_number {c : Civil} {days : Nat} (number : c.dayNumber = days) :
    weekdayOf c = weekday days := by
  have table : ∀ k < 7, firstWeek.getD k "" = weekdays.getD ((k + 4) % 7) "" := by decide
  have place : ((days : Int) % 7).toNat = days % 7 := by omega
  have shifted : (days % 7 + 4) % 7 = (days + 4) % 7 := by omega
  unfold weekdayOf weekday
  rw [number, place, table _ (Nat.mod_lt _ (by decide)), shifted]

theorem monthName_month {month : Nat} (low : 1 ≤ month) (high : month ≤ 12) :
    monthName month = months.getD (month - 1) "" := by
  have table : ∀ k < 13, 1 ≤ k → monthName k = months.getD (k - 1) "" := by decide
  exact table month (by omega) low

theorem Moment.Valid.text_eq (valid : m.Valid) {days : Nat} (number : m.date.dayNumber = days) :
    (weekday days).toList ++ [',', ' '] ++ twoDigits m.date.day ++ [' ']
      ++ (months.getD (m.date.month - 1) "").toList ++ [' ']
      ++ twoDigits (m.date.year.toNat / 100) ++ twoDigits (m.date.year.toNat % 100) ++ [' ']
      ++ twoDigits m.hour ++ [':'] ++ twoDigits m.minute ++ [':'] ++ twoDigits m.second
      ++ " GMT".toList = m.text := by
  have range := valid.date.month
  have years := valid.year
  have hours := valid.hour
  have minutes := valid.minute
  have seconds := valid.second
  have year : twoDigits (m.date.year.toNat / 100) ++ twoDigits (m.date.year.toNat % 100)
      = padded 4 m.date.year.toNat := fourDigits_padded (by omega) (by omega)
  have day := twoDigits_padded valid.day_small
  have hour : twoDigits m.hour = padded 2 m.hour := twoDigits_padded (by omega)
  have minute : twoDigits m.minute = padded 2 m.minute := twoDigits_padded (by omega)
  have second : twoDigits m.second = padded 2 m.second := twoDigits_padded (by omega)
  unfold Moment.text Moment.pieces
  rw [weekdayOf_number number, monthName_month range.1 range.2, ← year, ← day, ← hour, ← minute,
    ← second]
  simp only [List.append_assoc, List.flatten_cons, List.flatten_nil, List.append_nil]
  rfl

theorem render_ofSeconds (seconds : Int) : render seconds = (Moment.ofSeconds (clamp seconds)).text := by
  have inside : clamp seconds ≤ lastSecond := Nat.min_le_right ..
  exact (ofSeconds_valid inside).text_eq (Civil.ofDays_valid _).2

theorem render_bytes (seconds : Int) : (Utf8.encode (render seconds)).length = 29 := by
  have small : ∀ c ∈ render seconds, c.toNat < 0x80 := by
    intro c member
    rcases render_plain seconds c member with graphic | rfl
    · have range := (isGraphic_iff c).mp graphic
      omega
    · decide
  have inside : clamp seconds ≤ lastSecond := Nat.min_le_right ..
  rw [encode_small small, List.length_map, render_ofSeconds, Moment.text, List.length_flatten,
    (ofSeconds_valid inside).widths]
  rfl

end Rendering

-- Dates and days correspond to each other, also those that are never written, and so do written
-- times and their seconds.
theorem render_calendar :
    (∀ seconds, ∃ m : Moment, m.Valid ∧ m.date.dayNumber = written seconds / 86400 ∧
      (m.clock : Int) = written seconds % 86400 ∧ render seconds = m.text ∧
      (Utf8.encode (render seconds)).length = 29) ∧
    (∀ days, (Civil.ofDays days).Valid ∧ (Civil.ofDays days).dayNumber = days) ∧
    (∀ c : Civil, c.Valid → Civil.ofDays c.dayNumber = c) ∧
    (∀ s t, render s = render t → written s = written t) := by
  refine ⟨fun seconds => ?_, Civil.ofDays_valid, fun c valid => Civil.ofDays_dayNumber valid, fun s t same => ?_⟩
  · have inside : clamp seconds ≤ lastSecond := Nat.min_le_right ..
    have now := clamp_written seconds
    have clock := ofSeconds_clock (clamp seconds)
    refine ⟨.ofSeconds (clamp seconds), ofSeconds_valid inside, ?_, by omega, render_ofSeconds seconds,
      render_bytes seconds⟩
    rw [← now]
    exact (Civil.ofDays_valid _).2
  · have first := ofSeconds_valid (show clamp s ≤ lastSecond from Nat.min_le_right ..)
    have other := ofSeconds_valid (show clamp t ≤ lastSecond from Nat.min_le_right ..)
    rw [render_ofSeconds, render_ofSeconds] at same
    have moments := first.injective other same
    have clocks := congrArg Moment.clock moments
    have dates := congrArg (fun m => m.date.dayNumber) moments
    rw [ofSeconds_clock, ofSeconds_clock] at clocks
    dsimp only [Moment.ofSeconds] at dates
    rw [(Civil.ofDays_valid _).2, (Civil.ofDays_valid _).2] at dates
    rw [← clamp_written, ← clamp_written]
    omega

theorem render_calendar_leap_day :
    Civil.Valid ⟨2000, 2, 29⟩ ∧ Civil.ofDays (Civil.dayNumber ⟨2000, 2, 29⟩) = ⟨2000, 2, 29⟩ ∧
      render (-10) = render 0 ∧ written (-10) = written 0 :=
  ⟨⟨by decide, by decide⟩, render_calendar.2.2.1 ⟨2000, 2, 29⟩ ⟨by decide, by decide⟩,
    by decide, render_calendar.2.2.2 (-10) 0 (by decide)⟩

example : render 951782400 = "Tue, 29 Feb 2000 00:00:00 GMT".toList := by decide

end HttpWire.Date
