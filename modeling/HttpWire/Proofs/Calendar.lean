import HttpWire.Date
import Mathlib.Algebra.GroupWithZero.Nat
import Mathlib.Data.Int.Init

-- Each date has its number and each number its date.
namespace HttpWire.Civil

def isLeap (year : Int) : Bool := year % 4 == 0 && (year % 100 != 0 || year % 400 == 0)

def monthLengths (leap : Bool) : List Nat :=
  [31, if leap then 29 else 28, 31, 30, 31, 30, 31, 31, 30, 31, 30, 31]

def monthLength (year : Int) (month : Nat) : Nat := (monthLengths (isLeap year)).getD (month - 1) 0

def yearLength (year : Int) : Nat := (monthLengths (isLeap year)).sum

def daysOfYears (first : Int) : Nat → Nat
  | 0 => 0
  | n + 1 => yearLength first + daysOfYears (first + 1) n

def daysToYear (year : Int) : Int :=
  daysOfYears 1970 (year - 1970).toNat - daysOfYears year (1970 - year).toNat

def daysToMonth (year : Int) (month : Nat) : Nat := ((monthLengths (isLeap year)).take (month - 1)).sum

structure Valid (c : Civil) : Prop where
  month : 1 ≤ c.month ∧ c.month ≤ 12
  day : 1 ≤ c.day ∧ c.day ≤ monthLength c.year c.month

def dayNumber (c : Civil) : Int := daysToYear c.year + daysToMonth c.year c.month + (c.day - 1)

section Years

theorem daysOfYears_last (first : Int) (n : Nat) :
    daysOfYears first (n + 1) = daysOfYears first n + yearLength (first + n) := by
  induction n generalizing first with
  | zero => simp [daysOfYears]
  | succ n ih =>
    have same : first + 1 + n = first + (n + 1 : Nat) := by omega
    rw [daysOfYears, ih, daysOfYears, same]
    omega

variable (year : Int)

theorem daysToYear_next : daysToYear (year + 1) = daysToYear year + yearLength year := by
  unfold daysToYear
  by_cases late : 1970 ≤ year
  · have next : (year + 1 - 1970).toNat = (year - 1970).toNat + 1 := by omega
    have here : 1970 + ((year - 1970).toNat : Int) = year := by omega
    have past : (1970 - (year + 1)).toNat = 0 ∧ (1970 - year).toNat = 0 := by omega
    rw [next, daysOfYears_last, here, past.1, past.2]
    simp only [daysOfYears]
    omega
  · have next : (1970 - year).toNat = (1970 - (year + 1)).toNat + 1 := by omega
    have past : (year + 1 - 1970).toNat = 0 ∧ (year - 1970).toNat = 0 := by omega
    rw [next, past.1, past.2]
    simp only [daysOfYears]
    omega

theorem isLeap_iff : isLeap year = true ↔ year % 4 = 0 ∧ (year % 100 ≠ 0 ∨ year % 400 = 0) := by
  simp [isLeap]

theorem yearLength_eq : (yearLength year : Int) = 365 + (year / 4 - (year - 1) / 4)
    - (year / 100 - (year - 1) / 100) + (year / 400 - (year - 1) / 400) := by
  have rule := isLeap_iff year
  unfold yearLength
  cases leap : isLeap year with
  | true =>
    have sum : (monthLengths true).sum = 366 := rfl
    have here := rule.mp leap
    rw [sum]
    omega
  | false =>
    have sum : (monthLengths false).sum = 365 := rfl
    have here : ¬ (year % 4 = 0 ∧ (year % 100 ≠ 0 ∨ year % 400 = 0)) := fun holds =>
      absurd (rule.mpr holds) (by rw [leap]; decide)
    rw [sum]
    omega

-- One more day for every fourth year, but for three of every four centuries.
theorem daysToYear_eq :
    daysToYear year = 365 * (year - 1) + (year - 1) / 4 - (year - 1) / 100 + (year - 1) / 400 - 719162 := by
  induction year using Int.inductionOn' (b := 1970) with
  | zero => decide
  | succ year _ ih =>
    have length := yearLength_eq year
    rw [daysToYear_next, ih, length]
    omega
  | pred year _ ih =>
    have length := yearLength_eq (year - 1)
    have next := daysToYear_next (year - 1)
    rw [Int.sub_add_cancel, ih] at next
    omega

end Years

section Months

theorem daysToMonth_next (year : Int) (month : Nat) (range : 1 ≤ month ∧ month ≤ 12) :
    daysToMonth year (month + 1) = daysToMonth year month + monthLength year month := by
  have table : ∀ leap, ∀ month < 13, 1 ≤ month → ((monthLengths leap).take (month + 1 - 1)).sum
      = ((monthLengths leap).take (month - 1)).sum + (monthLengths leap).getD (month - 1) 0 := by decide
  exact table _ month (by omega) range.1

theorem daysToMonth_mono (year : Int) {month later : Nat} (before : month ≤ later) :
    daysToMonth year month ≤ daysToMonth year later := by
  obtain ⟨rest, same⟩ := List.take_prefix_take_left (l := monthLengths (isLeap year))
    (show month - 1 ≤ later - 1 by omega)
  unfold daysToMonth
  rw [← same, List.sum_append]
  exact Nat.le_add_right _ _

theorem daysToMonth_end (year : Int) : daysToMonth year 13 = yearLength year := rfl

end Months

-- Months counted from March have lengths that repeat in fives, but for the last one.
section March

def yearStart (year : Nat) : Nat := 365 * year + year / 4 - year / 100

def yearInCycle (day : Nat) : Nat := (day - day / 1460 + day / 36524 - day / 146096) / 365

-- The first division counts the leap days before a day, give or take the one that ends its own four
-- years, and the last two take back the centuries that have none.
theorem yearInCycle_parts (century four year day : Nat) (centuries : century < 4) (fours : four < 25)
    (years : year < 4) (days : day ≤ 365)
    (last : day = 365 → year = 3 ∧ (four ≠ 24 ∨ century = 3)) :
    yearInCycle (36524 * century + 1461 * four + 365 * year + day) = 100 * century + 4 * four + year := by
  generalize number : 36524 * century + 1461 * four + 365 * year + day = n
  generalize ended : (24 * century + four + 365 * year + day) / 1460 = own
  have leaps : n / 1460 = 25 * century + four + own := by omega
  have fits : own ≤ day ∧ day < own + 365 := by omega
  have exempt : n / 36524 = century + n / 146096 := by
    by_cases closing : day = 365 ∧ four = 24
    · obtain ⟨rfl, rfl⟩ := closing
      obtain ⟨rfl, other | rfl⟩ := last rfl
      · exact absurd rfl other
      · rw [← number]
    · have inside : 1461 * four + 365 * year + day < 36524 := by omega
      have cycle : n / 146096 = 0 := Nat.div_eq_of_lt (by omega)
      rw [cycle]
      omega
  have whole : n - n / 1460 + n / 36524 - n / 146096
      = 365 * (100 * century + 4 * four + year) + (day - own) := by
    clear last ended
    rw [exempt, leaps]
    generalize n / 146096 = cycle
    clear exempt leaps
    omega
  unfold yearInCycle
  rw [whole, Nat.mul_add_div (by decide),
    Nat.div_eq_of_lt (Nat.sub_lt_left_of_lt_add fits.1 fits.2), Nat.add_zero]

theorem cycle_parts {n : Nat} (inside : n < 146097) :
    ∃ century four year day, century < 4 ∧ four < 25 ∧ year < 4 ∧ day ≤ 365 ∧
      (day = 365 → year = 3 ∧ (four ≠ 24 ∨ century = 3)) ∧
      n = 36524 * century + 1461 * four + 365 * year + day := by
  obtain ⟨century, inCentury, centuries, short, long, whole⟩ : ∃ century inCentury, century < 4 ∧
      inCentury ≤ 36524 ∧ (inCentury = 36524 → century = 3) ∧ n = 36524 * century + inCentury := by
    by_cases last : n = 146096
    · exact ⟨3, 36524, by decide, by decide, fun _ => rfl, last⟩
    · exact ⟨n / 36524, n % 36524, by omega, by omega, by omega, by omega⟩
  have fours := Nat.div_add_mod inCentury 1461
  have inFour := Nat.mod_lt inCentury (show 1461 > 0 by decide)
  generalize inCentury / 1461 = four at fours
  generalize inCentury % 1461 = rest at fours inFour
  by_cases last : rest = 1460
  · exact ⟨century, four, 3, 365, centuries, by omega, by decide, by decide, by omega, by omega⟩
  · exact ⟨century, four, rest / 365, rest % 365, centuries, by omega, by omega, by omega, by omega, by omega⟩

theorem cycle_day {n : Nat} (inside : n < 146097) :
    ∃ year day : Nat, year < 400 ∧ day ≤ 365 ∧ (day = 365 → isLeap (year + 1) = true) ∧
      n = yearStart year + day ∧ yearInCycle n = year := by
  obtain ⟨century, four, year, day, centuries, fours, years, days, last, rfl⟩ := cycle_parts inside
  refine ⟨100 * century + 4 * four + year, day, by omega, days, fun full => ?_, ?_,
    yearInCycle_parts century four year day centuries fours years days last⟩
  · obtain ⟨rfl, common⟩ := last full
    rw [isLeap_iff]
    omega
  · have fourth : (100 * century + 4 * four + year) / 4 = 25 * century + four := by omega
    have hundredth : (100 * century + 4 * four + year) / 100 = century := by omega
    unfold yearStart
    rw [fourth, hundredth]
    omega

end March

def ofMarch (year : Int) (day : Nat) : Civil :=
  let month := (5 * day + 2) / 153
  { year := if month < 10 then year else year + 1
    month := if month < 10 then month + 3 else month - 9
    day := day - (153 * month + 2) / 5 + 1 }

section Dates

theorem ofDays_march (cycle : Int) {year day : Nat} (days : day ≤ 365)
    (inside : yearStart year + day < 146097) (found : yearInCycle (yearStart year + day) = year) :
    ofDays (146097 * cycle + (yearStart year + day : Nat) - 719468) = ofMarch (400 * cycle + year) day := by
  generalize number : yearStart year + day = n at inside found
  have cycles : (146097 * cycle + (n : Int) - 719468 + 719468) / 146097 = cycle := by omega
  have inCycle : ((146097 * cycle + (n : Int) - 719468 + 719468) % 146097).toNat = n := by omega
  have inYear : n - (365 * year + year / 4 - year / 100) = day := by
    rw [← number, yearStart, Nat.add_sub_cancel_left]
  have months : (5 * day + 2) / 153 < 12 := by omega
  unfold yearInCycle at found
  unfold ofDays ofMarch
  simp only [cycles, inCycle, found, inYear]
  by_cases early : (5 * day + 2) / 153 < 10
  · have late : ¬ (5 * day + 2) / 153 + 3 ≤ 2 := by omega
    simp only [if_pos early, if_neg late, Civil.mk.injEq, and_true]
    omega
  · have first : (5 * day + 2) / 153 - 9 ≤ 2 := by omega
    simp only [if_neg early, if_pos first, Civil.mk.injEq, and_true]
    omega

theorem daysToMonth_late (year : Int) (month : Nat) (range : month < 10) :
    daysToMonth year (month + 3) + 306 = yearLength year + (153 * month + 2) / 5 := by
  have table : ∀ leap, ∀ month < 10, ((monthLengths leap).take (month + 3 - 1)).sum + 306
      = (monthLengths leap).sum + (153 * month + 2) / 5 := by decide
  exact table _ month range

theorem daysToMonth_early (year : Int) (month : Nat) (range : 10 ≤ month ∧ month < 12) :
    daysToMonth year (month - 9) + 306 = (153 * month + 2) / 5 := by
  have table : ∀ leap, ∀ month < 12, 10 ≤ month → ((monthLengths leap).take (month - 9 - 1)).sum + 306
      = (153 * month + 2) / 5 := by decide
  exact table _ month range.2 range.1

theorem ofMarch_number (year : Int) {day : Nat} (days : day ≤ 365) :
    (ofMarch year day).dayNumber = 365 * year + year / 4 - year / 100 + year / 400 + day - 719468 := by
  have months : (5 * day + 2) / 153 < 12 := by omega
  have started : (153 * ((5 * day + 2) / 153) + 2) / 5 ≤ day := by omega
  have closed := daysToYear_eq (year + 1)
  rw [Int.add_sub_cancel] at closed
  unfold ofMarch dayNumber
  generalize (5 * day + 2) / 153 = month at months started
  dsimp only
  by_cases early : month < 10
  · have before := daysToMonth_late year month early
    have next := daysToYear_next year
    rw [if_pos early, if_pos early]
    omega
  · have before := daysToMonth_early (year + 1) month (by omega)
    rw [if_neg early, if_neg early]
    omega

theorem monthLength_march (year : Int) (month : Nat) (range : month < 10) :
    monthLength year (month + 3) + (153 * month + 2) / 5 = (153 * (month + 1) + 2) / 5 := by
  have table : ∀ leap, ∀ month < 10, (monthLengths leap).getD (month + 3 - 1) 0 + (153 * month + 2) / 5
      = (153 * (month + 1) + 2) / 5 := by decide
  exact table _ month range

theorem monthLength_last (year : Int) : monthLength year 1 = 31 ∧
    monthLength year 2 = if isLeap year then 29 else 28 := ⟨rfl, rfl⟩

theorem ofMarch_valid (year : Int) {day : Nat} (days : day ≤ 365)
    (last : day = 365 → isLeap (year + 1) = true) : (ofMarch year day).Valid := by
  have months : (5 * day + 2) / 153 < 12 := by omega
  have ended : day < (153 * ((5 * day + 2) / 153 + 1) + 2) / 5 := by omega
  have started : (153 * ((5 * day + 2) / 153) + 2) / 5 ≤ day := by omega
  unfold ofMarch
  generalize (5 * day + 2) / 153 = month at months ended started
  by_cases early : month < 10
  · have length := monthLength_march year month early
    simp only [if_pos early]
    exact ⟨by dsimp only; omega, by dsimp only; omega⟩
  · have lengths := monthLength_last (year + 1)
    simp only [if_neg early]
    refine ⟨by dsimp only; omega, ?_⟩
    obtain rfl | rfl : month = 10 ∨ month = 11 := by omega
    · dsimp only
      rw [lengths.1]
      omega
    · dsimp only
      rw [lengths.2]
      split
      · omega
      · rename_i common
        have short : day ≠ 365 := fun full => common (last full)
        omega

theorem ofDays_valid (days : Int) : (ofDays days).Valid ∧ (ofDays days).dayNumber = days := by
  have inside : ((days + 719468) % 146097).toNat < 146097 := by omega
  obtain ⟨year, day, years, short, last, whole, found⟩ := cycle_day inside
  have number : days = 146097 * ((days + 719468) / 146097) + (yearStart year + day : Nat) - 719468 := by
    omega
  rw [whole] at inside found
  generalize (days + 719468) / 146097 = cycle at number
  subst number
  rw [ofDays_march cycle short inside found]
  constructor
  · apply ofMarch_valid _ short
    intro full
    have leap := last full
    rw [isLeap_iff] at leap ⊢
    omega
  · rw [ofMarch_number _ short]
    unfold yearStart
    omega

end Dates

-- No two dates have one number: their years, months and days lie one behind the other.
section Order

variable {c d : Civil}

theorem daysToYear_mono {year later : Int} (before : year ≤ later) : daysToYear year ≤ daysToYear later := by
  rw [daysToYear_eq, daysToYear_eq]
  omega

theorem Valid.inMonth (valid : c.Valid) : daysToYear c.year + daysToMonth c.year c.month ≤ c.dayNumber ∧
    c.dayNumber < daysToYear c.year + daysToMonth c.year (c.month + 1) := by
  have next := daysToMonth_next c.year c.month valid.month
  have days := valid.day
  unfold dayNumber
  omega

theorem Valid.inYear (valid : c.Valid) :
    daysToYear c.year ≤ c.dayNumber ∧ c.dayNumber < daysToYear (c.year + 1) := by
  have month := valid.inMonth
  have months := daysToMonth_mono c.year (show c.month + 1 ≤ 13 from Nat.succ_le_succ valid.month.2)
  rw [daysToMonth_end] at months
  have next := daysToYear_next c.year
  omega

theorem Valid.year_le (first : c.Valid) (second : d.Valid) (same : c.dayNumber = d.dayNumber) :
    c.year ≤ d.year := by
  refine Int.not_lt.mp fun behind => ?_
  have later := daysToYear_mono (show d.year + 1 ≤ c.year by omega)
  have here := first.inYear
  have there := second.inYear
  omega

theorem Valid.month_le (first : c.Valid) (second : d.Valid) (same : c.dayNumber = d.dayNumber)
    (years : c.year = d.year) : c.month ≤ d.month := by
  refine Nat.not_lt.mp fun behind => ?_
  have later := daysToMonth_mono d.year (show d.month + 1 ≤ c.month by omega)
  have here := first.inMonth
  have there := second.inMonth
  rw [years] at here
  omega

theorem Valid.unique (first : c.Valid) (second : d.Valid) (same : c.dayNumber = d.dayNumber) : c = d := by
  have years := Int.le_antisymm (first.year_le second same) (second.year_le first same.symm)
  have months := Nat.le_antisymm (first.month_le second same years) (second.month_le first same.symm years.symm)
  have days : c.day = d.day := by
    have here := first.day
    have there := second.day
    unfold dayNumber at same
    rw [years, months] at same
    omega
  obtain ⟨year, month, day⟩ := c
  rw [Civil.mk.injEq]
  exact ⟨years, months, days⟩

theorem ofDays_dayNumber (valid : c.Valid) : ofDays c.dayNumber = c :=
  (ofDays_valid c.dayNumber).1.unique valid (ofDays_valid c.dayNumber).2

end Order

end HttpWire.Civil
