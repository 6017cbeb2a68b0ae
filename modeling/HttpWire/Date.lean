import HttpWire.Text.Basic

namespace HttpWire

structure Civil where
  year : Int
  month : Nat
  day : Nat
  deriving DecidableEq

namespace Civil

-- Years are counted from March, so that a leap day is the last of its year.
def ofDays (days : Int) : Civil :=
  let shifted := days + 719468
  let cycle := shifted / 146097
  let inCycle := (shifted % 146097).toNat
  let yearInCycle := (inCycle - inCycle / 1460 + inCycle / 36524 - inCycle / 146096) / 365
  let inYear := inCycle - (365 * yearInCycle + yearInCycle / 4 - yearInCycle / 100)
  let fromMarch := (5 * inYear + 2) / 153
  let day := inYear - (153 * fromMarch + 2) / 5 + 1
  let month := if fromMarch < 10 then fromMarch + 3 else fromMarch - 9
  let year := yearInCycle + cycle * 400 + (if month ≤ 2 then 1 else 0)
  ⟨year, month, day⟩

end Civil

namespace Date

def lastSecond : Nat := 253402300799

def weekdays : List String := ["Sun", "Mon", "Tue", "Wed", "Thu", "Fri", "Sat"]

def months : List String :=
  ["Jan", "Feb", "Mar", "Apr", "May", "Jun", "Jul", "Aug", "Sep", "Oct", "Nov", "Dec"]

def twoDigits (n : Nat) : Text :=
  [Nat.digitChar (n / 10 % 10), Nat.digitChar (n % 10)]

def clamp (seconds : Int) : Nat := min seconds.toNat lastSecond

def wholeSeconds (seconds : Int) (nanos : Nat) : Int :=
  seconds + (nanos / 1000000000 : Nat)

def weekday (days : Nat) : String := weekdays.getD ((days + 4) % 7) ""

def render (seconds : Int) : Text :=
  let now := clamp seconds
  let days := now / 86400
  let clock := now % 86400
  let date := Civil.ofDays days
  let year := date.year.toNat
  (weekday days).toList ++ [',', ' '] ++ twoDigits date.day ++ [' ']
    ++ (months.getD (date.month - 1) "").toList ++ [' ']
    ++ twoDigits (year / 100) ++ twoDigits (year % 100) ++ [' ']
    ++ twoDigits (clock / 3600) ++ [':'] ++ twoDigits (clock % 3600 / 60) ++ [':']
    ++ twoDigits (clock % 60) ++ " GMT".toList

end Date
end HttpWire
