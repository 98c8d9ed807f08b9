import Mineru.Text

/-!
# Timestamps

`timestamp` of `server/jobs.rs` prints the clock in UTC with the `Rfc3339` format of the `time`
crate: fixed widths down to the second, then the fraction without its trailing zeros, or nothing at
all for a whole second.
-/

set_option autoImplicit false

namespace Mineru.Official

/-- A leap year of the Gregorian calendar. -/
def isLeap (year : Nat) : Prop := year % 4 = 0 ∧ (year % 100 ≠ 0 ∨ year % 400 = 0)

instance (year : Nat) : Decidable (isLeap year) := inferInstanceAs (Decidable (_ ∧ _))

def daysInMonth (year month : Nat) : Nat :=
  if month = 2 then if isLeap year then 29 else 28
  else if month ∈ [4, 6, 9, 11] then 30
  else 31

/-- An instant in UTC that the format can print. -/
structure Instant where
  year : Nat
  month : Nat
  day : Nat
  hour : Nat
  minute : Nat
  second : Nat
  nanosecond : Nat
  year_le : year ≤ 9999
  month_le : 1 ≤ month ∧ month ≤ 12
  day_le : 1 ≤ day ∧ day ≤ daysInMonth year month
  hour_lt : hour < 24
  minute_lt : minute < 60
  second_lt : second < 60
  nanosecond_lt : nanosecond < 10 ^ 9

/-- The days of the years before a year. -/
def daysBeforeYear : Nat → Nat
  | 0 => 0
  | year + 1 => daysBeforeYear year + if isLeap year then 366 else 365

/-- The days of the first months of a year. -/
def daysOfMonths (year : Nat) : Nat → Nat
  | 0 => 0
  | months + 1 => daysOfMonths year months + daysInMonth year (months + 1)

namespace Instant

/-- The days since the beginning of the year 0. -/
def days (t : Instant) : Nat :=
  daysBeforeYear t.year + (daysOfMonths t.year (t.month - 1) + (t.day - 1))

/-- The whole seconds since the beginning of the year 0. -/
def seconds (t : Instant) : Nat :=
  ((t.days * 24 + t.hour) * 60 + t.minute) * 60 + t.second

/-- The nanoseconds since the beginning of the year 0. -/
def nanos (t : Instant) : Nat := t.seconds * 10 ^ 9 + t.nanosecond

end Instant

/-- A number in a fixed number of decimal digits. -/
def padded : Nat → Nat → Text
  | 0, _ => []
  | width + 1, n => padded width (n / 10) ++ [Nat.digitChar (n % 10)]

/-- `trim_end_matches('0')`. -/
def trimZeros (t : Text) : Text := (t.reverse.dropWhile (· = '0')).reverse

namespace Instant

/-- The digits of the fraction. -/
def fraction (t : Instant) : Text := trimZeros (padded 9 t.nanosecond)

/-- The fraction and the offset of the `Rfc3339` format. -/
def printedEnd (t : Instant) : Text :=
  (if t.nanosecond = 0 then [] else '.' :: t.fraction) ++ ['Z']

/-- `timestamp`, at the instant that the clock shows. -/
def timestamp (t : Instant) : Text :=
  padded 4 t.year ++ '-' :: (padded 2 t.month ++ '-' :: (padded 2 t.day ++ 'T' ::
    (padded 2 t.hour ++ ':' :: (padded 2 t.minute ++ ':' :: (padded 2 t.second ++ t.printedEnd)))))

end Instant

end Mineru.Official
