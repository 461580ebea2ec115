import WordMachine.Text.Numeral

/-!
# Dates and times

Moments are counted in milliseconds since the beginning of 1970.  Years are
taken to start in March, so that a leap day is the last day of its year, and
are grouped into eras of 400 years, all of the same length.

## Main definitions

* `Calendar.Date`, `Calendar.ofDays` — the date of a day
* `Calendar.stamp` — a moment as a line of a log shows it
-/

namespace WordMachine.Calendar

/-- A day of the Gregorian calendar. -/
structure Date where
  year : Nat
  month : Nat
  day : Nat
  deriving DecidableEq, Repr

/-- The number of days from the first of March of year 0 to the beginning of
1970. -/
def epoch : Nat := 719468

/-- The number of days of an era. -/
def eraDays : Nat := 146097

/-- The year of an era in which one of its days lies.  The leap days before
that day are left out, and the rest are years of 365 days. -/
def yearOfEra (dayOfEra : Nat) : Nat :=
  (dayOfEra - dayOfEra / 1460 + dayOfEra / 36524 - dayOfEra / 146096) / 365

/-- The date of a day, counted from the beginning of 1970. -/
def ofDays (days : Nat) : Date :=
  let count := days + epoch
  let dayOfEra := count % eraDays
  let year := yearOfEra dayOfEra
  let dayOfYear := dayOfEra - (365 * year + year / 4 - year / 100)
  let fromMarch := (5 * dayOfYear + 2) / 153
  let month := if fromMarch < 10 then fromMarch + 3 else fromMarch - 9
  { year := year + 400 * (count / eraDays) + (if month ≤ 2 then 1 else 0)
    month := month
    day := dayOfYear - (153 * fromMarch + 2) / 5 + 1 }

/-- A number in at least `width` places, with zeros before it. -/
def padded (width n : Nat) : String :=
  String.ofList ((Nat.toDigits 10 n).leftpad width '0')

/-- Date and time of a moment. -/
def stamp (milliseconds : Nat) : String :=
  let seconds := milliseconds / 1000
  let date := ofDays (seconds / 86400)
  padded 4 date.year ++ "-" ++ padded 2 date.month ++ "-" ++ padded 2 date.day ++ " "
    ++ padded 2 (seconds / 3600 % 24) ++ ":" ++ padded 2 (seconds / 60 % 60) ++ ":"
    ++ padded 2 (seconds % 60) ++ "." ++ padded 3 (milliseconds % 1000)

end WordMachine.Calendar
