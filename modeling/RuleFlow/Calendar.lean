import RuleFlow.Number.Decimal

/-!
# Times of day in UTC

An instant is a number of seconds since the start of 1970 in UTC. `Instant.stamp` writes it in the Gregorian calendar.
-/

namespace RuleFlow

/-- Seconds since 1970-01-01 00:00:00 UTC. -/
abbrev Instant := Int

/-- A day of the Gregorian calendar. -/
structure Date where
  year : Int
  month : Int
  day : Int
  deriving DecidableEq

/-- The date that lies `days` after 1970-01-01. Years are counted from the first of March, so that a leap day is the
last day of its year, and 400 of them make an era of 146097 days. -/
def Date.ofDays (days : Int) : Date :=
  let shifted := days + 719468
  let era := shifted / 146097
  let dayOfEra := shifted % 146097
  let yearOfEra := (dayOfEra - dayOfEra / 1460 + dayOfEra / 36524 - dayOfEra / 146096) / 365
  let dayOfYear := dayOfEra - (365 * yearOfEra + yearOfEra / 4 - yearOfEra / 100)
  let fromMarch := (5 * dayOfYear + 2) / 153
  let month := if fromMarch < 10 then fromMarch + 3 else fromMarch - 9
  { year := yearOfEra + 400 * era + (if month ≤ 2 then 1 else 0)
    month
    day := dayOfYear - (153 * fromMarch + 2) / 5 + 1 }

/-- A numeral of at least two digits. -/
def twoDigits (n : Int) : Text := Decimal.padLeft 2 (Text.ofInt n)

/-- The date and time of day as `YYYY-MM-DDThh:mm:ss`. -/
def Instant.clock (t : Instant) : Text :=
  let date := Date.ofDays (t / 86400)
  let second := t % 86400
  Text.ofInt date.year ++ "-" ++ twoDigits date.month ++ "-" ++ twoDigits date.day ++ "T" ++
    twoDigits (second / 3600) ++ ":" ++ twoDigits (second / 60 % 60) ++ ":" ++ twoDigits (second % 60)

/-- The stamp of a report. -/
def Instant.stamp (t : Instant) : Text := t.clock ++ "Z"

/-- The stamp of a log line, with the offset of UTC. -/
def Instant.offsetStamp (t : Instant) : Text := t.clock ++ "+0000"

end RuleFlow
