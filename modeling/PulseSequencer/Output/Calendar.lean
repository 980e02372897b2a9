import PulseSequencer.Text.Numeral

/-! # Dates

The Gregorian date of a day counted from the first of January 1970, and how a moment is written. The year
is taken to begin in March, so that the day of a leap year comes last; 400 such years have 146097 days. -/

namespace PulseSequencer

structure Date where
  year : Nat
  month : Nat
  day : Nat
deriving DecidableEq, Repr

def daysPerEra : Nat := 146097

namespace Date

/-- The date of the day `days` after the first of January 1970. -/
def ofDays (days : Nat) : Date :=
  let z := days + 719468
  let era := z / daysPerEra
  let dayOfEra := z % daysPerEra
  let yearOfEra := (dayOfEra - dayOfEra / 1460 + dayOfEra / 36524 - dayOfEra / 146096) / 365
  let dayOfYear := dayOfEra - (365 * yearOfEra + yearOfEra / 4 - yearOfEra / 100)
  let m := (5 * dayOfYear + 2) / 153
  let day := dayOfYear - (153 * m + 2) / 5 + 1
  let month := if m < 10 then m + 3 else m - 9
  { year := yearOfEra + era * 400 + (if month ≤ 2 then 1 else 0), month, day }

def text (d : Date) : String :=
  zeroPadded 10 4 d.year ++ "-" ++ zeroPadded 10 2 d.month ++ "-" ++ zeroPadded 10 2 d.day

end Date

def timestamp (seconds : Nat) : String :=
  let time := seconds % 86400
  (Date.ofDays (seconds / 86400)).text ++ " " ++ zeroPadded 10 2 (time / 3600) ++ ":" ++
    zeroPadded 10 2 (time % 3600 / 60) ++ ":" ++ zeroPadded 10 2 (time % 60)

example : timestamp 951868800 = "2000-03-01 00:00:00" := by decide +kernel

end PulseSequencer
