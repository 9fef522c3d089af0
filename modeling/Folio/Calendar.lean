import Folio.Text.Basic

/-!
# Calendar

Times are whole seconds and a fraction since 1970 in the proleptic Gregorian calendar. Days are counted
in eras of 400 years that begin on the first of March, so that a leap day is the last day of its year.
-/
namespace Folio

/-- A time, in seconds since the beginning of 1970 and nanoseconds after that second. -/
structure Instant where
  seconds : Int
  nanos : Nat
  deriving DecidableEq

namespace Calendar

structure Date where
  year : Int
  month : Nat
  day : Nat
  deriving DecidableEq

def daysPerEra : Nat := 146097

/-- Days from the first of March of the year 0 to the beginning of 1970. -/
def epochDay : Int := 719468

/-- The year of an era that a day of the era falls into, where years begin in March. -/
def yearOfEra (day : Nat) : Nat := (day - day / 1460 + day / 36524 - day / 146096) / 365

/-- The date of a day, counted from the beginning of 1970. -/
def dateOf (day : Int) : Date :=
  let shifted := day + epochDay
  let era := shifted.fdiv daysPerEra
  let dayOfEra := (shifted.fmod daysPerEra).toNat
  let year := yearOfEra dayOfEra
  let dayOfYear := dayOfEra - (365 * year + year / 4 - year / 100)
  let monthFromMarch := (5 * dayOfYear + 2) / 153
  { year := 400 * era + year + (if monthFromMarch < 10 then 0 else 1)
    month := if monthFromMarch < 10 then monthFromMarch + 3 else monthFromMarch - 9
    day := dayOfYear - (153 * monthFromMarch + 2) / 5 + 1 }

/-- Whole seconds; a fraction counts toward the past. -/
def wholeSeconds (t : Instant) : Int := t.seconds + t.nanos / 1000000000

def secondsPerDay : Nat := 86400

/-- The first and the last year that have a date. -/
def firstYear : Int := -262143

def lastYear : Int := 262142

/-- Digits of a number with zeros in front, `width` characters at least. -/
def padded (width n : Nat) : Text :=
  let digits := Text.ofNat n
  List.replicate (width - digits.length) '0' ++ digits

/-- A year has four digits; outside of 0 to 9999 a sign stands in front. -/
def yearText (year : Int) : Text :=
  if year < 0 then '-' :: padded 4 year.natAbs
  else if 9999 < year then '+' :: padded 4 year.natAbs
  else padded 4 year.natAbs

/-- Date and time of day, in universal time. -/
def timestamp (t : Instant) : Text :=
  let seconds := wholeSeconds t
  let date := dateOf (seconds.fdiv secondsPerDay)
  let second := (seconds.fmod secondsPerDay).toNat
  yearText date.year ++ '-' :: padded 2 date.month ++ '-' :: padded 2 date.day ++
    ' ' :: padded 2 (second / 3600) ++ ':' :: padded 2 (second / 60 % 60) ++
    ':' :: padded 2 (second % 60)

def isDated (t : Instant) : Bool :=
  let year := (dateOf ((wholeSeconds t).fdiv secondsPerDay)).year
  firstYear ≤ year && year ≤ lastYear

def timestamp? (t : Instant) : Option Text := if isDated t then some (timestamp t) else none

end Calendar
end Folio
