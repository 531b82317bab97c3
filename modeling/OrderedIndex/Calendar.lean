/-!
# Calendar dates of instants

An instant is a whole count of milliseconds from the start of 1970, in universal time. Its date is
found by walking off whole years and months of one 400-year cycle, after which the calendar repeats.
-/

namespace OrderedIndex

namespace Calendar

def isLeap (year : Int) : Bool := year % 4 == 0 && (year % 100 != 0 || year % 400 == 0)

def yearLength (year : Int) : Nat := if isLeap year then 366 else 365

def monthLengths (year : Int) : List Nat :=
  [31, if isLeap year then 29 else 28, 31, 30, 31, 30, 31, 31, 30, 31, 30, 31]

/-- The index of the period that holds a day, and the day within that period. -/
def walk : List Nat → Nat → Nat × Nat
  | [], day => (0, day)
  | length :: rest, day =>
    if day < length then (0, day)
    else
      let (index, within) := walk rest (day - length)
      (index + 1, within)

/-- The days of 400 years. -/
def cycle : Nat := 146097

/-- The days from the start of the year 0 to the start of 1970. -/
def epoch : Nat := 719528

structure Date where
  year : Int
  /-- Counted from 0. -/
  month : Nat
  /-- Counted from 1. -/
  day : Nat
  deriving DecidableEq, Repr

def dateOf (days : Int) : Date :=
  let fromZero := days + epoch
  let (year, dayOfYear) :=
    walk ((List.range 400).map fun y : Nat => yearLength y) (fromZero % cycle).toNat
  let (month, day) := walk (monthLengths year) dayOfYear
  { year := year + 400 * (fromZero / cycle), month, day := day + 1 }

/-- The day of the week, counted from Sunday. -/
def weekday (days : Int) : Nat := ((days + 4) % 7).toNat

def weekdayNames : List String := ["Sun", "Mon", "Tue", "Wed", "Thu", "Fri", "Sat"]

def monthNames : List String :=
  ["Jan", "Feb", "Mar", "Apr", "May", "Jun", "Jul", "Aug", "Sep", "Oct", "Nov", "Dec"]

def padded (width n : Nat) : String :=
  String.ofList (List.replicate (width - n.repr.length) '0') ++ n.repr

/-- A year has at least four digits, and a sign before them if it is negative. -/
def yearText (year : Int) : String := (if year < 0 then "-" else "") ++ padded 4 year.natAbs

def millisecondsPerDay : Nat := 86400000

def text (instant : Int) : String :=
  let days := instant / millisecondsPerDay
  let seconds := (instant % millisecondsPerDay).toNat / 1000
  let date := dateOf days
  let clock := ":".intercalate
    [padded 2 (seconds / 3600), padded 2 (seconds / 60 % 60), padded 2 (seconds % 60)]
  " ".intercalate
    [weekdayNames.getD (weekday days) "", monthNames.getD date.month "", padded 2 date.day,
      yearText date.year, clock, "GMT+0000 (Coordinated Universal Time)"]

end Calendar

end OrderedIndex
