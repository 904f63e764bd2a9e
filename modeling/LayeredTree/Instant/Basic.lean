set_option autoImplicit false

namespace LayeredTree

/-- A point in universal time. Days are counted from 1970-01-01. -/
structure Instant where
  day : Int
  second : Nat
  nanosecond : Nat
deriving Repr, DecidableEq, Inhabited

structure Date where
  year : Int
  month : Nat
  day : Nat
deriving Repr, DecidableEq

namespace Date

def firstYear : Int := -262143
def lastYear : Int := 262142

def isLeap (year : Int) : Bool :=
  (year % 4 == 0) && (year % 100 != 0 || year % 400 == 0)

def monthLength (year : Int) (month : Nat) : Nat :=
  if month = 2 then (if isLeap year then 29 else 28)
  else if month = 4 ∨ month = 6 ∨ month = 9 ∨ month = 11 then 30
  else 31

def IsValid (d : Date) : Prop :=
  firstYear ≤ d.year ∧ d.year ≤ lastYear ∧ 1 ≤ d.month ∧ d.month ≤ 12 ∧
    1 ≤ d.day ∧ d.day ≤ monthLength d.year d.month

instance (d : Date) : Decidable d.IsValid := by unfold IsValid; infer_instance

/-- The day number of a date. Years begin in March here, so that the leap day comes last, and
repeat after 146097 days. -/
def dayNumber (d : Date) : Int :=
  let year := if d.month ≤ 2 then d.year - 1 else d.year
  let era := year / 400
  let yearOfEra := year % 400
  let monthFromMarch : Int := if d.month ≤ 2 then d.month + 9 else d.month - 3
  let dayOfYear := (153 * monthFromMarch + 2) / 5 + d.day - 1
  let dayOfEra := yearOfEra * 365 + yearOfEra / 4 - yearOfEra / 100 + dayOfYear
  era * 146097 + dayOfEra - 719468

def ofDayNumber (n : Int) : Date :=
  let shifted := n + 719468
  let era := shifted / 146097
  let dayOfEra := shifted % 146097
  let yearOfEra := (dayOfEra - dayOfEra / 1460 + dayOfEra / 36524 - dayOfEra / 146096) / 365
  let dayOfYear := dayOfEra - (365 * yearOfEra + yearOfEra / 4 - yearOfEra / 100)
  let monthFromMarch := (5 * dayOfYear + 2) / 153
  let day := dayOfYear - (153 * monthFromMarch + 2) / 5 + 1
  let month := if monthFromMarch < 10 then monthFromMarch + 3 else monthFromMarch - 9
  let year := yearOfEra + era * 400 + (if month ≤ 2 then 1 else 0)
  ⟨year, month.toNat, day.toNat⟩

example : dayNumber ⟨2000, 2, 29⟩ = 11016 ∧ ofDayNumber 11016 = ⟨2000, 2, 29⟩ := by decide
example : ofDayNumber (-1) = ⟨1969, 12, 31⟩ := by decide

end Date

namespace Instant

def ofLocal (day : Int) (second nanosecond : Nat) (ahead : Int) : Instant :=
  let total := (second : Int) - ahead
  ⟨day + total / 86400, (total % 86400).toNat, nanosecond⟩

def inRange (t : Instant) : Bool :=
  decide (Date.dayNumber ⟨Date.firstYear, 1, 1⟩ ≤ t.day ∧
    t.day ≤ Date.dayNumber ⟨Date.lastYear, 12, 31⟩)

end Instant
end LayeredTree
