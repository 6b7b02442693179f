/-!
Instants in universal time, to the nanosecond. A leap second is kept as the second before it with a
billion nanoseconds or more, so it comes after that second and before the next one.
-/
namespace ScraperTimeline

structure Instant where
  /-- Seconds since the start of 1970, leap seconds not counted. -/
  second : Int
  nano : Nat
deriving DecidableEq, Repr, Inhabited

namespace Instant

def nanosPerSecond : Nat := 1000000000

/-- The instant some nanoseconds after the start of 1970. -/
def ofNanoseconds (n : Int) : Instant := ⟨n / nanosPerSecond, (n % nanosPerSecond).toNat⟩

/-- Earlier, or the same. -/
protected def le (a b : Instant) : Prop := a.second < b.second ∨ (a.second = b.second ∧ a.nano ≤ b.nano)

protected def lt (a b : Instant) : Prop := a.second < b.second ∨ (a.second = b.second ∧ a.nano < b.nano)

instance : LE Instant := ⟨Instant.le⟩
instance : LT Instant := ⟨Instant.lt⟩

theorem le_def (a b : Instant) :
    a ≤ b ↔ a.second < b.second ∨ (a.second = b.second ∧ a.nano ≤ b.nano) := Iff.rfl

theorem lt_def (a b : Instant) :
    a < b ↔ a.second < b.second ∨ (a.second = b.second ∧ a.nano < b.nano) := Iff.rfl

instance (a b : Instant) : Decidable (a ≤ b) := decidable_of_iff _ (le_def a b).symm
instance (a b : Instant) : Decidable (a < b) := decidable_of_iff _ (lt_def a b).symm

/-- Without the part of a second. A leap second stays one. -/
def wholeSecond (a : Instant) : Instant := ⟨a.second, a.nano - a.nano % nanosPerSecond⟩

/-- Whether it is the start of an ordinary second. -/
def isWhole (a : Instant) : Bool := a.nano = 0

/-- One second earlier. -/
def secondBefore (a : Instant) : Instant := ⟨a.second - 1, a.nano⟩

/-! ### The calendar -/

/-- Days from the start of 1970 to a day of the Gregorian calendar, of which months and days are in
range. Years are counted from March, so that leap days come last; 400 years are 146097 days. -/
def daysTo (year month day : Int) : Int :=
  let y := if month ≤ 2 then year - 1 else year
  let m := (month + 9) % 12
  let era := y / 400
  let ofEra := y % 400
  era * 146097 + ofEra * 365 + ofEra / 4 - ofEra / 100 + (153 * m + 2) / 5 + day - 1 - 719468

/-- The day, as year, month and day of the month, some days after the start of 1970. -/
def dateOf (days : Int) : Int × Int × Int :=
  let days := days + 719468
  let era := days / 146097
  let ofEra := days % 146097
  let year := (ofEra - ofEra / 1460 + ofEra / 36524 - ofEra / 146096) / 365
  let ofYear := ofEra - (365 * year + year / 4 - year / 100)
  let m := (5 * ofYear + 2) / 153
  let month := if m < 10 then m + 3 else m - 9
  (era * 400 + year + (if month ≤ 2 then 1 else 0), month, ofYear - (153 * m + 2) / 5 + 1)

def isLeapYear (year : Int) : Bool := year % 4 = 0 && (year % 100 ≠ 0 || year % 400 = 0)

def daysInMonth (year month : Int) : Int :=
  if month = 2 then (if isLeapYear year then 29 else 28)
  else if month = 4 ∨ month = 6 ∨ month = 9 ∨ month = 11 then 30
  else 31

/-- The instant of a date and a time of day, if there is such a one. Second 60 is a leap second. -/
def ofDateTime? (year month day hour minute second : Int) (nano : Nat) : Option Instant :=
  if 1 ≤ month ∧ month ≤ 12 ∧ 1 ≤ day ∧ day ≤ daysInMonth year month ∧ 0 ≤ hour ∧ hour < 24 ∧
      0 ≤ minute ∧ minute < 60 ∧ 0 ≤ second ∧ second ≤ 60 ∧ nano < nanosPerSecond then
    let minutes := (daysTo year month day * 24 + hour) * 60 + minute
    some <| if second = 60 then ⟨minutes * 60 + 59, nanosPerSecond + nano⟩
      else ⟨minutes * 60 + second, nano⟩
  else none

end Instant
end ScraperTimeline
