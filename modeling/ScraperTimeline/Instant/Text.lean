import ScraperTimeline.Instant.Basic
import ScraperTimeline.Text.Blank
import ScraperTimeline.Text.Digits

/-!
Instants as text: dates and times with an offset from universal time. Reading allows blanks between
the parts of a date and of a time.
-/
namespace ScraperTimeline.Instant
open Text

/-! ### Writing -/

-- Years of four digits have no sign.
def yearText (year : Int) : List Char :=
  if 0 ≤ year ∧ year ≤ 9999 then padded 4 year.toNat
  else (if year < 0 then '-' else '+') :: padded 4 year.natAbs

/-- The fraction of a second, with as few of 0, 3, 6 or 9 digits as it needs. -/
def fractionText (nano : Nat) : List Char :=
  if nano = 0 then []
  else if nano % 1000000 = 0 then '.' :: padded 3 (nano / 1000000)
  else if nano % 1000 = 0 then '.' :: padded 6 (nano / 1000)
  else '.' :: padded 9 nano

def dateText (a : Instant) : List Char :=
  let (year, month, day) := dateOf (a.second / 86400)
  yearText year ++ '-' :: padded 2 month.toNat ++ '-' :: padded 2 day.toNat

def timeText (a : Instant) : List Char :=
  let ofDay := (a.second % 86400).toNat
  let second := ofDay % 60 + a.nano / nanosPerSecond
  padded 2 (ofDay / 3600) ++ ':' :: padded 2 (ofDay / 60 % 60) ++ ':' :: padded 2 second ++
    fractionText (a.nano % nanosPerSecond)

/-- The form of stored documents. -/
def storedText (a : Instant) : String := String.ofList (dateText a ++ 'T' :: timeText a ++ ['Z'])

/-- The form of reports. -/
def reportText (a : Instant) : String :=
  String.ofList (dateText a ++ 'T' :: timeText a ++ "+00:00".toList)

/-- The form inside messages. -/
def messageText (a : Instant) : String :=
  String.ofList (dateText a ++ ' ' :: timeText a ++ " UTC".toList)

/-! ### Reading -/

def skipBlanks (cs : List Char) : List Char := cs.dropWhile isBlank

-- A number of at least one digit and at most so many.
def number? (most : Nat) (cs : List Char) : Option (Int × List Char) :=
  let shown := (cs.take most).takeWhile isDigit
  (natural? 10 shown).map fun n => ((n : Int), cs.drop shown.length)

-- A sign allows any number of digits.
def year? (cs : List Char) : Option (Int × List Char) :=
  match cs with
  | '-' :: rest => (number? rest.length rest).map fun (n, rest) => (-n, rest)
  | '+' :: rest => number? rest.length rest
  | cs => number? 4 cs

-- A character that may have blanks before it, and a number that may have some.
def part? (before : Char) (cs : List Char) : Option (Int × List Char) :=
  match skipBlanks cs with
  | c :: rest => if c = before then number? 2 (skipBlanks rest) else none
  | [] => none

/-- A fraction of a second. Digits after the ninth do not count. -/
def fraction? : List Char → Option (Nat × List Char)
  | '.' :: rest =>
    let shown := rest.takeWhile isDigit
    let counted := shown.take 9
    (natural? 10 counted).map fun n => (n * Nat.pow 10 (9 - counted.length), rest.dropWhile isDigit)
  | rest => some (0, rest)

/-- An offset in minutes: none, or hours and minutes with a sign. -/
def offset? (cs : List Char) : Option (Int × List Char) :=
  match cs with
  | [] => none
  | sign :: rest =>
    if sign = 'Z' ∨ sign = 'z' then some (0, rest)
    else if sign ≠ '+' ∧ sign ≠ '-' ∧ sign ≠ '\u2212' then none
    else match rest with
      | h :: h' :: rest =>
        match rest.dropWhile fun c => c = ':' || isBlank c with
        | m :: m' :: rest => do
          let hours ← natural? 10 [h, h']
          let minutes ← natural? 10 [m, m']
          if minutes < 60 then
            let offset : Int := hours * 60 + minutes
            return (if sign = '+' then offset else -offset, rest)
          else none
        | _ => none
      | _ => none

-- The letters of universal time, or an offset of less than a day.
def zone? (cs : List Char) : Option (Int × List Char) :=
  if (cs.take 3).map Char.toUpper = "UTC".toList then some (0, cs.drop 3)
  else (offset? cs).filter fun (minutes, _) => minutes.natAbs < 24 * 60

/-- Reads an instant. -/
def read? (text : String) : Option Instant := do
  let (year, rest) ← year? (skipBlanks text.toList)
  let (month, rest) ← part? '-' rest
  let (day, rest) ← part? '-' rest
  let rest ← match rest with
    | c :: rest => if c = 't' ∨ c = 'T' ∨ c = ' ' then some rest else none
    | [] => none
  let (hour, rest) ← number? 2 (skipBlanks rest)
  let (minute, rest) ← part? ':' rest
  let (second, rest) ← part? ':' rest
  let (nano, rest) ← fraction? rest
  let (minutes, rest) ← zone? (skipBlanks rest)
  let a ← ofDateTime? year month day hour minute second nano
  if skipBlanks rest = [] ∧ -262143 ≤ year ∧ year ≤ 262142 then
    return { a with second := a.second - minutes * 60 }
  else none

end ScraperTimeline.Instant
