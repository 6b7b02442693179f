import ScraperTimeline.Decimal.Binary64
import ScraperTimeline.Text.Digits

/-!
Decimal literals, and the two ways in which one is read as a double: rounded once to the nearest, or
scaled from its leading digits, which rounds up to three times.
-/
namespace ScraperTimeline

/-- A decimal literal as written: sign, digits before and after the point, and the power of ten. -/
structure DecimalLiteral where
  negative : Bool
  whole : List Char
  fraction : List Char
  power : Int
deriving DecidableEq, Repr

namespace DecimalLiteral
open Text Binary64

def coefficient (l : DecimalLiteral) : Nat :=
  (digitsFrom? 10 0 (l.whole ++ l.fraction)).getD 0

/-- The double nearest to `coefficient * 10 ^ power`. Powers far outside the range of a double are
settled by the number of digits alone. -/
def nearestOf (negative : Bool) (coefficient : Nat) (power : Int) : Binary64 :=
  let order := ((digits coefficient).length : Int) + power
  if coefficient = 0 ∨ order < -330 then ofMagnitude negative 0
  else if 330 < order then infinity negative
  else nearest negative (coefficient * Nat.pow 10 power.toNat) (Nat.pow 10 (-power).toNat)

/-- The double nearest to the literal, an infinity if it is too large. -/
def toNearest (l : DecimalLiteral) : Binary64 :=
  nearestOf l.negative l.coefficient (l.power - l.fraction.length)

/-- Reads digits while the number stays a word of 64 bits; what is left follows it. -/
def leadingWord (read : Nat) : List Char → Nat × List Char
  | [] => (read, [])
  | c :: rest =>
    let next := read * 10 + (digit? 10 c).getD 0
    if next < 0x10000000000000000 then leadingWord next rest else (read, c :: rest)

-- A power of ten as a double; the greatest finite one is 308.
def powerOfTen (n : Nat) : Binary64 := nearestOf false 1 n

/-- Scales by a power of ten through doubles: division steps of `10 ^ 308` first where the power is
below that, then one rounded multiplication or division. `none` if the result is too large. -/
def scale? (steps : Nat) (x : Binary64) (power : Int) : Option Binary64 :=
  if power.natAbs ≤ 308 then
    if 0 ≤ power then
      let y := mulMagnitude x (powerOfTen power.natAbs)
      if y.isFinite then some y else none
    else some (divMagnitude x (powerOfTen power.natAbs))
  else if x.isZero then some x
  else if 0 ≤ power then none
  else match steps with
    | 0 => some zero
    | steps + 1 => scale? steps (divMagnitude x (powerOfTen 308)) (power + 308)

/-- The double that scaling gives: the digits that fit in a word, rounded, times a rounded power of
ten. Three divisions by `10 ^ 308` leave zero of any word. `none` if the result is too large. -/
def toScaled? (l : DecimalLiteral) : Option Binary64 :=
  let (word, wholeRest) := leadingWord 0 l.whole
  let (word, fractionRest) := leadingWord word l.fraction
  let power := wholeRest.length - ((l.fraction.length : Int) - fractionRest.length) + l.power
  (scale? 3 (ofNat word) power).map fun x => if l.negative then x.neg else x

end DecimalLiteral
end ScraperTimeline
