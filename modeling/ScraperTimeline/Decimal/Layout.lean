import ScraperTimeline.Decimal.Shortest

/-!
How the shortest digits of a double are set out as text. Each format that the library writes is one
`Layout`.
-/
namespace ScraperTimeline.Decimal
open Text

/-- The choices of a number format. -/
structure Layout where
  /-- The first-digit powers of ten that are written without an exponent; `none` for all. -/
  positional : Option (Int × Int)
  /-- Whether a whole number ends in `.0`. -/
  wholeFraction : Bool
  /-- Whether a positive exponent has a sign. -/
  exponentPlus : Bool
  infinity : String
  negativeInfinity : String
  nan : String

/-- In JSON text an exponent always has a sign, and what is no number is null. -/
def Layout.json : Layout := ⟨some (-5, 15), true, true, "null", "null", "null"⟩

def Layout.yaml : Layout := ⟨some (-5, 15), true, false, ".inf", "-.inf", ".nan"⟩

/-- The plain form never has an exponent, nor a fraction where none is needed. -/
def Layout.plain : Layout := ⟨none, false, false, "inf", "-inf", "NaN"⟩

-- Digits around a decimal point.
def positionalText (l : Layout) (d : Decimal) : List Char :=
  let shown := digits d.coefficient
  if 0 ≤ d.power then
    shown ++ List.replicate d.power.toNat '0' ++ (if l.wholeFraction then ['.', '0'] else [])
  else
    let places := (-d.power).toNat
    let filled := List.replicate (places + 1 - shown.length) '0' ++ shown
    filled.take (filled.length - places) ++ '.' :: filled.drop (filled.length - places)

def exponentText (l : Layout) (d : Decimal) : List Char :=
  let shown := digits d.coefficient
  let fraction := shown.drop 1
  let order := d.order
  shown.take 1 ++ (if fraction = [] then [] else '.' :: fraction) ++
    'e' :: ((if l.exponentPlus ∧ 0 ≤ order then ['+'] else []) ++ decimal order)

def Layout.isPositional (l : Layout) (order : Int) : Bool :=
  match l.positional with
  | none => true
  | some (first, last) => first ≤ order && order ≤ last

/-- The text of a double in a format. -/
def Layout.write (l : Layout) (x : Binary64) : List Char :=
  if x.isNaN then l.nan.toList
  else if x.isInfinite then (if x.isNegative then l.negativeInfinity else l.infinity).toList
  else
    let d := shortest x
    (if x.isNegative then ['-'] else []) ++
      (if l.isPositional d.order then positionalText l d else exponentText l d)

end ScraperTimeline.Decimal
