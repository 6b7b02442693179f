import ScraperTimeline.Decimal.Literal

/-!
The fewest decimal digits that read back as a given double, and among those the nearest to it.
-/
namespace ScraperTimeline

/-- A positive decimal: a whole coefficient times a power of ten. -/
structure Decimal where
  coefficient : Nat
  power : Int
deriving DecidableEq, Repr

namespace Decimal
open Text Binary64

/-- The power of ten of the first digit. -/
def order (d : Decimal) : Int := d.power + (digits d.coefficient).length - 1

def readsBackAs (x : Binary64) (d : Decimal) : Bool :=
  DecimalLiteral.nearestOf x.isNegative d.coefficient d.power == x

-- Numerator and denominator of `|x| / 10 ^ power`.
def onGrid (x : Binary64) (power : Int) : Nat × Nat :=
  let (numerator, denominator) := x.toQuotient
  (numerator.natAbs * Nat.pow 10 (-power).toNat, denominator * Nat.pow 10 power.toNat)

/-- The point of the grid of multiples of `10 ^ power` that reads back as `x`: of the neighbours of
`x` on the grid the nearer, and the even one of two equally near. -/
def gridPoint? (x : Binary64) (power : Int) : Option Decimal :=
  let (numerator, denominator) := onGrid x power
  let below : Decimal := ⟨numerator / denominator, power⟩
  let above : Decimal := ⟨numerator / denominator + 1, power⟩
  let nearer : Decimal := ⟨roundedQuotient numerator denominator, power⟩
  if readsBackAs x nearer then some nearer
  else if readsBackAs x below then some below
  else if readsBackAs x above then some above
  else none

-- The power of ten of the first digit of a positive finite double.
def orderOf (x : Binary64) : Int :=
  let (numerator, denominator) := x.toQuotient
  let numerator := numerator.natAbs
  let guess : Int := (digits numerator).length - (digits denominator).length
  if numerator * Nat.pow 10 (-guess).toNat < denominator * Nat.pow 10 guess.toNat then guess - 1 else guess

/-- Drops the zeros at the end of the coefficient; the first argument bounds their number. -/
def withoutTrailingZeros : Nat → Decimal → Decimal
  | 0, d => d
  | n + 1, d =>
    if d.coefficient ≠ 0 ∧ d.coefficient % 10 = 0 then
      withoutTrailingZeros n ⟨d.coefficient / 10, d.power + 1⟩
    else d

/-- The shortest decimal that reads back as the finite double; 17 digits always do. -/
def shortest (x : Binary64) : Decimal :=
  if x.isZero then ⟨0, 0⟩
  else
    let first := orderOf x
    let found := (List.range 17).findSome? fun (more : Nat) => gridPoint? x (first - more)
    withoutTrailingZeros 17 (found.getD (let (n, d) := onGrid x (first - 16); ⟨n / d, first - 16⟩))

end Decimal
end ScraperTimeline
