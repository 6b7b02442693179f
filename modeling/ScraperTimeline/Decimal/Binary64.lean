/-!
Double-precision numbers as bits, decoded to integers times powers of two. A quotient of naturals is
rounded to the nearest double, a tie to the even one, in exact arithmetic.
-/
namespace ScraperTimeline

/-- An IEEE 754 double, held as its 64 bits. -/
structure Binary64 where
  bits : UInt64
deriving DecidableEq, Repr

namespace Binary64

def signPlace : Nat := 0x8000000000000000

-- What the bits of the fraction go up to.
def fractionPlace : Nat := 0x10000000000000

-- The bits of the infinite magnitude; those of a NaN are above.
def infinityBits : Nat := 0x7FF0000000000000

def isNegative (x : Binary64) : Bool := signPlace ≤ x.bits.toNat

/-- The bits without the sign. -/
def magnitude (x : Binary64) : Nat := x.bits.toNat % signPlace

def isNaN (x : Binary64) : Bool := infinityBits < x.magnitude

def isInfinite (x : Binary64) : Bool := x.magnitude = infinityBits

def isFinite (x : Binary64) : Bool := x.magnitude < infinityBits

def isZero (x : Binary64) : Bool := x.magnitude = 0

/-- A finite magnitude is `significand * 2 ^ exponent`. -/
def significand (x : Binary64) : Nat :=
  if x.magnitude < fractionPlace then x.magnitude
  else x.magnitude % fractionPlace + fractionPlace

def exponent (x : Binary64) : Int :=
  (max (x.magnitude / fractionPlace) 1 : Nat) - 1075

def ofMagnitude (negative : Bool) (magnitude : Nat) : Binary64 :=
  ⟨UInt64.ofNat (if negative then signPlace + magnitude else magnitude)⟩

def zero : Binary64 := ⟨0⟩

def infinity (negative : Bool) : Binary64 := ofMagnitude negative infinityBits

def nan : Binary64 := ⟨0x7FF8000000000000⟩

def neg (x : Binary64) : Binary64 := ofMagnitude (!x.isNegative) x.magnitude

/-- Comparison as numbers: both zeros are equal and a NaN differs from everything. -/
def equal (x y : Binary64) : Bool :=
  !x.isNaN && !y.isNaN && (x == y || (x.isZero && y.isZero))

/-- The quotient rounded to the nearest integer, a tie to the even one. -/
def roundedQuotient (numerator denominator : Nat) : Nat :=
  let quotient := numerator / denominator
  let twice := 2 * (numerator % denominator)
  if twice < denominator then quotient
  else if denominator < twice then quotient + 1
  else quotient + quotient % 2

-- The power of two at or below a positive quotient.
def binaryOrder (numerator denominator : Nat) : Int :=
  let guess : Int := (numerator.log2 : Int) - denominator.log2
  if numerator * Nat.pow 2 (-guess).toNat < denominator * Nat.pow 2 guess.toNat then guess - 1 else guess

/-- The bits of the magnitude nearest to a quotient. Consecutive magnitudes have consecutive bits, so a
carry out of the significand needs no case of its own. -/
def nearestMagnitude (numerator denominator : Nat) : Nat :=
  if numerator = 0 then 0
  else
    let place := max (binaryOrder numerator denominator - 52) (-1074)
    let rounded := 
      roundedQuotient (numerator * Nat.pow 2 (-place).toNat) (denominator * Nat.pow 2 place.toNat)
    min infinityBits ((place + 1074).toNat * fractionPlace + rounded)

/-- The double nearest to `numerator / denominator`, an infinity if it is too large. -/
def nearest (negative : Bool) (numerator denominator : Nat) : Binary64 :=
  ofMagnitude negative (nearestMagnitude numerator denominator)

def ofNat (n : Nat) : Binary64 := nearest false n 1

/-- The finite value as a quotient of a signed numerator and a positive denominator. -/
def toQuotient (x : Binary64) : Int × Nat :=
  let scaled := (x.significand * Nat.pow 2 x.exponent.toNat : Nat)
  (if x.isNegative then -(scaled : Int) else scaled, Nat.pow 2 (-x.exponent).toNat)

/-- Rounded product of finite magnitudes. -/
def mulMagnitude (x y : Binary64) : Binary64 :=
  let (a, b) := x.toQuotient
  let (c, d) := y.toQuotient
  nearest false (a.natAbs * c.natAbs) (b * d)

/-- Rounded quotient of finite magnitudes, the second not zero. -/
def divMagnitude (x y : Binary64) : Binary64 :=
  let (a, b) := x.toQuotient
  let (c, d) := y.toQuotient
  nearest false (a.natAbs * d) (b * c.natAbs)

/-- Holds of finite numbers without a fraction. -/
def isInteger (x : Binary64) : Bool :=
  x.isFinite && x.significand % Nat.pow 2 (-x.exponent).toNat == 0

end Binary64
end ScraperTimeline
