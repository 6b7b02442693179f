/-!
Digits in a radix, and the integers that are written with them.
-/
namespace ScraperTimeline.Text

/-- The value of one digit, letters of either case counting from ten. -/
def digit? (radix : Nat) (c : Char) : Option Nat :=
  let value :=
    if '0' ≤ c ∧ c ≤ '9' then c.toNat - '0'.toNat
    else if 'a' ≤ c ∧ c ≤ 'z' then c.toNat - 'a'.toNat + 10
    else if 'A' ≤ c ∧ c ≤ 'Z' then c.toNat - 'A'.toNat + 10
    else radix
  if value < radix then some value else none

def isDigit (c : Char) : Bool := '0' ≤ c && c ≤ '9'

-- The number that the digits make after those already read.
def digitsFrom? (radix : Nat) (read : Nat) : List Char → Option Nat
  | [] => some read
  | c :: rest => (digit? radix c).bind fun value => digitsFrom? radix (read * radix + value) rest

/-- Reads a number written with at least one digit and nothing else. -/
def natural? (radix : Nat) : List Char → Option Nat
  | [] => none
  | digits => digitsFrom? radix 0 digits

/-- Reads a number with an optional plus sign. -/
def unsigned? (radix : Nat) : List Char → Option Nat
  | '+' :: digits => natural? radix digits
  | digits => natural? radix digits

/-- Reads a number with an optional sign. -/
def integer? (radix : Nat) : List Char → Option Int
  | '-' :: digits => (natural? radix digits).map fun n => -(n : Int)
  | digits => (unsigned? radix digits).map Int.ofNat

/-- The digits of a number, the most significant first. -/
def digits (n : Nat) : List Char := Nat.toDigits 10 n

/-- The decimal text of an integer. -/
def decimal : Int → List Char
  | .ofNat n => digits n
  | .negSucc n => '-' :: digits (n + 1)

-- Digits of a number, zeros in front up to a width.
def padded (width n : Nat) : List Char :=
  List.replicate (width - (digits n).length) '0' ++ digits n

/-- Lower-case hexadecimal digits, at least so many. -/
def hex (width n : Nat) : List Char :=
  let shown := Nat.toDigits 16 n
  List.replicate (width - shown.length) '0' ++ shown

end ScraperTimeline.Text
