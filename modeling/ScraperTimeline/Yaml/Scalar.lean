import ScraperTimeline.Tree.Basic

/-!
What an unquoted YAML scalar stands for: null, a boolean, a number, or else the string itself.
-/
namespace ScraperTimeline.Yaml
open Text

/-- The meaning of an unquoted scalar. -/
inductive Scalar where
  | null
  | bool (value : Bool)
  | int (value : Int)
  | float (value : Binary64)
  | string
deriving DecidableEq, Repr

def nullWords : List String := ["", "~", "null", "Null", "NULL"]

def trueWords : List String := ["true", "True", "TRUE"]

def falseWords : List String := ["false", "False", "FALSE"]

def bool? (s : List Char) : Option Bool :=
  if String.ofList s ∈ trueWords then some true
  else if String.ofList s ∈ falseWords then some false
  else none

def isNull (s : List Char) : Bool := String.ofList s ∈ nullWords

def withoutSign : List Char → List Char
  | '+' :: rest => rest
  | '-' :: rest => rest
  | s => s

/-- Digits with a zero in front are no number. -/
def hasLeadingZero (s : List Char) : Bool :=
  match withoutSign s with
  | '0' :: c :: rest => (c :: rest).all isDigit
  | _ => false

-- A number without sign: hexadecimal, octal, binary or decimal.
def magnitude? : List Char → Option Nat
  | '0' :: 'x' :: rest => natural? 16 rest
  | '0' :: 'o' :: rest => natural? 8 rest
  | '0' :: 'b' :: rest => natural? 2 rest
  | s => if hasLeadingZero s then none else natural? 10 s

/-- The integer that a scalar writes, of any size. -/
def integer? : List Char → Option Int
  | '-' :: rest => (magnitude? rest).map fun n => -(n : Int)
  | '+' :: rest => (magnitude? rest).map Int.ofNat
  | s => (magnitude? s).map Int.ofNat

/-- The integers of a signed or an unsigned word. -/
def isWord (n : Int) : Bool := -0x8000000000000000 ≤ n && n < 0x10000000000000000

/-- The integers that are read as such, some of them only to be refused. Larger ones are floats. -/
def isDoubleWord (n : Int) : Bool := 
  -0x80000000000000000000000000000000 ≤ n && n < 0x100000000000000000000000000000000

-- Digits around a point, at least one of them, and an exponent.
def literal? (negative : Bool) (s : List Char) : Option DecimalLiteral :=
  let whole := s.takeWhile isDigit
  let rest := s.dropWhile isDigit
  let (fraction, rest) := match rest with
    | '.' :: rest => (rest.takeWhile isDigit, rest.dropWhile isDigit)
    | rest => ([], rest)
  if whole = [] ∧ fraction = [] then none
  else match rest with
    | [] => some ⟨negative, whole, fraction, 0⟩
    | c :: power =>
      if c = 'e' ∨ c = 'E' then
        (Text.integer? 10 power).map fun n => ⟨negative, whole, fraction, n⟩
      else none

def finite? (negative : Bool) (s : List Char) : Option Binary64 :=
  (literal? negative s).bind fun l => if l.toNearest.isFinite then some l.toNearest else none

def infinityWords : List String := [".inf", ".Inf", ".INF"]

def nanWords : List String := [".nan", ".NaN", ".NAN"]

/-- The float that a scalar writes. A literal too large for a float is none. -/
def float? : List Char → Option Binary64
  | '+' :: rest =>
    if String.ofList rest ∈ infinityWords then some (.infinity false) else finite? false rest
  | '-' :: rest =>
    if String.ofList rest ∈ infinityWords then some (.infinity true) else finite? true rest
  | s =>
    if String.ofList s ∈ infinityWords then some (.infinity false)
    else if String.ofList s ∈ nanWords then some .nan
    else finite? false s

def Scalar.ofPlain (s : List Char) : Scalar :=
  if isNull s then .null
  else match bool? s with
    | some b => .bool b
    | none =>
      match (integer? s).filter isDoubleWord with
      | some n => .int n
      | none =>
        if hasLeadingZero s then .string
        else match float? s with
          | some x => .float x
          | none => .string

/-- Holds of the texts that are read back as strings without quotes. -/
def readsAsString (s : List Char) : Bool :=
  Scalar.ofPlain s = .string && !hasLeadingZero s

/-- An integer beyond a signed word is a float, one beyond any word is refused. -/
def intToTree? (n : Int) : Option Tree :=
  match Tree.word? n with
  | some w => some (.int w)
  | none => if isWord n then some (.float (.ofNat n.toNat)) else none

def Scalar.toTree? (s : List Char) : Scalar → Option Tree
  | .null => some .null
  | .bool b => some (.bool b)
  | .int n => intToTree? n
  | .float x => some (.float x)
  | .string => some (.string (String.ofList s))

end ScraperTimeline.Yaml
