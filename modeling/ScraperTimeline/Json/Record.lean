import ScraperTimeline.Json.Reader

/-!
JSON objects of which the fields are fixed. A field that counts may not be repeated.
-/
namespace ScraperTimeline.Json

def string? : Json → Option String
  | .string s => some s
  | _ => none

/-- A whole number in the range of an unsigned word of some bits. -/
def unsigned? (bits : Nat) : Json → Option Nat
  | .number (.whole false digits) =>
    (Text.digitsFrom? 10 0 digits).bind fun n => if n < Nat.pow 2 bits then some n else none
  | _ => none

/-- The value of a field that has to be there. -/
def field? (key : String) (fields : List (String × Json)) : Option Json := (Fields.once? key fields).join

end ScraperTimeline.Json
