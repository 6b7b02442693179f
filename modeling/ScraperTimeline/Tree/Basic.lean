import ScraperTimeline.Decimal.Layout
import ScraperTimeline.Text.Blank

/-!
Definition trees. A mapping keeps the order of its fields, and no key occurs in it twice.
-/
namespace ScraperTimeline

/-- A node of a definition document. -/
inductive Tree where
  | null
  | bool (value : Bool)
  | int (value : Int64)
  | float (value : Binary64)
  | string (value : String)
  | seq (items : List Tree)
  | map (fields : List (String × Tree))
deriving Repr, Inhabited

namespace Tree

inductive Kind where
  | null | bool | int | float | string | sequence | mapping
deriving DecidableEq, Repr

def Kind.name : Kind → String
  | .null => "null"
  | .bool => "bool"
  | .int => "int"
  | .float => "float"
  | .string => "string"
  | .sequence => "sequence"
  | .mapping => "mapping"

def kind : Tree → Kind
  | .null => .null
  | .bool _ => .bool
  | .int _ => .int
  | .float _ => .float
  | .string _ => .string
  | .seq _ => .sequence
  | .map _ => .mapping

def fields? : Tree → Option (List (String × Tree))
  | .map fields => some fields
  | _ => none

def items? : Tree → Option (List Tree)
  | .seq items => some items
  | _ => none

def string? : Tree → Option String
  | .string s => some s
  | _ => none

def isMap (t : Tree) : Bool := t.fields?.isSome

/-- The value of a field of a mapping. -/
def field? (key : String) : Tree → Option Tree
  | .map fields => fields.lookup key
  | _ => none

-- The value as a signed word, if it is in the range of one.
def word? (n : Int) : Option Int64 :=
  if -0x8000000000000000 ≤ n ∧ n < 0x8000000000000000 then some (Int64.ofInt n) else none

/-- The integer of an int, or of a string that holds one between blanks. -/
def integer? : Tree → Option Int64
  | .int n => some n
  | .string s => (Text.integer? 10 (Text.trim s.toList)).bind word?
  | _ => none

/-- The text of a scalar other than null. -/
def text? : Tree → Option String
  | .string s => some s
  | .int n => some (String.ofList (Text.decimal n.toInt))
  | .float x => some (String.ofList (Decimal.Layout.plain.write x))
  | .bool b => some (if b then "true" else "false")
  | _ => none

end Tree
end ScraperTimeline
