import ScraperTimeline.Json.Reader

/-!
JSON values: whole numbers in words, other numbers as doubles, and objects sorted by key. Schemas are read as
such values, and a tree becomes one before it is validated.
-/
namespace ScraperTimeline

namespace Json

inductive Value where
  | null
  | bool (value : Bool)
  | natural (value : UInt64)
  /-- A whole number below zero. -/
  | negative (value : Int64)
  | float (value : Binary64)
  | string (value : String)
  | array (items : List Value)
  | object (fields : List (String × Value))
deriving Repr, Inhabited

/-- A whole number is a word if there is one for it. Minus zero is a float. -/
def Number.toValue? : Number → Option Value
  | .whole negative digits =>
    let n := (Text.digitsFrom? 10 0 digits).getD 0
    let float := (DecimalLiteral.toScaled? ⟨negative, digits, [], 0⟩).map Value.float
    if negative then
      if 0 < n ∧ n ≤ 0x8000000000000000 then some (.negative (Int64.ofInt (-n))) else float
    else if n < 0x10000000000000000 then some (.natural (UInt64.ofNat n)) else float
  | .real literal => literal.toScaled?.map Value.float

mutual

/-- The value of a document: of a repeated key the last value counts, though every one has to be sound. -/
def toValue? : Json → Option Value
  | .null => some .null
  | .bool b => some (.bool b)
  | .number n => n.toValue?
  | .string s => some (.string s)
  | .halfString => none
  | .array items => (itemsToValues? items).map .array
  | .object fields => (fieldsToValues? fields []).map .object

def itemsToValues? : List Json → Option (List Value)
  | [] => some []
  | j :: rest => do return (← toValue? j) :: (← itemsToValues? rest)

def fieldsToValues? : List (String × Json) → List (String × Value) → Option (List (String × Value))
  | [], read => some read
  | (key, j) :: rest, read => do fieldsToValues? rest (insertSorted key (← toValue? j) read)

end

/-- Reads a value from JSON text. -/
def Value.ofText? (text : String) : Option Value := do
  let j ← read? text.toList
  if j.depth ≤ maxDepth then j.toValue? else none

end Json

namespace Tree
open Json

mutual

/-- The tree of a value. A word that is no int becomes a float. -/
def ofValue : Value → Tree
  | .null => .null
  | .bool b => .bool b
  | .natural n => if n.toNat < 0x8000000000000000 then .int n.toInt64 else .float (.ofNat n.toNat)
  | .negative n => .int n
  | .float x => .float x
  | .string s => .string s
  | .array items => .seq (ofValues items)
  | .object fields => .map (ofValueFields fields)

def ofValues : List Value → List Tree
  | [] => []
  | v :: rest => ofValue v :: ofValues rest

def ofValueFields : List (String × Value) → List (String × Tree)
  | [] => []
  | (key, v) :: rest => (key, ofValue v) :: ofValueFields rest

end

mutual

/-- The value of a tree. An infinity or a NaN has none and becomes null. -/
def toValue : Tree → Value
  | .null => .null
  | .bool b => .bool b
  | .int n => if n < 0 then .negative n else .natural n.toUInt64
  | .float x => if x.isFinite then .float x else .null
  | .string s => .string s
  | .seq items => .array (toValues items)
  | .map fields => .object (toValueFields fields [])

def toValues : List Tree → List Value
  | [] => []
  | t :: rest => toValue t :: toValues rest

def toValueFields : List (String × Tree) → List (String × Value) → List (String × Value)
  | [], before => before
  | (key, t) :: rest, before => toValueFields rest (insertSorted key (toValue t) before)

end

/-- Reads a tree from JSON text by way of a value, which sorts its keys. -/
def ofSortedJson? (text : String) : Option Tree := (Value.ofText? text).map ofValue

end Tree
end ScraperTimeline
