import ScraperTimeline.Json.Token
import ScraperTimeline.Tree.Sorted
import ScraperTimeline.Tree.Fields

/-!
JSON documents as written, with repeated keys and unrounded numbers, and the tree that one stands for.
-/
namespace ScraperTimeline

inductive Json where
  | null
  | bool (value : Bool)
  | number (value : Json.Number)
  | string (value : String)
  /-- A string in which half of a character stands alone, so that it has no value. -/
  | halfString
  | array (items : List Json)
  | object (fields : List (String × Json))
deriving Repr, Inhabited

namespace Json

/-- A container that is being read, with what stands before the value to come, the last first. -/
inductive Frame where
  | item (before : List Json)
  | field (before : List (String × Json)) (key : String)

/-- What may come next, within the containers that are still open. -/
inductive Reading where
  | value (outer : List Frame)
  | firstItem (outer : List Frame)
  | firstKey (outer : List Frame)
  | key (before : List (String × Json)) (outer : List Frame)
  | colon (before : List (String × Json)) (key : String) (outer : List Frame)
  | after (value : Json) (outer : List Frame)

namespace Reading

/-- Starts a value. -/
def start? (outer : List Frame) : Token → Option Reading
  | .openArray => some (.firstItem outer)
  | .openObject => some (.firstKey outer)
  | .null => some (.after .null outer)
  | .bool b => some (.after (.bool b) outer)
  | .number n => some (.after (.number n) outer)
  | .string s => some (.after (s.elim .halfString .string) outer)
  | _ => none

def step? : Reading → Token → Option Reading
  | .value outer, t => start? outer t
  | .firstItem outer, .closeArray => some (.after (.array []) outer)
  | .firstItem outer, t => start? (.item [] :: outer) t
  | .firstKey outer, .closeObject => some (.after (.object []) outer)
  | .firstKey outer, .string (some k) => some (.colon [] k outer)
  | .key before outer, .string (some k) => some (.colon before k outer)
  | .colon before k outer, .colon => some (.value (.field before k :: outer))
  | .after v (.item before :: outer), .comma => some (.value (.item (v :: before) :: outer))
  | .after v (.item before :: outer), .closeArray =>
    some (.after (.array (v :: before).reverse) outer)
  | .after v (.field before k :: outer), .comma => some (.key ((k, v) :: before) outer)
  | .after v (.field before k :: outer), .closeObject =>
    some (.after (.object ((k, v) :: before).reverse) outer)
  | _, _ => none

end Reading

/-- Reads a whole text as one JSON document. -/
def read? (text : List Char) : Option Json := do
  match ← (← tokens? text).foldlM Reading.step? (.value []) with
  | .after v [] => some v
  | _ => none

mutual

/-- The number of containers around the deepest value. -/
def depth : Json → Nat
  | .array items => itemsDepth items + 1
  | .object fields => fieldsDepth fields + 1
  | _ => 0

def itemsDepth : List Json → Nat
  | [] => 0
  | j :: rest => max (depth j) (itemsDepth rest)

def fieldsDepth : List (String × Json) → Nat
  | [] => 0
  | (_, j) :: rest => max (depth j) (fieldsDepth rest)

end

/-- A whole number in the range of a signed word is an int, any other number a float. A float is
read by scaling; one that is too large is refused. -/
def Number.toTree? : Number → Option Tree
  | .whole negative digits =>
    let n := (Text.digitsFrom? 10 0 digits).getD 0
    let float := (DecimalLiteral.toScaled? ⟨negative, digits, [], 0⟩).map Tree.float
    if negative ∧ n = 0 then float
    else match Tree.word? (if negative then -(n : Int) else n) with
      | some w => some (.int w)
      | none => float
  | .real literal => literal.toScaled?.map Tree.float

mutual

/-- The tree of a document: of a repeated key the last value counts, at the first place. -/
def toTree? : Json → Option Tree
  | .null => some .null
  | .bool b => some (.bool b)
  | .number n => n.toTree?
  | .string s => some (.string s)
  | .halfString => none
  | .array items => (itemsToTrees? items).map .seq
  | .object fields => (fieldsToTrees? fields).map fun entries => .map (Fields.ofList entries)

def itemsToTrees? : List Json → Option (List Tree)
  | [] => some []
  | j :: rest => do return (← toTree? j) :: (← itemsToTrees? rest)

def fieldsToTrees? : List (String × Json) → Option (List (String × Tree))
  | [] => some []
  | (key, j) :: rest => do return (key, ← toTree? j) :: (← fieldsToTrees? rest)

end

/-- Sets the value of a key in a list of entries that is sorted by key. -/
def insertSorted {α : Type} (key : String) (value : α) : List (String × α) → List (String × α)
  | [] => [(key, value)]
  | (k, v) :: rest =>
    if key < k then (key, value) :: (k, v) :: rest
    else if key = k then (key, value) :: rest
    else (k, v) :: insertSorted key value rest

/-- The most containers that one value may lie in. -/
def maxDepth : Nat := 127

end Json

/-- Reads a tree from JSON text. -/
def Tree.ofJson? (text : String) : Option Tree := do
  let j ← Json.read? text.toList
  if j.depth ≤ Json.maxDepth then j.toTree? else none

end ScraperTimeline
