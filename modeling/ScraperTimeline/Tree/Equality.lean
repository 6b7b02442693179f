import ScraperTimeline.Tree.Basic

/-!
Equality of definitions: the order of fields does not count, that of items does. Integers never equal
floats, and floats are compared as numbers.
-/
namespace ScraperTimeline.Tree

mutual

def equal : Tree → Tree → Bool
  | .null, .null => true
  | .bool a, .bool b => a == b
  | .int a, .int b => a == b
  | .float a, .float b => a.equal b
  | .string a, .string b => a == b
  | .seq a, .seq b => equalItems a b
  | .map a, .map b => a.length == b.length && fieldsWithin a b
  | _, _ => false

def equalItems : List Tree → List Tree → Bool
  | [], [] => true
  | a :: as, b :: bs => equal a b && equalItems as bs
  | _, _ => false

/-- Each field of the first list has its equal in the second. -/
def fieldsWithin : List (String × Tree) → List (String × Tree) → Bool
  | [], _ => true
  | (key, a) :: rest, b =>
    (match b.lookup key with
      | some other => equal a other
      | none => false) && fieldsWithin rest b

end

end ScraperTimeline.Tree
