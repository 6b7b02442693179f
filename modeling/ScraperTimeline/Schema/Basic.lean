import ScraperTimeline.Text.Pattern
import ScraperTimeline.Tree.Basic

/-!
Schemas: what a contract demands of a tree. The rules of a schema stand in the order in which they
report.
-/
namespace ScraperTimeline

/-- The types that a schema knows, in alphabetical order. -/
inductive Schema.Kind where
  | array | boolean | integer | null | number | object | string
deriving DecidableEq, Repr

namespace Schema.Kind

def all : List Kind := [array, boolean, integer, null, number, object, string]

def name : Kind → String
  | array => "array"
  | boolean => "boolean"
  | integer => "integer"
  | null => "null"
  | number => "number"
  | object => "object"
  | string => "string"

def ofName? (s : String) : Option Kind := all.find? (·.name = s)

/-- Whether a tree is of the type. A number without a fraction is an integer. -/
def admits : Kind → Tree → Bool
  | array, .seq _ => true
  | boolean, .bool _ => true
  | integer, .int _ => true
  | integer, .float x => x.isInteger
  | null, .null => true
  | number, .int _ => true
  | number, .float _ => true
  | object, .map _ => true
  | string, .string _ => true
  | _, _ => false

end Schema.Kind

/-- A single keyword of a schema, with the schemas inside it. -/
inductive Schema where
  /-- Everything, or nothing. -/
  | const (accepts : Bool)
  /-- What another place of the document demands. -/
  | ref (target : String)
  /-- All of the rules. -/
  | all (rules : List Schema)
  | type (kinds : List Schema.Kind)
  | minimum (limit : Tree)
  | required (keys : List String)
  | pattern (source : String) (pattern : Text.Pattern)
  | properties (fields : List (String × Schema))
  /-- Properties, and what the other keys have to be. -/
  | additional (fields : List (String × Schema)) (others : Schema)
  | propertyNames (name : Schema)
  | items (item : Schema)
  | anyOf (options : List Schema)
  | oneOf (options : List Schema)
deriving Repr, Inhabited

end ScraperTimeline
