import ScraperTimeline.Tree.Sorted

/-!
JSON text of trees: compact, and set out with two blanks a level.
-/
namespace ScraperTimeline.Json
open Text

/-- A character inside a string: quotes, backslashes and control characters are escaped. -/
def escaped (c : Char) : List Char :=
  match c with
  | '"' => ['\\', '"']
  | '\\' => ['\\', '\\']
  | '\x08' => ['\\', 'b']
  | '\x0c' => ['\\', 'f']
  | '\n' => ['\\', 'n']
  | '\r' => ['\\', 'r']
  | '\t' => ['\\', 't']
  | c => if c.toNat < 0x20 then '\\' :: 'u' :: hex 4 c.toNat else [c]

def quoted (s : String) : List Char := '"' :: s.toList.flatMap escaped ++ ['"']

/-- The text of a scalar. -/
def scalar : Tree → List Char
  | .null => "null".toList
  | .bool true => "true".toList
  | .bool false => "false".toList
  | .int n => decimal n.toInt
  | .float x => Decimal.Layout.json.write x
  | .string s => quoted s
  | _ => []

mutual

/-- Text without blanks between its parts. -/
def compact : Tree → List Char
  | .seq items => '[' :: compactItems items
  | .map fields => '{' :: compactFields fields
  | t => scalar t

def compactItems : List Tree → List Char
  | [] => [']']
  | [t] => compact t ++ [']']
  | t :: rest => compact t ++ ',' :: compactItems rest

def compactFields : List (String × Tree) → List Char
  | [] => ['}']
  | [(key, t)] => quoted key ++ ':' :: compact t ++ ['}']
  | (key, t) :: rest => quoted key ++ ':' :: compact t ++ ',' :: compactFields rest

end

def newline (level : Nat) : List Char := '\n' :: List.replicate (2 * level) ' '

mutual

/-- Text with each item and field on a line of its own. -/
def pretty (level : Nat) : Tree → List Char
  | .seq [] => ['[', ']']
  | .seq items => '[' :: newline (level + 1) ++ prettyItems level items
  | .map [] => ['{', '}']
  | .map fields => '{' :: newline (level + 1) ++ prettyFields level fields
  | t => scalar t

def prettyItems (level : Nat) : List Tree → List Char
  | [] => [']']
  | [t] => pretty (level + 1) t ++ newline level ++ [']']
  | t :: rest => pretty (level + 1) t ++ ',' :: newline (level + 1) ++ prettyItems level rest

def prettyFields (level : Nat) : List (String × Tree) → List Char
  | [] => ['}']
  | [(key, t)] => quoted key ++ ':' :: ' ' :: pretty (level + 1) t ++ newline level ++ ['}']
  | (key, t) :: rest =>
    quoted key ++ ':' :: ' ' :: pretty (level + 1) t ++ ',' :: newline (level + 1) ++
      prettyFields level rest

end

end ScraperTimeline.Json

namespace ScraperTimeline.Tree

/-- Compact JSON text, fields in their order. -/
def toJson (t : Tree) : String := String.ofList (Json.compact t)

/-- JSON text on several lines. -/
def toPrettyJson (t : Tree) : String := String.ofList (Json.pretty 0 t)

end ScraperTimeline.Tree
