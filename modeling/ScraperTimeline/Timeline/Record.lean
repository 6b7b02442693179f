import ScraperTimeline.Instant.Text
import ScraperTimeline.Json.Record
import ScraperTimeline.Timeline.Version

/-!
The stored form of versions: JSON objects with the body as a text inside. Other fields in them do not
count.
-/
namespace ScraperTimeline

namespace Version

def toTree (v : Version) : Tree :=
  .map [("name", .string v.name), ("from_date", .string v.start.storedText),
    ("to_date", .string v.stop.storedText), ("def_json", .string v.text)]

/-- The parts of a stored version, in the order of their fields. -/
def ofParts? (name start stop text : Json) : Option Version := do
  let start ← Instant.read? (← start.string?)
  let stop ← Instant.read? (← stop.string?)
  (ofText (← name.string?) start stop (← text.string?)).toOption

/-- Reads a stored version, with its fields in any order, or its parts alone. -/
def ofJson? : Json → Option Version
  | .object fields => do
    ofParts? (← Json.field? "name" fields) (← Json.field? "from_date" fields)
      (← Json.field? "to_date" fields) (← Json.field? "def_json" fields)
  | .array [name, start, stop, text] => ofParts? name start stop text
  | _ => none

def toJson (v : Version) : String := v.toTree.toJson

def ofText? (text : String) : Option Version := (Json.read? text.toList).bind ofJson?

end Version

namespace History

def toJson (h : History) : String := (Tree.seq (h.map Version.toTree)).toPrettyJson

def ofJson? (text : String) : Option History :=
  match Json.read? text.toList with
  | some (.array items) => items.mapM Version.ofJson?
  | _ => none

end History
end ScraperTimeline
