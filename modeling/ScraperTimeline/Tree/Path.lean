import ScraperTimeline.Text.Split
import ScraperTimeline.Tree.Basic

/-!
Pointers into a tree: keys and positions separated by slashes.
-/
namespace ScraperTimeline.Tree

/-- The text between the slashes, empty segments left out. -/
def segments (pointer : String) : List String :=
  (Text.split '/' pointer.toList).filterMap fun s => if s = [] then none else some (String.ofList s)

/-- The child that one segment names. -/
def child? (segment : String) : Tree → Option Tree
  | .map fields => fields.lookup segment
  | .seq items => (Text.unsigned? 10 segment.toList).bind fun i => items[i]?
  | _ => none

/-- Follows a path of segments. -/
def follow? : List String → Tree → Option Tree
  | [], t => some t
  | segment :: rest, t => (t.child? segment).bind (follow? rest)

def at? (pointer : String) (t : Tree) : Option Tree := t.follow? (segments pointer)

end ScraperTimeline.Tree
