import ScraperTimeline.Fault
import ScraperTimeline.Instant.Basic
import ScraperTimeline.Json.Printer
import ScraperTimeline.Json.Reader
import ScraperTimeline.Tree.Equality

/-!
Versions of definitions. A version is valid from its start to the end of the second of its stop, and the
one that stops at the high date is open.
-/
namespace ScraperTimeline

structure Version where
  name : String
  start : Instant
  stop : Instant
  /-- The body as it is stored. -/
  text : String
  body : Tree
deriving Repr, Inhabited

namespace Version

def ofBody (name : String) (start stop : Instant) (body : Tree) : Version :=
  ⟨name, start, stop, body.toJson, body⟩

/-- The version of a body text, which stays as it is. -/
def ofText (name : String) (start stop : Instant) (text : String) : Except Fault Version :=
  match Tree.ofJson? text with
  | some body => .ok ⟨name, start, stop, text, body⟩
  | none => .error (.malformedSource name Fault.unreadable)

def isOpen (high : Instant) (v : Version) : Bool := v.stop = high

/-- The last second counts in full. -/
def covers (v : Version) (t : Instant) : Bool := v.start ≤ t && t.wholeSecond ≤ v.stop

/-- Whether the bodies say the same, however they are written. -/
def sameDefinition (a b : Version) : Bool := a.body.equal b.body

/-- Whether name and validity are the same. -/
def sameVersion (a b : Version) : Bool := a.name = b.name && a.start = b.start && a.stop = b.stop

/-- Whether all parts are the same, the stored text too. -/
def equal (a b : Version) : Bool := a.sameVersion b && a.text = b.text && a.sameDefinition b

def closedAt (stop : Instant) (v : Version) : Version := { v with stop }

/-- The versions by name, sorted by it; of a name the last one. -/
def byName (versions : List Version) : List (String × Version) :=
  Tree.sortByKey (Fields.ofList (versions.map fun v => (v.name, v)))

end Version

/-- Versions of one name. -/
abbrev History := List Version

namespace History

def open? (high : Instant) (h : History) : Option Version := h.find? (·.isOpen high)

/-- The first version that is valid at an instant. -/
def activeAt? (t : Instant) (h : History) : Option Version := h.find? (·.covers t)

def sortByStart (h : History) : History := h.mergeSort fun a b => decide (a.start ≤ b.start)

-- Replaces the version of the same start, or adds one at the end.
def replace (v : Version) : History → History
  | [] => [v]
  | w :: rest => if w.start = v.start then v :: rest else w :: replace v rest

/-- Puts a version in the place of the one that starts with it, or at its own. -/
def put (v : Version) (h : History) : History := sortByStart (replace v h)

end History
end ScraperTimeline
