import ScraperTimeline.Instant.Text
import ScraperTimeline.Timeline.Version

/-!
Reconciliation of new versions with those that are there. A new version is compared with the open one of
its name: if there is none it is inserted, if both say the same it is dropped, and else the open one is
closed a second before the new one starts.
-/
namespace ScraperTimeline

/-- What became of a new version. -/
inductive Outcome where
  | inserted
  | unchanged
  /-- The version that was open has been closed at this instant. -/
  | superseded (closedAt : Instant)
deriving DecidableEq, Repr, Inhabited

namespace Outcome

def label : Outcome → String
  | inserted => "inserted"
  | unchanged => "unchanged"
  | superseded _ => "superseded"

def isChange (o : Outcome) : Bool := o ≠ unchanged

end Outcome

structure Reconciliation where
  /-- The versions that were there, as they are now, and then the new ones. -/
  versions : List Version
  outcomes : List (String × Outcome)
  /-- The places of the versions that changed, in the order in which they first did. -/
  touched : List Nat

namespace Reconciliation

def changed (r : Reconciliation) : Bool := !r.touched.isEmpty

/-- The versions that changed. -/
def writes (r : Reconciliation) : List Version := r.touched.filterMap (r.versions[·]?)

def start (existing : List Version) : Reconciliation := ⟨existing, [], []⟩

-- Adds a new version at the end.
def insert (new : Version) (r : Reconciliation) : Reconciliation :=
  { r with versions := r.versions ++ [new], touched := r.touched ++ [r.versions.length] }

-- Closes the version at a place.
def close (place : Nat) (stop : Instant) (r : Reconciliation) : Reconciliation :=
  { r with
    versions := r.versions.modify place (·.closedAt stop)
    touched := if r.touched.contains place then r.touched else r.touched ++ [place] }

def report (name : String) (o : Outcome) (r : Reconciliation) : Reconciliation :=
  { r with outcomes := r.outcomes ++ [(name, o)] }

/-- A new version has to be open, and to start with a second. -/
def checkNew (high : Instant) (new : Version) : Except Fault Unit :=
  if !new.isOpen high then
    .error (.invalidValidity new.name
      ("new version ends at " ++ new.stop.messageText ++ " instead of the high date"))
  else if !new.start.isWhole then
    .error (.invalidValidity new.name
      ("new version starts at " ++ new.start.messageText ++ ", inside a second"))
  else .ok ()

/-- Takes in one new version. -/
def add (high : Instant) (r : Reconciliation) (new : Version) : Except Fault Reconciliation := do
  checkNew high new
  match r.versions.findIdx? fun v => v.name = new.name && v.isOpen high with
  | none => return (r.insert new).report new.name .inserted
  | some place =>
    let current := r.versions.getD place new
    let stop := new.start.secondBefore
    if current.sameDefinition new then return r.report new.name .unchanged
    else if stop < current.start then
      .error (.invalidValidity new.name
        ("new version from " ++ new.start.messageText ++ " does not follow open version from " ++
          current.start.messageText))
    else return ((r.close place stop).insert new).report new.name (.superseded stop)

end Reconciliation

/-- Takes in new versions, in their order. -/
def reconcile (high : Instant) (new existing : List Version) : Except Fault Reconciliation :=
  new.foldlM (Reconciliation.add high) (Reconciliation.start existing)

end ScraperTimeline
