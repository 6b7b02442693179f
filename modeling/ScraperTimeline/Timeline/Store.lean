import ScraperTimeline.Timeline.Version

/-!
Stores of histories. A writer swaps: its versions are taken in only if the open version of the name is
still the one that it has seen.
-/
namespace ScraperTimeline

/-- An operation on a store. What it did before it failed stays done. -/
abbrev Storing (σ : Type) := ExceptT Fault (StateM σ)

class Store (σ : Type) where
  /-- The names of histories, sorted. -/
  names : Storing σ (List String)
  /-- The versions of a name, by start. -/
  findAll : String → Storing σ History
  findOpen : String → Storing σ (Option Version)
  /-- Puts a version in, whatever is there. -/
  put : Version → Storing σ Unit
  /-- Puts versions of a name in if its open version is still the expected one. -/
  swap : String → Option Version → List Version → Storing σ Unit

namespace Store

def findActive {σ : Type} [Store σ] (name : String) (t : Instant) : Storing σ (Option Version) :=
  return History.activeAt? t (← findAll name)

def isNameChar (c : Char) : Bool :=
  ('a' ≤ c && c ≤ 'z') || ('A' ≤ c && c ≤ 'Z') || Text.isDigit c || c = '_' || c = '-'

/-- Names that can be stored, also as names of files. -/
def isName (name : String) : Bool := !name.toList.isEmpty && name.toList.all isNameChar

def checkName (name : String) : Except Fault Unit :=
  if isName name then .ok () else .error (.storeFailed ("invalid data def name '" ++ name ++ "'"))

/-- All versions that are written have to be of the name. -/
def checkWrites (name : String) (writes : List Version) : Except Fault Unit :=
  match writes.find? (·.name ≠ name) with
  | none => .ok ()
  | some stray =>
    .error (.storeFailed ("write for '" ++ name ++ "' included version of '" ++ stray.name ++ "'"))

/-- Whether the open version is the one that was seen. -/
def stillMatches : Option Version → Option Version → Bool
  | none, none => true
  | some current, some seen => current.sameVersion seen && current.sameDefinition seen
  | _, _ => false

/-- The history after a swap. -/
def swapped (high : Instant) (name : String) (expected : Option Version) (writes : List Version)
    (h : History) : Except Fault History :=
  if stillMatches (h.open? high) expected then .ok (writes.foldl (fun h v => h.put v) h)
  else .error (.concurrentModification name)

def sortNames (names : List String) : List String := names.mergeSort fun a b => decide (a ≤ b)

end Store
end ScraperTimeline
