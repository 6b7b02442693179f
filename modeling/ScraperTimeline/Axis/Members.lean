import ScraperTimeline.Axis.Basic
import ScraperTimeline.Timeline.Version
import ScraperTimeline.Tree.Path

/-!
Members of a version: every way to take one axis of each kind that it declares. The axes of a kind are
distinct, and those of the last kind change fastest.
-/
namespace ScraperTimeline

/-- The axes of each declared kind, in the order of the kinds. -/
abbrev AxisSets := List (AxisKind × List Axis)

/-- One axis of each kind. -/
abbrev Member := List Axis

def Member.axis? (kind : AxisKind) (m : Member) : Option Axis := m.find? (·.kind = kind)

namespace AxisSets

/-- The elements of a list where they come first. -/
def distinct {α : Type} [DecidableEq α] : List α → List α
  | [] => []
  | a :: rest => a :: (distinct rest).filter (· ≠ a)

/-- The axes that a kind declares. -/
def ofKind (kind : AxisKind) (t : Tree) : List Axis :=
  distinct ((((t.field? "members").bind Tree.items?).getD []).map (Axis.ofDeclaration kind))

/-- The axes of a version. -/
def ofVersion (v : Version) : Except Fault AxisSets :=
  match (v.body.field? "axis").bind Tree.fields? with
  | none => .error (.definitionNotFound "axis" v.name)
  | some declared =>
    match declared.find? fun (key, _) => (AxisKind.ofKey? key).isNone with
    | some (key, _) => .error (.malformedSource v.name ("unknown axis kind '" ++ key ++ "'"))
    | none =>
      .ok (AxisKind.all.filterMap fun kind =>
        (declared.lookup kind.key).map fun t => (kind, ofKind kind t))

-- Every way to take one element of each list.
def choices {α : Type} : List (List α) → List (List α)
  | [] => [[]]
  | options :: rest => options.flatMap fun a => (choices rest).map (a :: ·)

/-- The members, none if no kind is declared. -/
def members (sets : AxisSets) : List Member :=
  if sets.isEmpty then [] else choices (sets.map (·.2))

end AxisSets

namespace Version

def members (v : Version) : Except Fault (List Member) := return (← AxisSets.ofVersion v).members

/-- The text of a query of an axis kind. -/
def query (v : Version) (kind : AxisKind) (type : String) : Except Fault String :=
  match (v.body.at? ("/axis/" ++ kind.key ++ "/query/" ++ type)).bind Tree.text? with
  | some text => .ok text
  | none => .error (.queryNotFound (v.name ++ ":" ++ kind.display ++ ":" ++ type))

end Version
end ScraperTimeline
