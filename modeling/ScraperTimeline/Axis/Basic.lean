import ScraperTimeline.Tree.Basic

/-!
Axes: what a definition declares as a member of one of its dimensions.
-/
namespace ScraperTimeline

inductive AxisKind where
  | fact
  | col
  | row
deriving DecidableEq, Repr

namespace AxisKind

/-- The kinds in the order of a product. -/
def all : List AxisKind := [fact, col, row]

/-- The key in a definition. -/
def key : AxisKind → String
  | fact => "fact"
  | col => "col"
  | row => "row"

/-- The name in a message. -/
def display : AxisKind → String
  | fact => "FACT"
  | col => "COL"
  | row => "ROW"

def ofKey? (key : String) : Option AxisKind := all.find? (·.key = key)

end AxisKind

structure Axis where
  kind : AxisKind
  name : Option String
  value : Option String
  /-- What the text has to match from which a value is taken. -/
  pattern : Option String
  index : Option Int64
  order : Option Int64
deriving DecidableEq, Repr

namespace Axis

def ofDeclaration (kind : AxisKind) (t : Tree) : Axis :=
  let text key := (t.field? key).bind Tree.text?
  let integer key := (t.field? key).bind Tree.integer?
  ⟨kind, text "name", text "value", text "match", integer "index", integer "order"⟩

/-- The parts of an axis that are there. -/
def toTree (a : Axis) : Tree :=
  let part key (value : Option Tree) := (value.map fun v => (key, v)).toList
  .map (("kind", .string a.kind.key) :: part "name" (a.name.map .string) ++
    part "value" (a.value.map .string) ++ part "match" (a.pattern.map .string) ++
    part "index" (a.index.map .int) ++ part "order" (a.order.map .int))

end Axis
end ScraperTimeline
