import ScraperTimeline.Tree.Basic

/-!
The normal form of a tree under reordering of fields: every mapping sorted by key.
-/
namespace ScraperTimeline.Tree

/-- Orders entries by key, code point by code point. -/
def sortByKey {α : Type} (entries : List (String × α)) : List (String × α) :=
  entries.mergeSort fun a b => decide (a.1 ≤ b.1)

mutual

def sorted : Tree → Tree
  | .seq items => .seq (sortedItems items)
  | .map fields => .map (sortByKey (sortedFields fields))
  | t => t

def sortedItems : List Tree → List Tree
  | [] => []
  | t :: rest => sorted t :: sortedItems rest

def sortedFields : List (String × Tree) → List (String × Tree)
  | [] => []
  | (key, t) :: rest => (key, sorted t) :: sortedFields rest

end

mutual

/-- The tree as plain data: an infinity or a NaN has no plain form and becomes null. -/
def finite : Tree → Tree
  | .float x => if x.isFinite then .float x else .null
  | .seq items => .seq (finiteItems items)
  | .map fields => .map (finiteFields fields)
  | t => t

def finiteItems : List Tree → List Tree
  | [] => []
  | t :: rest => finite t :: finiteItems rest

def finiteFields : List (String × Tree) → List (String × Tree)
  | [] => []
  | (key, t) :: rest => (key, finite t) :: finiteFields rest

end

/-- What validation and reports see of a tree: plain data with sorted keys. -/
def plain (t : Tree) : Tree := t.finite.sorted

end ScraperTimeline.Tree
