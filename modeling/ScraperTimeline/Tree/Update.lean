import ScraperTimeline.Tree.Fields

/-!
Changes at a field, at all fields, or at all items of a tree. A node of another kind stays as it is.
-/
namespace ScraperTimeline.Tree

/-- Changes the value of a field where there is one. -/
def modify (key : String) (f : Tree → Tree) : Tree → Tree
  | .map fields => .map (fields.map fun (k, v) => if k = key then (k, f v) else (k, v))
  | t => t

def modifyAll (f : Tree → Tree) : Tree → Tree
  | .map fields => .map (fields.map fun (k, v) => (k, f v))
  | t => t

/-- Changes the fields of a mapping as a whole. -/
def modifyFields (f : List (String × Tree) → List (String × Tree)) : Tree → Tree
  | .map fields => .map (f fields)
  | t => t

def modifyItems (f : Nat → Tree → Tree) : Tree → Tree
  | .seq items => .seq (items.mapIdx f)
  | t => t

section
variable {m : Type → Type} [Monad m]

def modifyM (key : String) (f : Tree → m Tree) : Tree → m Tree
  | .map fields => return .map (← fields.mapM fun (k, v) =>
      if k = key then return (k, ← f v) else return (k, v))
  | t => return t

def modifyAllM (f : Tree → m Tree) : Tree → m Tree
  | .map fields => return .map (← fields.mapM fun (k, v) => return (k, ← f v))
  | t => return t

end

end ScraperTimeline.Tree

/-- Adds a field at the end unless the key is there. -/
def ScraperTimeline.Fields.default {α : Type} (key : String) (value : α)
    (fields : List (String × α)) : List (String × α) :=
  if has key fields then fields else fields ++ [(key, value)]
