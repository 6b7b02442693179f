import ScraperTimeline.Tree.Fields

/-!
Merging of documents. Mappings merge key by key; of anything else the later one is taken whole.
-/
namespace ScraperTimeline.Tree

mutual

/-- Merges the second tree onto the first: keys keep their places, new ones follow. -/
def merge (base overlay : Tree) : Tree :=
  match overlay with
  | .map changes =>
    match base with
    | .map fields => .map (mergeFields fields changes)
    | _ => .map changes
  | other => other

def mergeFields (fields changes : List (String × Tree)) : List (String × Tree) :=
  match changes with
  | [] => fields
  | (key, value) :: rest =>
    let merged := match fields.lookup key with
      | some previous => merge previous value
      | none => value
    mergeFields (Fields.put key merged fields) rest

end

/-- Merges documents from left to right, if there are any. -/
def mergeAll? : List Tree → Option Tree
  | [] => none
  | first :: rest => some (rest.foldl merge first)

end ScraperTimeline.Tree
