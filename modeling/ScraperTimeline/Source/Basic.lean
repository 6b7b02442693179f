import ScraperTimeline.Source.Resources
import ScraperTimeline.Tree.Merge
import ScraperTimeline.Tree.Update
import ScraperTimeline.Yaml.Reader

/-!
Definition documents: found below a directory, read, and merged into one tree, of which a later document
decides over an earlier one. Default step groups replace groups of the same name.
-/
namespace ScraperTimeline.Source

/-- The extensions of definition documents. -/
def extensions : List String := ["yml", "yaml"]

/-- The ids of the definition documents of a directory. -/
def discover (r : Resources) (fs : Files) (dir : String) : Except Fault (List String) := do
  match ← r.list fs dir extensions with
  | [] => .error (.sourceNotFound dir "no definitions file found")
  | ids => return ids

/-- The tree of one document. -/
def loadOne (r : Resources) (fs : Files) (id : String) : Except Fault Tree := do
  let resource ← r.read fs id
  match Tree.ofYaml? resource.text with
  | none => .error (.malformedSource id Fault.unreadable)
  | some t =>
    if t.isMap then return t
    else .error (.malformedSource id ("top level must be a mapping, found " ++ t.kind.name))

/-- The merged tree of documents, in their order. -/
def load (r : Resources) (fs : Files) (ids : List String) : Except Fault Tree := do
  match Tree.mergeAll? (← ids.mapM (loadOne r fs)) with
  | some t => return t
  | none => .error (.sourceNotFound "<none>" "empty source list")

/-- The document of the default step groups. -/
def loadDefaultSteps (r : Resources) (fs : Files) (id : String) : Except Fault Tree := do
  let t ← loadOne r fs id
  if (t.field? "steps").any Tree.isMap then return t
  else .error (.malformedSource id "expected a 'steps' mapping")

-- The groups of a tree, none if it has none that are named.
def putGroups (groups : List (String × Tree)) (steps : Tree) : Tree :=
  .map (groups.foldl (fun all (name, group) => Fields.put name group all) (steps.fields?.getD []))

/-- Puts the default step groups among those of the definitions. -/
def mergeDefaultSteps (defaults defs : Tree) : Tree :=
  match (defaults.field? "steps").bind Tree.fields? with
  | none => defs
  | some groups =>
    defs.modifyFields fun fields =>
      Fields.put "steps" (putGroups groups ((fields.lookup "steps").getD (.map []))) fields

end ScraperTimeline.Source
