import ScraperTimeline.Normal.Axis
import ScraperTimeline.Normal.Steps

/-!
Normalization turns a defined tree into an effective one. The passes have a fixed order, in which each
relies on the ones before it.
-/
namespace ScraperTimeline.Normal

inductive Pass where
  | addFactAxis
  | addIndex
  | addOrder
  | expandSteps
  | setDefaultSteps
  | expandTaskSteps
deriving DecidableEq, Repr

namespace Pass

/-- The passes in the order in which they run. -/
def order : List Pass :=
  [addFactAxis, addIndex, addOrder, expandSteps, setDefaultSteps, expandTaskSteps]

def name : Pass → String
  | addFactAxis => "add_fact_dim"
  | addIndex => "add_item_index"
  | addOrder => "add_item_order"
  | expandSteps => "expand_steps"
  | setDefaultSteps => "set_default_steps"
  | expandTaskSteps => "expand_task_steps"

def run (defaultGroup : String) : Pass → Tree → Except Fault Tree
  | addFactAxis, defs => .ok (Normal.addFactAxis defs)
  | addIndex, defs => .ok (Normal.addIndex defs)
  | addOrder, defs => .ok (Normal.addOrder defs)
  | expandSteps, defs => Normal.expandSteps defs
  | setDefaultSteps, defs => .ok (Normal.setDefaultSteps defaultGroup defs)
  | expandTaskSteps, defs => Normal.expandTaskSteps defs

end Pass

/-- The effective tree of a defined one. -/
def normalize (defaultGroup : String) (defined : Tree) : Except Fault Tree :=
  Pass.order.foldlM (fun defs pass => pass.run defaultGroup defs) defined

end ScraperTimeline.Normal
