import ScraperTimeline.Fault
import ScraperTimeline.Tree.Update

/-!
Expansion of step groups. A group is a sequence of steps, and a string in it stands for the steps of
another group. `expandWith` follows the references with a stack of open groups and keeps what it has
expanded; `inline` says what comes out, by plain recursion.
-/
namespace ScraperTimeline.Normal

abbrev Groups := List (String × Tree)

/-- The entries of a group. -/
def entries? (groups : Groups) (name : String) : Except Fault (List Tree) :=
  match (groups.lookup name).bind Tree.items? with
  | some entries => .ok entries
  | none => .error (.definitionNotFound "step group" name)

/-! ### The meaning of references -/

mutual

/-- The steps of a list of entries, in which no group may be open twice: `left` are the groups that
are not open, and `open_` the names of the others from the outermost in. -/
def inlineEntries (groups : Groups) (open_ : List String) (left : Groups) :
    List Tree → Except Fault (List Tree)
  | [] => .ok []
  | .string name :: rest => do
    let steps ← inlineGroup groups open_ left name
    return steps ++ (← inlineEntries groups open_ left rest)
  | step :: rest => do return step :: (← inlineEntries groups open_ left rest)
termination_by entries => (left.length, 1, entries.length)

def inlineGroup (groups : Groups) (open_ : List String) (left : Groups) (name : String) :
    Except Fault (List Tree) :=
  if name ∈ open_ then .error (.cyclicSteps (open_ ++ [name]))
  else do
    let entries ← entries? groups name
    if _h : (left.filter (·.1 ≠ name)).length < left.length then
      inlineEntries groups (open_ ++ [name]) (left.filter (·.1 ≠ name)) entries
    else return []
termination_by (left.length, 0, 0)
decreasing_by
  simp only [ne_eq, decide_not] at _h ⊢
  exact Prod.Lex.left _ _ _h

end

/-- The steps that a list of entries stands for. -/
def inlined (groups : Groups) (entries : List Tree) : Except Fault (List Tree) :=
  inlineEntries groups [] groups entries

/-- The steps of a group. -/
def inlinedGroup (groups : Groups) (name : String) : Except Fault (List Tree) :=
  inlineGroup groups [] groups name

/-! ### Expansion -/

/-- The groups that have been expanded. -/
abbrev Expanded := List (String × List Tree)

/-- A list of entries that is being expanded, a group's if it has a name. -/
structure Frame where
  name : Option String
  entries : List Tree
  steps : List Tree

def openNames (stack : List Frame) : List String := (stack.filterMap (·.name)).reverse

/-- A computation that keeps what it has expanded, also where it fails. -/
abbrev Expanding := ExceptT Fault (StateM Expanded)

/-- Works off a stack of open lists, the innermost first, in a bounded number of steps. -/
def expandStack (groups : Groups) : Nat → List Frame → Expanding (List Tree)
  | 0, _ => return []
  | _, [] => return []
  | fuel + 1, frame :: outer => do
    match frame.entries with
    | [] =>
      if let some name := frame.name then modify ((name, frame.steps) :: ·)
      match outer with
      | [] => return frame.steps
      | parent :: outer =>
        expandStack groups fuel ({ parent with steps := parent.steps ++ frame.steps } :: outer)
    | .string name :: rest =>
      let frame := { frame with entries := rest }
      match (← get).lookup name with
      | some steps =>
        expandStack groups fuel ({ frame with steps := frame.steps ++ steps } :: outer)
      | none =>
        if name ∈ openNames (frame :: outer) then
          throw (.cyclicSteps (openNames (frame :: outer) ++ [name]))
        else
          let entries ← (entries? groups name : Except Fault (List Tree))
          expandStack groups fuel (⟨some name, entries, []⟩ :: frame :: outer)
    | step :: rest =>
      expandStack groups fuel
        ({ frame with entries := rest, steps := frame.steps ++ [step] } :: outer)

-- The items of a sequence.
def itemCount (t : Tree) : Nat := (t.items?.getD []).length

/-- Each group is opened at most once, so this many steps suffice: one an entry and one a list. -/
def stepBound (groups : Groups) (entries : List Tree) : Nat :=
  groups.foldl (fun n (_, group) => n + itemCount group + 1) (entries.length + 2)

/-- Expands a list of entries that belongs to no group. -/
def expandEntries (groups : Groups) (entries : List Tree) : Expanding (List Tree) :=
  expandStack groups (stepBound groups entries) [⟨none, entries, []⟩]

/-- Expands a group, unless that has been done. -/
def expandGroup (groups : Groups) (name : String) : Expanding (List Tree) := do
  match (← get).lookup name with
  | some steps => return steps
  | none =>
    let entries ← (entries? groups name : Except Fault (List Tree))
    expandStack groups (stepBound groups entries) [⟨some name, entries, []⟩]

/-- Runs a computation that starts with nothing expanded. -/
def Expanding.start {α : Type} (x : Expanding α) : Except Fault α := (x.run.run []).1

/-! ### Passes -/

def groupsOf (defs : Tree) : Groups := ((defs.field? "steps").bind Tree.fields?).getD []

/-- Expands each step group; what is no sequence is no group and stays. -/
def expandSteps (defs : Tree) : Except Fault Tree :=
  let groups := groupsOf defs
  (defs.modifyM "steps" fun steps =>
    match steps with
    | .map fields => return .map (← fields.mapM fun (name, group) => do
        if group.items?.isSome then return (name, .seq (← expandGroup groups name))
        else return (name, group))
    | other => return other : Expanding Tree).start

/-- Changes each task, which is a mapping inside a mapping inside the task groups. -/
def eachTask {m : Type → Type} [Monad m] (f : List (String × Tree) → m (List (String × Tree))) :
    Tree → m Tree :=
  Tree.modifyM "taskGroups" <| Tree.modifyAllM <| Tree.modifyAllM fun task =>
    match task with
    | .map fields => return .map (← f fields)
    | other => return other

/-- Gives each task without steps the default group. -/
def setDefaultSteps (defaultGroup : String) (defs : Tree) : Tree :=
  Id.run <| eachTask (fun task => pure (Fields.default "steps" (.string defaultGroup) task)) defs

/-- The steps of a task in full: of a group that it names, or of its own list. -/
def expandTask (groups : Groups) (task : List (String × Tree)) :
    Expanding (List (String × Tree)) := do
  match task.lookup "steps" with
  | some (.string name) => return Fields.put "steps" (.seq (← expandGroup groups name)) task
  | some (.seq entries) => return Fields.put "steps" (.seq (← expandEntries groups entries)) task
  | _ => return task

def expandTaskSteps (defs : Tree) : Except Fault Tree :=
  (eachTask (expandTask (groupsOf defs)) defs : Expanding Tree).start

end ScraperTimeline.Normal
