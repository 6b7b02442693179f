import ScraperTimeline.Axis.Members
import ScraperTimeline.Command.Basic
import ScraperTimeline.Command.Failure
import ScraperTimeline.Config.Reader
import ScraperTimeline.Pipeline
import ScraperTimeline.Timeline.FileStore
import ScraperTimeline.World
import ScraperTimeline.Yaml.Printer

/-!
Running commands. Each loads the configuration first, and its result is the text that it shows.
-/
namespace ScraperTimeline.Command

/-- When a command runs, and the id of its run. -/
structure Occasion where
  now : Instant
  runId : String

/-- The work of a command. -/
abbrev Task := Working CommandFailure

namespace Task

def ofExcept {α : Type} : Except Fault α → Task α
  | .ok a => return a
  | .error e => throw (.ofFault e)

def traced {α : Type} (x : Files → Traced Fault α) : Task α :=
  Working.traced fun fs => (x fs).adapt CommandFailure.ofFault

/-- Does something with a store in the files. -/
def withStore {α : Type} (s : FileStore) (x : StateM FileStore α) : Task α := do
  let w ← get
  let (a, s) := x.run { s with files := w.files }
  set { w with files := s.files }
  return a

def storing {α : Type} (s : FileStore) (x : Storing FileStore α) : Task α := do
  ofExcept (← withStore s x.run)

end Task

/-! ### What commands share -/

def loadConfig (path : String) : Task Config := do
  let c ← Task.ofExcept (Config.load (← get).files path)
  Working.emit .configLoaded [("path", path)]
  return c

def openStore (c : Config) : Task FileStore := do
  let w ← get
  let (result, files) := FileStore.openAt (c.resolve c.storeDir) c.high w.files
  set { w with files }
  Task.ofExcept result

def buildPipeline (c : Config) : Task Pipeline :=
  Task.traced (Pipeline.build c (Resources.below c.base))

/-- The effective tree of the documents. -/
def loadEffective (path : String) : Task Tree := do
  let p ← buildPipeline (← loadConfig path)
  Task.traced fun fs => do p.effectiveOf (← p.loadDefined fs)

/-- The text of an answer. -/
def response (data : Tree) : String :=
  (Tree.map [("status", .string "ok"), ("data", data)]).plain.toPrettyJson ++ "\n"

def line (text : String) : String := if text.endsWith "\n" then text else text ++ "\n"

def instantTree (t : Instant) : Tree := .string t.reportText

/-! ### Commands -/

def runValidate (path : String) : Task String := do
  let effective ← loadEffective path
  let names := (Timeline.definitions effective).map (·.1)
  return response (.map [("valid", .bool true), ("data_defs", .seq (names.map .string))])

def runEffective (path : String) : Task String := return line (← loadEffective path).toYaml

def outcomeTree (name : String) (o : Outcome) : Tree :=
  .map <| [("name", .string name), ("outcome", .string o.label)] ++
    match o with
    | .superseded closedAt => [("closed_at", instantTree closedAt)]
    | _ => []

/-- Brings versions into the store. -/
def reconcile (c : Config) (s : FileStore) (vs : List Version) : Task Sync.Report := do
  let (result, trace) ← Task.withStore s (Pipeline.reconcile c vs)
  modify fun w => { w with trace := w.trace ++ trace }
  Task.ofExcept result

def runCompile (o : Occasion) (path : String) (dryRun : Bool) (at_ : Option Instant) :
    Task String := do
  let c ← loadConfig path
  let s ← openStore c
  let p ← buildPipeline c
  let run ← Task.traced fun fs => p.compile fs o.runId (at_.getD o.now)
  let outcomes ←
    if dryRun then Task.storing s (Sync.foresee c.high run.versions)
    else reconcile c s run.versions
  return response (.map [("run_id", .string o.runId), ("run_timestamp", instantTree run.start),
    ("dry_run", .bool dryRun), ("outcomes", .seq (outcomes.map fun (name, o) => outcomeTree name o))])

def versionTree (high : Instant) (v : Version) : Tree :=
  .map [("name", .string v.name), ("from_date", instantTree v.start), ("to_date", instantTree v.stop),
    ("open", .bool (v.isOpen high)), ("def", v.body)]

def runHistory (path name : String) : Task String := do
  let c ← loadConfig path
  let s ← openStore c
  match ← Task.storing s (Store.findAll name) with
  | [] => throw (.notFound ("no versions stored for '" ++ name ++ "'"))
  | versions =>
    return response (.map [("name", .string name),
      ("versions", .seq (versions.map (versionTree c.high)))])

def memberTree (m : Member) : Tree := .map [("axes", .seq (m.map Axis.toTree))]

def runMembers (o : Occasion) (path name : String) (at_ : Option Instant) : Task String := do
  let s ← openStore (← loadConfig path)
  let t := at_.getD o.now
  match ← Task.storing s (Store.findActive name t) with
  | none => throw (.notFound ("no version of '" ++ name ++ "' active at " ++ t.reportText))
  | some v =>
    let members ← Task.ofExcept v.members
    return response (.map [("name", .string v.name), ("from_date", instantTree v.start),
      ("members", .seq (members.map memberTree))])

/-- Runs a command. -/
def run (o : Occasion) : Command → Task String
  | validate path => runValidate path
  | effective path => runEffective path
  | compile path dryRun at_ => runCompile o path dryRun at_
  | history path name => runHistory path name
  | members path name at_ => runMembers o path name at_

end ScraperTimeline.Command
