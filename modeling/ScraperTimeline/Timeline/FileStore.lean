import ScraperTimeline.Files.Basic
import ScraperTimeline.Timeline.Record
import ScraperTimeline.Timeline.Store

/-!
A store with one file for each history, in one directory. While it writes, a lock file keeps other
writers of the name out; one that was left behind keeps them out until it is removed.
-/
namespace ScraperTimeline

structure FileStore where
  dir : Path
  high : Instant
  files : Files
deriving Repr

/-- A failure of the file system as one of the store. -/
def FileFault.toFault (e : FileFault) : Fault := .storeFailed e.message

namespace FileStore

def historyFile (name : String) : String := name ++ ".json"

def lockFile (name : String) : String := name ++ ".lock"

/-- Opens the store in a directory, which is made if it is missing. -/
def openAt (dir : String) (high : Instant) (fs : Files) : Except Fault FileStore × Files :=
  match (Files.ensureAt dir).run.run fs with
  | (.ok p, fs) => (.ok ⟨p, high, fs⟩, fs)
  | (.error e, fs) => (.error e.toFault, fs)

/-- Does something with the files. -/
def filing {α : Type} (x : Filing α) : Storing FileStore α := do
  let s ← get
  let (result, files) := x.run.run s.files
  set { s with files }
  match result with
  | .ok a => return a
  | .error e => throw e.toFault

/-- The history that a file holds. -/
def readHistory (s : FileStore) (name : String) : Except Fault History :=
  let unreadable : Fault :=
    .storeFailed ("unreadable history for '" ++ name ++ "': " ++ Fault.unreadable)
  match s.files.read (historyFile name :: s.dir) with
  | .ok text => (History.ofJson? text).elim (.error unreadable) .ok
  | .error .notFound => .ok []
  | .error .notText => .error unreadable
  | .error e => .error e.toFault

def history (name : String) : Storing FileStore History := do
  Store.checkName name
  (← get).readHistory name

def writeHistory (name : String) (h : History) : Storing FileStore Unit := do
  filing (Files.replace (historyFile name :: (← get).dir) h.toJson)

/-- Makes the lock file of a name. -/
def lock (name : String) : Storing FileStore Unit := do
  let s ← get
  match (Files.create (lockFile name :: s.dir) "").run.run s.files with
  | (.ok _, files) => set { s with files }
  | (.error .alreadyThere, _) => throw (.concurrentModification name)
  | (.error e, _) => throw e.toFault

def unlock (name : String) : Storing FileStore Unit :=
  modify fun s => { s with files := ((Files.remove (lockFile name :: s.dir)).run.run s.files).2 }

/-- Does something while the lock of a name is held. -/
def locked (name : String) (x : Storing FileStore Unit) : Storing FileStore Unit := do
  lock name
  try x
  catch e =>
    unlock name
    throw e
  unlock name

def put (v : Version) : Storing FileStore Unit := do
  Store.checkName v.name
  locked v.name do
    writeHistory v.name ((← history v.name).put v)

def swap (name : String) (expected : Option Version) (writes : List Version) :
    Storing FileStore Unit := do
  Store.checkName name
  Store.checkWrites name writes
  locked name do
    writeHistory name (← Store.swapped (← get).high name expected writes (← history name))

/-- The names of the history files. -/
def names : Storing FileStore (List String) := do
  let s ← get
  match s.files.at? s.dir with
  | some .directory =>
    return Store.sortNames <| ((s.files.children s.dir).map (·.1)).filterMap fun file =>
      if Path.extension? file = some "json" then some (Path.stem file) else none
  | some (.file _) => throw FileFault.notDirectory.toFault
  | none => throw (s.files.absence s.dir).toFault

instance : Store FileStore where
  names := names
  findAll name := return History.sortByStart (← history name)
  findOpen name := return (← history name).open? (← get).high
  put := put
  swap := swap

end FileStore
end ScraperTimeline
