import ScraperTimeline.Files.Path

/-!
A file system without links: directories, and files that hold a text. Operations fail for the reasons
for which those of a file system fail, with the same texts.
-/
namespace ScraperTimeline

inductive FileFault where
  | notFound
  | alreadyThere
  | notDirectory
  | isDirectory
  | nameTooLong
  | nulInName
  | notText
deriving DecidableEq, Repr

def FileFault.message : FileFault → String
  | notFound => "No such file or directory (os error 2)"
  | alreadyThere => "File exists (os error 17)"
  | notDirectory => "Not a directory (os error 20)"
  | isDirectory => "Is a directory (os error 21)"
  | nameTooLong => "File name too long (os error 36)"
  | nulInName => "file name contained an unexpected NUL byte"
  | notText => "stream did not contain valid UTF-8"

inductive Entry where
  | directory
  /-- There is no text if the bytes are not UTF-8. -/
  | file (text : Option String)
deriving DecidableEq, Repr

structure Files where
  /-- What is at the places other than the root, each place once. -/
  entries : List (Path × Entry)
  /-- Where paths start that do not start at the root. -/
  current : Path
deriving Repr

/-- An operation on files. What it did before it failed stays done. -/
abbrev Filing := ExceptT FileFault (StateM Files)

namespace Files

def empty : Files := ⟨[], []⟩

def at? (fs : Files) (p : Path) : Option Entry :=
  if p = [] then some .directory else fs.entries.lookup p

def set (p : Path) (e : Entry) (fs : Files) : Files :=
  { fs with entries := (p, e) :: fs.entries.filter (·.1 ≠ p) }

def erase (p : Path) (fs : Files) : Files :=
  { fs with entries := fs.entries.filter (·.1 ≠ p) }

/-- The most bytes in a name. -/
def longestName : Nat := 255

/-- Whether there can be an entry at a place: it has a name that is not too long, in a directory. -/
def room (fs : Files) : Path → Except FileFault Unit
  | [] => .ok ()
  | name :: dir =>
    match fs.at? dir with
    | some .directory => if longestName < name.utf8ByteSize then .error .nameTooLong else .ok ()
    | some (.file _) => .error .notDirectory
    | none => do
      fs.room dir
      .error .notFound

/-- Why a place without an entry cannot be read. -/
def absence (fs : Files) (p : Path) : FileFault :=
  match fs.room p with
  | .ok _ => .notFound
  | .error e => e

def isDirectory (fs : Files) (p : Path) : Bool := fs.at? p = some .directory

def read (fs : Files) (p : Path) : Except FileFault String :=
  match fs.at? p with
  | some (.file (some text)) => .ok text
  | some (.file none) => .error .notText
  | some .directory => .error .isDirectory
  | none => .error (fs.absence p)

/-- The entries of a directory. -/
def children (fs : Files) (dir : Path) : List (String × Entry) :=
  fs.entries.filterMap fun (p, e) =>
    match p with
    | name :: d => if d = dir then some (name, e) else none
    | [] => none

/-- The ways to the directories and to the files of a directory. -/
def directoriesIn (way : Path) (entries : List (String × Entry)) : List Path :=
  entries.filterMap fun (name, e) => if e = .directory then some (name :: way) else none

def filesIn (way : Path) (entries : List (String × Entry)) : List Path :=
  entries.filterMap fun (name, e) => if e = .directory then none else some (name :: way)

/-- Looks into the directories that wait, the last one first, and adds the wanted files in them to those
that have been found, in a bounded number of steps. All are told by the ways to them from one directory. -/
def walk (fs : Files) (wanted : Path → Bool) (dir : Path) : Nat → List Path → List Path → List Path
  | 0, _, found => found
  | _, [], found => found
  | fuel + 1, way :: waiting, found =>
    let entries := fs.children (way ++ dir)
    walk fs wanted dir fuel ((directoriesIn way entries).reverse ++ waiting)
      (found ++ (filesIn way entries).filter wanted)

/-- The wanted files below a directory. Each directory below it is an entry, so that the steps suffice. -/
def filesBelow (fs : Files) (wanted : Path → Bool) (dir : Path) : List Path :=
  fs.walk wanted dir (fs.entries.length + 1) [[]] []

/-! ### Changes -/

def write (p : Path) (text : String) : Filing Unit := do
  match (← get).at? p with
  | some .directory => throw .isDirectory
  | some (.file _) => modify (set p (.file text))
  | none =>
    (← get).room p
    modify (set p (.file text))

/-- Makes a file where there is nothing yet. -/
def create (p : Path) (text : String) : Filing Unit := do
  match (← get).at? p with
  | some _ => throw .alreadyThere
  | none =>
    (← get).room p
    modify (set p (.file text))

def remove (p : Path) : Filing Unit := do
  match (← get).at? p with
  | some (.file _) => modify (erase p)
  | some .directory => throw .isDirectory
  | none => throw ((← get).absence p)

/-- Moves a file; another file at the new place is replaced. -/
def rename (source target : Path) : Filing Unit := do
  match (← get).at? source, (← get).at? target with
  | none, _ => throw ((← get).absence source)
  | some _, some .directory => throw .isDirectory
  | some e, some (.file _) => modify fun fs => (fs.erase source).set target e
  | some e, none =>
    (← get).room target
    modify fun fs => (fs.erase source).set target e

/-- Makes a directory and those around it, as far as they are missing. -/
def ensure : Path → Filing Unit
  | [] => return
  | name :: dir => do
    match (← get).at? (name :: dir) with
    | some .directory => return
    | some (.file _) => throw .alreadyThere
    | none =>
      if let some (.file _) := (← get).at? dir then throw .notDirectory
      ensure dir
      (← get).room (name :: dir)
      modify (set (name :: dir) .directory)

/-- Writes a file as a whole: beside its place first, then moved there. -/
def replace (p : Path) (text : String) : Filing Unit := do
  match p with
  | [] => throw .isDirectory
  | name :: dir =>
    ensure dir
    write ((name ++ ".tmp") :: dir) text
    rename ((name ++ ".tmp") :: dir) (name :: dir)

/-! ### Places by text -/

def start (fs : Files) (text : String) : Path := if Path.isAbsolute text then [] else fs.current

/-- Goes on from a place, which has to be a directory, along one piece of text. -/
def advance (fs : Files) (p : Path) (piece : String) : Except FileFault Path :=
  match fs.at? p with
  | some .directory => .ok (p.step piece)
  | some (.file _) => .error .notDirectory
  | none => .error (fs.absence p)

/-- The place that a text names. -/
def locate (fs : Files) (text : String) : Except FileFault Path :=
  if text.isEmpty then .error .notFound
  else if text.toList.contains '\x00' then .error .nulInName
  else (Path.pieces text).foldlM fs.advance (fs.start text)

def readAt (fs : Files) (text : String) : Except FileFault String := do fs.read (← fs.locate text)

/-- The directory that a text names, if it does. -/
def directoryAt? (fs : Files) (text : String) : Option Path :=
  match fs.locate text with
  | .ok p => if fs.isDirectory p then some p else none
  | .error _ => none

-- Makes the directory at a place, then goes on.
def advanceMaking (p : Path) (piece : String) : Filing Path := do
  if let some (.file _) := (← get).at? p then throw .notDirectory
  ensure p
  return p.step piece

/-- Makes the directory that a text names, and those around it. A dot at the end asks for a directory
that is there. -/
def ensureAt (text : String) : Filing Path := do
  if text.toList.contains '\x00' then throw .nulInName
  let pieces := Path.pieces text
  let start := (← get).start text
  if (pieces.reverse.dropWhile (· = "")).head? = some "." then
    ensure (← (Path.trimEnd pieces).dropLast.foldlM advanceMaking start)
    let p ← (← get).locate text
    let _ ← (← get).advance p ""
    return p
  else
    let p ← pieces.foldlM advanceMaking start
    ensure p
    return p

end Files
end ScraperTimeline
