import ScraperTimeline.Fault
import ScraperTimeline.Files.Basic
import ScraperTimeline.Schema.Packaged

/-!
Resources by id. A packaged text goes before a file, and a path that is not absolute starts at the base
directory. Listing gives back ids under which the files are found.
-/
namespace ScraperTimeline

structure Resources where
  packaged : List (String × String)
  base : Option String

namespace Resources

/-- The packaged contracts, and files below a base. -/
def below (base : Option String) : Resources := ⟨Schema.Packaged.documents, base⟩

/-- Packages a text; it goes before one of the same id. -/
def withPackaged (id text : String) (r : Resources) : Resources :=
  { r with packaged := (id, text) :: r.packaged }

def isPackaged (r : Resources) (id : String) : Bool := (r.packaged.lookup id).isSome

/-- The path of a file by its id. -/
def pathOf (r : Resources) (id : String) : String :=
  match r.base with
  | some base => Path.within base id
  | none => id

inductive Origin where
  | packaged
  | file (path : String)
deriving DecidableEq, Repr

structure Resource where
  id : String
  origin : Origin
  text : String
deriving DecidableEq, Repr

def read (r : Resources) (fs : Files) (id : String) : Except Fault Resource :=
  match r.packaged.lookup id with
  | some text => .ok ⟨id, .packaged, text⟩
  | none =>
    match fs.readAt (r.pathOf id) with
    | .ok text => .ok ⟨id, .file (r.pathOf id), text⟩
    | .error e => .error (.sourceNotFound id e.message)

/-- The id of a file: what its path says below the base, if it is below it. -/
def idOf (r : Resources) (text : String) : String :=
  match r.base with
  | some base => (Path.below? base text).getD text
  | none => text

-- Whether names from the outermost on do not come after others, name by name.
def namesLe : List String → List String → Bool
  | [], _ => true
  | _ :: _, [] => false
  | a :: as, b :: bs => if a < b then true else if a = b then namesLe as bs else false

def sortWays (ways : List Path) : List Path :=
  ways.mergeSort fun a b => namesLe a.reverse b.reverse

def hasExtension (extensions : List String) (way : Path) : Bool :=
  (way.head?.bind Path.extension?).any (extensions.contains ·)

/-- The ids of the files below a directory that have one of the extensions. -/
def list (r : Resources) (fs : Files) (dir : String) (extensions : List String) :
    Except Fault (List String) :=
  match fs.directoryAt? (r.pathOf dir) with
  | none => .error (.sourceNotFound dir "not a directory")
  | some place =>
    let ways := fs.filesBelow (hasExtension extensions) place
    .ok ((sortWays ways).map fun way => r.idOf (Path.within (r.pathOf dir) way.wayText))

end Resources
end ScraperTimeline
