import ScraperTimeline.Artifact.Fingerprint
import ScraperTimeline.Digest.Crc32
import ScraperTimeline.Files.Basic
import ScraperTimeline.Instant.Text
import ScraperTimeline.Json.Printer
import ScraperTimeline.Json.Record
import ScraperTimeline.World

/-!
A cache of artifacts in files. An artifact lies in an envelope with a checksum of its payload, and is
given out only if the checksum is right.
-/
namespace ScraperTimeline

structure Artifact where
  payload : String
  /-- Sorted by key, each key once. -/
  metadata : List (String × String)
deriving DecidableEq, Repr

/-- An artifact with metadata, of which the last value of a key counts. -/
def Artifact.ofList (payload : String) (metadata : List (String × String)) : Artifact :=
  ⟨payload, metadata.foldl (fun sorted (key, value) => Json.insertSorted key value sorted) []⟩

structure ArtifactKey where
  dir : Fingerprint
  file : Fingerprint
deriving DecidableEq, Repr

namespace ArtifactKey

def fileName (k : ArtifactKey) : String := "data-" ++ k.file.text

def text (k : ArtifactKey) : String := k.dir.text ++ "/" ++ k.fileName

/-- Where the artifact is, in a cache below a root. -/
def place (root : Path) (k : ArtifactKey) : Path := k.fileName :: k.dir.text :: root

end ArtifactKey

/-- The checksum of a text. -/
def textChecksum (s : String) : Nat := (Crc32.checksum s.toUTF8.data.toList).toNat

/-- What is stored of an artifact. -/
structure Envelope where
  checksum : Nat
  savedAt : Instant
  metadata : List (String × String)
  payload : String
deriving DecidableEq, Repr

namespace Envelope

def ofArtifact (savedAt : Instant) (a : Artifact) : Envelope :=
  ⟨textChecksum a.payload, savedAt, a.metadata, a.payload⟩

def isSound (e : Envelope) : Bool := textChecksum e.payload = e.checksum

def artifact (e : Envelope) : Artifact := ⟨e.payload, e.metadata⟩

def metadataTree (e : Envelope) : Tree := .map (e.metadata.map fun (k, v) => (k, .string v))

def toTree (e : Envelope) : Tree :=
  .map [("checksum", .int (Int64.ofNat e.checksum)), ("saved_at", .string e.savedAt.storedText),
    ("metadata", e.metadataTree), ("payload", .string e.payload)]

def metadata? : Json → Option (List (String × String))
  | .object fields => do
    let entries ← fields.mapM fun (key, value) => value.string?.map fun v => (key, v)
    return (Artifact.ofList "" entries).metadata
  | _ => none

def ofParts? (checksum savedAt metadata payload : Json) : Option Envelope := do
  let savedAt ← Instant.read? (← savedAt.string?)
  return ⟨← checksum.unsigned? 32, savedAt, ← metadata? metadata, ← payload.string?⟩

/-- Reads an envelope, with its fields in any order and others among them, or its parts alone. -/
def ofJson? : Json → Option Envelope
  | .object fields => do
    ofParts? (← Json.field? "checksum" fields) (← Json.field? "saved_at" fields)
      (← Json.field? "metadata" fields) (← Json.field? "payload" fields)
  | .array [checksum, savedAt, metadata, payload] => ofParts? checksum savedAt metadata payload
  | _ => none

def read? (text : String) : Option Envelope := (Json.read? text.toList).bind ofJson?

end Envelope

/-- A cache is a directory. -/
structure Cache where
  root : Path
deriving Repr

namespace Cache

open Working

def reject {α : Type} (k : ArtifactKey) (reason : String) : Working Fault α := do
  emit .artifactRejected [("key", k.text), ("reason", reason)]
  throw (.integrityFailure k.text)

-- The artifact of a stored text.
def opened (k : ArtifactKey) (text : String) : Working Fault Artifact := do
  match Envelope.read? text with
  | none => reject k Fault.unreadable
  | some e => if e.isSound then return e.artifact else reject k "checksum mismatch"

/-- The artifact of a key, if there is one. -/
def get (c : Cache) (k : ArtifactKey) : Working Fault (Option Artifact) := do
  match (← MonadState.get).files.read (k.place c.root) with
  | .ok text => return some (← opened k text)
  | .error .notFound => return none
  | .error .notText => reject k Fault.unreadable
  | .error e => throw (.storeFailed e.message)

def save (c : Cache) (savedAt : Instant) (k : ArtifactKey) (a : Artifact) : Working Fault Unit := do
  let text := (Envelope.ofArtifact savedAt a).toTree.toJson
  match ← filing (Files.replace (k.place c.root) text) with
  | .ok _ => emit .artifactSaved [("key", k.text), ("bytes", toString text.utf8ByteSize)]
  | .error e => throw (.storeFailed e.message)

/-- Whether there was an artifact to delete. -/
def delete (c : Cache) (k : ArtifactKey) : Working Fault Bool := do
  match ← filing (Files.remove (k.place c.root)) with
  | .ok _ => return true
  | .error .notFound => return false
  | .error e => throw (.storeFailed e.message)

end Cache
end ScraperTimeline
