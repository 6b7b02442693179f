import ScraperTimeline.Json.Value
import ScraperTimeline.Schema.Check
import ScraperTimeline.Schema.Reader
import ScraperTimeline.Schema.Packaged

/-!
Contracts: named schemas with a version. A tree meets a contract if there are no violations.
-/
namespace ScraperTimeline

/-- How many violations a validation reports. -/
inductive Policy where
  | collectAll
  | failFast
deriving DecidableEq, Repr

def Policy.name : Policy → String
  | .collectAll => "collect_all"
  | .failFast => "fail_fast"

def Policy.ofName? (s : String) : Option Policy := [Policy.collectAll, .failFast].find? (·.name = s)

structure Contract where
  name : String
  version : String
  document : Tree
  schema : Schema
  /-- The places that references name. -/
  definitions : List (String × Schema)

namespace Contract

/-- The contract of a document. -/
def ofDocument? (name : String) (document : Tree) : Option Contract := do
  let refAlone ← Schema.refAlone? document
  let schema ← Schema.ofTree? refAlone document
  let size := Schema.nodes document + 1
  let definitions ← Schema.definitions? refAlone document (size * size) schema.refs []
  let version := ((document.field? "version").bind Tree.string?).getD "unversioned"
  return ⟨name, version, document, schema, definitions⟩

/-- The contract of a JSON text. -/
def ofText (name text : String) : Except Fault Contract :=
  match Tree.ofSortedJson? text with
  | none => .error (.malformedSource name Fault.unreadable)
  | some document =>
    match ofDocument? name document with
    | none => .error (.malformedSource name ("invalid schema: " ++ Fault.unreadable))
    | some contract => .ok contract

/-- Checks what a reference demands; the first argument bounds how many are followed in a row. -/
def follow (c : Contract) : Nat → String → String → Tree → List Violation
  | 0, _, _, _ => []
  | n + 1, target, path, t =>
    match c.definitions.lookup target with
    | some s => s.check (c.follow n) path t
    | none => []

mutual

def depth : Tree → Nat
  | .seq ts => depthOfList ts + 1
  | .map fields => depthOfFields fields + 1
  | _ => 0

def depthOfList : List Tree → Nat
  | [] => 0
  | t :: rest => max (depth t) (depthOfList rest)

def depthOfFields : List (String × Tree) → Nat
  | [] => 0
  | (_, t) :: rest => max (depth t) (depthOfFields rest)

end

/-- References to follow on the way to the deepest node: at each node no place is needed twice. -/
def followBound (c : Contract) (t : Tree) : Nat := (depth t + 1) * (c.definitions.length + 1)

/-- All violations of the contract by a tree. -/
def violations (c : Contract) (tree : Tree) : List Violation :=
  c.schema.check (c.follow (c.followBound tree.plain)) "" tree.plain

/-- Checks a tree; what is reported of its violations is up to the policy. -/
def validate (c : Contract) (policy : Policy) (tree : Tree) : Except Fault Unit :=
  match c.violations tree with
  | [] => .ok ()
  | first :: rest =>
    .error <| .schemaRejected c.name <| match policy with
      | .collectAll => first :: rest
      | .failFast => [first]

end Contract

/-- The contracts that have been loaded, each name once. -/
abbrev Contracts := List (String × Contract)

namespace Contracts

def get (contracts : Contracts) (name : String) : Except Fault Contract :=
  match contracts.lookup name with
  | some c => .ok c
  | none => .error (.definitionNotFound "schema" name)

/-- Adds a contract; one that is there cannot be replaced. -/
def register (contracts : Contracts) (c : Contract) : Except Fault Contracts :=
  if (contracts.lookup c.name).isSome then
    .error (.configInvalid ("schema '" ++ c.name ++ "' is already registered and immutable"))
  else .ok (contracts ++ [(c.name, c)])

/-- Gets a contract, of a text that is read if it has not been loaded before. -/
def load (read : String → Except Fault String) (contracts : Contracts) (name : String) :
    Except Fault (Contract × Contracts) :=
  match contracts.lookup name with
  | some c => .ok (c, contracts)
  | none => do
    let text ← match read name with
      | .error (.sourceNotFound ..) => .error (.definitionNotFound "schema" name)
      | other => other
    let c ← Contract.ofText name text
    return (c, contracts ++ [(name, c)])

end Contracts

end ScraperTimeline
