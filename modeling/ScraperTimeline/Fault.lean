/-!
The ways in which an operation of the library fails.
-/
namespace ScraperTimeline

/-- A constraint of a contract that a tree does not meet. -/
structure Violation where
  /-- The pointer of the node, empty for the root. -/
  path : String
  message : String
deriving DecidableEq, Repr

def Violation.text (v : Violation) : String :=
  "at '" ++ (if v.path.isEmpty then "/" else v.path) ++ "': " ++ v.message

inductive Fault where
  | sourceNotFound (id reason : String)
  | malformedSource (id diagnostic : String)
  | schemaRejected (contract : String) (violations : List Violation)
  | cyclicSteps (chain : List String)
  | definitionNotFound (kind name : String)
  | queryNotFound (key : String)
  | invalidValidity (name reason : String)
  | concurrentModification (name : String)
  | integrityFailure (key : String)
  | storeFailed (reason : String)
  | configInvalid (reason : String)
deriving DecidableEq, Repr

namespace Fault

/-- Stands where a parser would say what it could not read. -/
def unreadable : String := "<parser>"

def code : Fault → String
  | sourceNotFound .. => "DEFS_SOURCE_NOT_FOUND"
  | malformedSource .. => "DEFS_MALFORMED_SOURCE"
  | schemaRejected .. => "DEFS_SCHEMA_VALIDATION_FAILED"
  | cyclicSteps .. => "DEFS_CYCLIC_STEP_REFERENCE"
  | definitionNotFound .. => "DEFS_DEFINITION_NOT_FOUND"
  | queryNotFound .. => "DEFS_QUERY_NOT_FOUND"
  | invalidValidity .. => "DEFS_INVALID_VALIDITY"
  | concurrentModification .. => "DEFS_CONCURRENT_MODIFICATION"
  | integrityFailure .. => "DEFS_INTEGRITY_FAILURE"
  | storeFailed .. => "DEFS_STORE_FAILED"
  | configInvalid .. => "DEFS_CONFIG_INVALID"

def violations : Fault → List Violation
  | schemaRejected _ vs => vs
  | _ => []

def message : Fault → String
  | sourceNotFound id reason => "source not found: " ++ id ++ " (" ++ reason ++ ")"
  | malformedSource id diagnostic => "malformed source '" ++ id ++ "': " ++ diagnostic
  | schemaRejected contract vs =>
    "schema '" ++ contract ++ "' rejected tree with " ++ toString vs.length ++ " violation(s): " ++
      "; ".intercalate (vs.map Violation.text)
  | cyclicSteps chain => "cyclic step reference: " ++ " -> ".intercalate chain
  | definitionNotFound kind name => kind ++ " not found: " ++ name
  | queryNotFound key => "query not found for [" ++ key ++ "]"
  | invalidValidity name reason => "invalid validity window for '" ++ name ++ "': " ++ reason
  | concurrentModification name => "concurrent modification of '" ++ name ++ "'"
  | integrityFailure key => "integrity check failed for " ++ key
  | storeFailed reason => "store error: " ++ reason
  | configInvalid reason => "invalid configuration: " ++ reason

/-- Only a lost race may go well when it is tried again. -/
def isRetryable : Fault → Bool
  | concurrentModification _ => true
  | _ => false

end Fault
end ScraperTimeline
