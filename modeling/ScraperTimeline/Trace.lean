/-!
The trace of a run: records of its lifecycle events, and of the scope in which it began and ended.
-/
namespace ScraperTimeline

inductive Level where
  | info
  | warn
  | error
deriving DecidableEq, Repr

def Level.name : Level → String
  | .info => "INFO"
  | .warn => "WARN"
  | .error => "ERROR"

inductive Event where
  | runFailed
  | configLoaded
  | schemasLoaded
  | sourcesLoaded
  | defaultStepsMerged
  | definedValidated
  | effectiveCreated
  | effectiveValidated
  | versionsCompiled
  | reconcileBegin
  | reconcileComplete
  | reconcileConflict
  | artifactSaved
  | artifactRejected
deriving DecidableEq, Repr

namespace Event

def name : Event → String
  | runFailed => "DEFS_RUN_FAILED"
  | configLoaded => "CONFIG_LOADED"
  | schemasLoaded => "SCHEMAS_LOADED"
  | sourcesLoaded => "SOURCES_LOADED"
  | defaultStepsMerged => "DEFAULT_STEPS_MERGED"
  | definedValidated => "DEFINED_VALIDATED"
  | effectiveCreated => "EFFECTIVE_CREATED"
  | effectiveValidated => "EFFECTIVE_VALIDATED"
  | versionsCompiled => "DATADEFS_COMPILED"
  | reconcileBegin => "RECONCILE_BEGIN"
  | reconcileComplete => "RECONCILE_COMPLETE"
  | reconcileConflict => "RECONCILE_CONFLICT"
  | artifactSaved => "ARTIFACT_SAVED"
  | artifactRejected => "ARTIFACT_INTEGRITY_FAILURE"

/-- Whether the event ends a run or rejects what was stored. -/
def isFailure : Event → Bool
  | runFailed => true
  | artifactRejected => true
  | _ => false

end Event

/-- Where a scope stands. -/
inductive Phase where
  | began
  | complete
  | failed (reason : String)
  | abandoned
deriving DecidableEq, Repr

inductive Record where
  | event (event : Event) (fields : List (String × String))
  | scope (name runId : String) (phase : Phase)
deriving DecidableEq, Repr

namespace Record

def level : Record → Level
  | event e _ => if e.isFailure then .error else .info
  | scope _ _ .began => .info
  | scope _ _ .complete => .info
  | scope _ _ (.failed _) => .error
  | scope _ _ .abandoned => .warn

def name : Record → String
  | event e _ => e.name
  | scope name _ .began => name ++ "_BEGIN"
  | scope name _ .complete => name ++ "_COMPLETE"
  | scope name _ (.failed _) => name ++ "_FAILED"
  | scope name _ .abandoned => name ++ "_INCOMPLETE"

/-- Why a scope did not complete. -/
def reason? : Record → Option String
  | scope _ _ (.failed reason) => some reason
  | scope _ _ .abandoned => some "scope dropped without completion"
  | _ => none

/-- Fields as text, by key. -/
def fieldsText (fields : List (String × String)) : String :=
  let sorted := fields.mergeSort fun a b => decide (a.1 ≤ b.1)
  " ".intercalate (sorted.map fun (key, value) => key ++ "=" ++ value)

end Record

/-- A computation that leaves a trace, also where it fails. -/
abbrev Traced (ε : Type) := ExceptT ε (StateM (List Record))

namespace Traced

variable {ε α : Type}

def emit (r : Record) : Traced ε Unit := modify (· ++ [r])

def emitEvent (e : Event) (fields : List (String × String)) : Traced ε Unit := emit (.event e fields)

/-- The outcome, and the trace that led to it. -/
def start (x : Traced ε α) : Except ε α × List Record := x.run.run []

end Traced
end ScraperTimeline
