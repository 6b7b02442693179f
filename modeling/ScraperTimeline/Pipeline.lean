import ScraperTimeline.Config.Basic
import ScraperTimeline.Normal.Basic
import ScraperTimeline.Source.Basic
import ScraperTimeline.Timeline.Compile
import ScraperTimeline.Timeline.Sync
import ScraperTimeline.Trace

/-!
The way from documents to versions: load, validate, normalize, validate again, compile. A run gives all
of it or fails as a whole, and its trace names the stages that went well.
-/
namespace ScraperTimeline

/-- A configuration, and the contracts that it names. -/
structure Pipeline where
  config : Config
  resources : Resources
  contracts : Contracts

/-- What a run yields. -/
structure Compilation where
  start : Instant
  defined : Tree
  effective : Tree
  versions : List Version
deriving Repr

namespace Pipeline
open Traced

def loadContracts (r : Resources) (fs : Files) (names : List String) : Except Fault Contracts :=
  let read id := (r.read fs id).map (·.text)
  names.foldlM (fun contracts name => (contracts.load read name).map (·.2)) []

def build (c : Config) (r : Resources) (fs : Files) : Traced Fault Pipeline := do
  c.check
  let contracts ← loadContracts r fs [c.definedSchema, c.effectiveSchema]
  emitEvent .schemasLoaded [("count", toString contracts.length)]
  return ⟨c, r, contracts⟩

/-! ### Stages -/

/-- Puts the default step groups in, if there is a document of them. -/
def addDefaultSteps (p : Pipeline) (fs : Files) (defs : Tree) : Traced Fault Tree := do
  match p.config.defaultStepsFile with
  | none => return defs
  | some file =>
    let defaults ← Source.loadDefaultSteps p.resources fs file
    emitEvent .defaultStepsMerged [("file", file)]
    return Source.mergeDefaultSteps defaults defs

/-- The merged tree of all documents. -/
def loadDefined (p : Pipeline) (fs : Files) : Traced Fault Tree := do
  let dir := p.config.defsDir
  let ids ← Source.discover p.resources fs dir
  let defs ← Source.load p.resources fs ids
  emitEvent .sourcesLoaded [("count", toString ids.length), ("dir", dir)]
  p.addDefaultSteps fs defs

def validate (p : Pipeline) (schema : String) (t : Tree) : Except Fault Unit := do
  (← p.contracts.get schema).validate p.config.policy t

def validateDefined (p : Pipeline) (defined : Tree) : Traced Fault Unit := do
  p.validate p.config.definedSchema defined
  emitEvent .definedValidated []

def createEffective (p : Pipeline) (defined : Tree) : Traced Fault Tree := do
  let effective ← Normal.normalize p.config.defaultSteps defined
  emitEvent .effectiveCreated []
  return effective

def validateEffective (p : Pipeline) (effective : Tree) : Traced Fault Unit := do
  p.validate p.config.effectiveSchema effective
  emitEvent .effectiveValidated []

def versions (p : Pipeline) (run : Instant) (effective : Tree) : Traced Fault (List Version) := do
  let vs ← Timeline.compile p.config.high run.wholeSecond effective
  emitEvent .versionsCompiled [("count", toString vs.length)]
  return vs

/-- The effective tree of a defined one. Both have to meet their contracts. -/
def effectiveOf (p : Pipeline) (defined : Tree) : Traced Fault Tree := do
  p.validateDefined defined
  let effective ← p.createEffective defined
  p.validateEffective effective
  return effective

/-! ### Runs -/

def scopeName : String := "DEFS_RUN"

/-- Runs in a scope, which ends as the run does. -/
def inScope {α : Type} (runId : String) (x : Traced Fault α) : Traced Fault α := do
  emit (.scope scopeName runId .began)
  match ← ExceptT.lift x.run with
  | .ok a =>
    emit (.scope scopeName runId .complete)
    return a
  | .error e =>
    emitEvent .runFailed [("code", e.code), ("run_id", runId)]
    emit (.scope scopeName runId (.failed e.message))
    throw e

def compileDefined (p : Pipeline) (run : Instant) (defined : Tree) : Traced Fault Compilation := do
  let effective ← p.effectiveOf defined
  return ⟨run.wholeSecond, defined, effective, ← p.versions run effective⟩

/-- A run from a tree. -/
def compileTree (p : Pipeline) (runId : String) (run : Instant) (defined : Tree) :
    Traced Fault Compilation :=
  inScope runId (p.compileDefined run defined)

/-- A run from the documents. -/
def compile (p : Pipeline) (fs : Files) (runId : String) (run : Instant) :
    Traced Fault Compilation :=
  inScope runId do p.compileDefined run (← p.loadDefined fs)

/-! ### Synchronization -/

def syncSettings (c : Config) : Sync.Settings := ⟨c.high, c.retries, c.backoff⟩

/-- How a trace tells the end of a synchronization. A failure that is not a lost race is left to the
one who gets it. -/
def syncEnd : Except Fault Sync.Report → List Record
  | .ok report => [.event .reconcileComplete [("changed", if report.changed then "true" else "false")]]
  | .error e => if e.isRetryable then [.event .reconcileConflict []] else []

/-- Brings versions into a store, and tells how that went. -/
def reconcile {σ : Type} [Store σ] (c : Config) (vs : List Version) :
    StateM σ (Except Fault Sync.Report × List Record) := do
  let (_, result) ← Sync.apply (syncSettings c) vs
  return (result, .event .reconcileBegin [] :: syncEnd result)

end Pipeline
end ScraperTimeline
