import ScraperTimeline.Fault
import ScraperTimeline.Files.Path
import ScraperTimeline.Instant.Basic
import ScraperTimeline.Schema.Contract
import ScraperTimeline.Text.Blank

/-!
The configuration of a run.
-/
namespace ScraperTimeline

structure Config where
  /-- The directory of the definition documents. -/
  defsDir : String
  /-- The document of the default step groups. -/
  defaultStepsFile : Option String := none
  /-- The step group of tasks that name no steps. -/
  defaultSteps : String := "jsoupDefault"
  /-- The contract that holds before normalization. -/
  definedSchema : String := "defined"
  /-- The contract that holds after it. -/
  effectiveSchema : String := "effective"
  policy : Policy := .collectAll
  /-- Where open versions stop: the last second of 2037. -/
  high : Instant := ⟨2145916799, 0⟩
  storeDir : String := "data/datadefs"
  cacheDir : String := "data/artifacts"
  retries : Nat := 3
  /-- Milliseconds. -/
  backoff : Nat := 10
  /-- Where paths start that are not absolute. -/
  base : Option String := none
deriving DecidableEq, Repr

namespace Config

/-- The keys, in the order of the fields. -/
def keys : List String :=
  ["defs_dir", "default_steps_file", "default_steps_name", "defined_schema", "effective_schema",
    "violation_policy", "high_date", "store_dir", "cache_dir", "reconcile_retries",
    "reconcile_backoff_ms", "base_dir"]

def check (c : Config) : Except Fault Unit :=
  if c.defsDir.isEmpty then .error (.configInvalid "defs_dir must not be empty")
  else if Text.trim c.defaultSteps.toList = [] then
    .error (.configInvalid "default_steps_name must not be empty")
  else if c.definedSchema.isEmpty || c.effectiveSchema.isEmpty then
    .error (.configInvalid "schema names must not be empty")
  else if c.retries = 0 then .error (.configInvalid "reconcile_retries must be > 0")
  else .ok ()

/-- A path below the base. -/
def resolve (c : Config) (path : String) : String :=
  match c.base with
  | some base => Path.within base path
  | none => path

end Config
end ScraperTimeline
