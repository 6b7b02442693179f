import ScraperTimeline.Instant.Basic

/-!
The commands of the command line.
-/
namespace ScraperTimeline

inductive Command where
  /-- Checks the definitions before and after normalization. -/
  | validate (config : String)
  /-- Shows the normalized definitions. -/
  | effective (config : String)
  /-- Brings the definitions into the store, or tells what that would do. -/
  | compile (config : String) (dryRun : Bool) (at_ : Option Instant)
  /-- Lists the versions of a name. -/
  | history (config name : String)
  /-- Lists the members of the version that is active at an instant. -/
  | members (config name : String) (at_ : Option Instant)
deriving DecidableEq, Repr

end ScraperTimeline
