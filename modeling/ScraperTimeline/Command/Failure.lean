import ScraperTimeline.Fault

/-!
The ways in which a command fails.
-/
namespace ScraperTimeline

inductive CommandFailure where
  | config (reason : String)
  | output (reason : String)
  | notFound (what : String)
  | failed (fault : Fault)
deriving DecidableEq, Repr

namespace CommandFailure

/-- A bad configuration has a code of its own. -/
def ofFault : Fault → CommandFailure
  | .configInvalid reason => config reason
  | e => failed e

def code : CommandFailure → String
  | config _ => "SCRAPEDEF_CLI_CONFIG_ERROR"
  | output _ => "SCRAPEDEF_CLI_IO_ERROR"
  | notFound _ => "SCRAPEDEF_CLI_NOT_FOUND"
  | failed _ => "SCRAPEDEF_CLI_DEFS_FAILED"

/-- What is said of a fault, with each violation on a line of its own. -/
def message : CommandFailure → String
  | config reason => reason
  | output reason => reason
  | notFound what => what
  | failed e =>
    "[" ++ e.code ++ "] " ++ e.message ++ String.join (e.violations.map fun v => "\n  - " ++ v.text)

def text (e : CommandFailure) : String := e.code ++ ": " ++ e.message

end CommandFailure
end ScraperTimeline
