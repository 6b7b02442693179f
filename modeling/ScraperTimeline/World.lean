import ScraperTimeline.Files.Basic
import ScraperTimeline.Trace

/-!
Work on files that leaves a trace.
-/
namespace ScraperTimeline

/-- Files, and the trace of what is done with them. -/
structure World where
  files : Files
  trace : List Record

/-- What is done before a failure stays done. -/
abbrev Working (ε : Type) := ExceptT ε (StateM World)

namespace Working

variable {ε α : Type}

def emit (e : Event) (fields : List (String × String)) : Working ε Unit :=
  modify fun w => { w with trace := w.trace ++ [.event e fields] }

/-- Does something with the files. -/
def filing (x : Filing α) : Working ε (Except FileFault α) := do
  let w ← get
  let (result, files) := x.run.run w.files
  set { w with files }
  return result

/-- Does something that reads the files only. -/
def traced (x : Files → Traced ε α) : Working ε α := do
  let w ← get
  let (result, trace) := (x w.files).run.run w.trace
  set { w with trace }
  result

end Working
end ScraperTimeline
