import ScraperTimeline.Instant.Text
import ScraperTimeline.Timeline.Version

/-!
Compilation: each definition of an effective tree becomes an open version that starts at the run.
-/
namespace ScraperTimeline.Timeline

/-- The definitions of a tree, in their order. -/
def definitions (effective : Tree) : List (String × Tree) :=
  ((effective.field? "dataDefs").bind Tree.fields?).getD []

/-- The versions of a run, which has to be before the high date. -/
def compile (high run : Instant) (effective : Tree) : Except Fault (List Version) :=
  let start := run.wholeSecond
  if start < high then
    .ok ((definitions effective).map fun (name, body) => .ofBody name start high body)
  else
    .error (.invalidValidity "<run>"
      ("run timestamp " ++ start.messageText ++ " is not before high date " ++ high.messageText))

end ScraperTimeline.Timeline
