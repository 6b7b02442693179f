import ScraperTimeline.Command.Arguments
import ScraperTimeline.Command.Run
import ScraperTimeline.RunId
import Std.Time

/-!
The command line. The paths of the files that a command may see stand on standard input, one a line;
what the command changes in them is written back.
-/
open ScraperTimeline

namespace ScraperTimeline.CommandLine

/-- What stands for a usage that is no command. -/
def usageText : Usage → String
  | .versionWanted => "scrapedef 0.1.0"
  | .noVerb | .helpWanted =>
    "Usage: scrapedef <validate|effective|compile|history|members> [--config <path>] " ++
      "[--name <name>] [--at <instant>] [--dry-run]"
  | .unknownVerb => "error: unrecognized subcommand"
  | .unknownArgument => "error: unexpected argument"
  | .missingParameter => "error: a required argument was not provided"
  | .missingValue => "error: a value is required"
  | .malformedValue => "error: invalid value"
  | .unwantedValue => "error: unexpected value"
  | .repeatedParameter => "error: an argument was used more than once"

/-- One line for one record of a trace. -/
def recordText : Record → String
  | .event e fields =>
    let r := Record.event e fields
    " ".intercalate ([r.level.name, r.name] ++
      (if fields.isEmpty then [] else [Record.fieldsText fields]))
  | r => r.level.name ++ " " ++ r.name

/-- Reads a file, if it is there, into its place. -/
def readFile (fs : Files) (path : String) : IO Files := do
  match ← (IO.FS.readBinFile path).toBaseIO with
  | .error _ => return fs
  | .ok bytes =>
    let place := (Path.pieces path).foldl Path.step (fs.start path)
    let (_, fs) := (Files.ensure place.tail).run.run fs
    return fs.set place (.file (String.fromUTF8? bytes))

/-- The files that standard input names. -/
def readFiles : IO Files := do
  let current := (Path.names (← IO.currentDir).toString).reverse
  let start := ((Files.ensure current).run.run { Files.empty with current }).2
  (← (← IO.getStdin).lines).foldlM readFile start

/-- Writes back what is new or no longer there. -/
def writeFiles (old new : Files) : IO Unit := do
  for (place, entry) in new.entries do
    if old.at? place ≠ some entry then
      match entry with
      | .directory => IO.FS.createDirAll place.text
      | .file none => pure ()
      | .file (some text) =>
        IO.FS.createDirAll (Path.text place.tail)
        IO.FS.writeFile place.text text
  for (place, entry) in old.entries do
    if entry ≠ .directory ∧ new.at? place = none then IO.FS.removeFile place.text

def runCommand (c : Command) : IO UInt32 := do
  let files ← readFiles
  let now := Instant.ofNanoseconds (← Std.Time.Timestamp.now).toNanosecondsSinceUnixEpoch.toInt
  let runId := RunId.ofBytes (← IO.getRandomBytes 16).data.toList
  let (answer, w) := (c.run ⟨now, runId⟩).run.run ⟨files, []⟩
  writeFiles files w.files
  for r in w.trace do
    IO.eprintln (recordText r)
  match answer with
  | .ok output =>
    IO.print output
    return 0
  | .error e =>
    IO.eprintln e.text
    return 1

/-- Runs what the arguments ask for. -/
def run (arguments : List String) : IO UInt32 := do
  match Command.ofArguments arguments with
  | .ok c => runCommand c
  | .error u =>
    if u = .helpWanted ∨ u = .versionWanted then
      IO.println (usageText u)
      return 0
    else
      IO.eprintln (usageText u)
      return 2

end ScraperTimeline.CommandLine

def main (arguments : List String) : IO UInt32 := CommandLine.run arguments
