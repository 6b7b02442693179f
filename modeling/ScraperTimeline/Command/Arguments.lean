import ScraperTimeline.Command.Basic
import ScraperTimeline.Instant.Text

/-!
Reading the arguments of the command line: a verb, and then parameters in any order. A value follows its
parameter as an argument of its own or after an equals sign. A value that stands alone is taken in when
the next parameter is read, so faults in the form of that parameter are found before those of the value.
-/
namespace ScraperTimeline

/-- Why arguments do not make a command. -/
inductive Usage where
  | helpWanted
  | versionWanted
  | noVerb
  | unknownVerb
  | unknownArgument
  | missingParameter
  | missingValue
  | malformedValue
  /-- A value for a parameter that has none. -/
  | unwantedValue
  | repeatedParameter
deriving DecidableEq, Repr

inductive Parameter where
  | config
  | name
  | at_
  | dryRun
deriving DecidableEq, Repr

namespace Parameter

def key : Parameter → String
  | config => "config"
  | name => "name"
  | at_ => "at"
  | dryRun => "dry-run"

def takesValue : Parameter → Bool
  | dryRun => false
  | _ => true

/-- A path cannot be empty, an instant has to be readable. -/
def checkValue (p : Parameter) (value : String) : Except Usage Unit :=
  match p with
  | config => if value.isEmpty then .error .missingValue else .ok ()
  | at_ => if (Instant.read? value).isNone then .error .malformedValue else .ok ()
  | _ => .ok ()

end Parameter

inductive Verb where
  | validate
  | effective
  | compile
  | history
  | members
deriving DecidableEq, Repr

namespace Verb

def all : List Verb := [validate, effective, compile, history, members]

def word : Verb → String
  | validate => "validate"
  | effective => "effective"
  | compile => "compile"
  | history => "history"
  | members => "members"

def ofWord? (word : String) : Option Verb := all.find? (·.word = word)

def parameters : Verb → List Parameter
  | validate => [.config]
  | effective => [.config]
  | compile => [.config, .dryRun, .at_]
  | history => [.config, .name]
  | members => [.config, .name, .at_]

def parameter? (v : Verb) (key : String) : Option Parameter := v.parameters.find? (·.key = key)

end Verb

namespace Arguments

/-- The parameters that have been taken in, with their values. -/
abbrev Given := List (Parameter × String)

def give (p : Parameter) (value : String) (given : Given) : Except Usage Given :=
  if (given.lookup p).isSome then .error .repeatedParameter
  else do
    p.checkValue value
    return given ++ [(p, value)]

structure Reading where
  given : Given
  /-- The parameter that was read last, and the value after it. -/
  pending : Option (Parameter × Option String)

namespace Reading

def start : Reading := ⟨[], none⟩

/-- Takes in what is pending. -/
def settled (r : Reading) : Except Usage Given :=
  match r.pending with
  | none => .ok r.given
  | some (_, none) => .error .missingValue
  | some (p, some value) => give p value r.given

/-- Ends with a wish for something else than a command. -/
def wish (r : Reading) (u : Usage) : Except Usage Reading := do
  let _ ← r.settled
  .error u

/-- Reads a key, and a value if one is attached to it. -/
def long (v : Verb) (r : Reading) (key : String) (value : Option String) : Except Usage Reading :=
  match v.parameter? key, value with
  | none, none => if key = "help" then r.wish .helpWanted else .error .unknownArgument
  | none, some _ => .error (if key = "help" then .unwantedValue else .unknownArgument)
  | some p, none => do
    let given ← r.settled
    if p.takesValue then return ⟨given, some (p, none)⟩ else return ⟨← give p "" given, none⟩
  | some p, some value => do
    if p.takesValue then return ⟨← give p value (← r.settled), none⟩ else .error .unwantedValue

/-- Reads a word, which can only be a value. -/
def word (r : Reading) (value : String) : Except Usage Reading :=
  match r.pending with
  | some (p, none) => .ok { r with pending := some (p, some value) }
  | _ => .error .unknownArgument

end Reading

-- A key, and what is attached to it with an equals sign.
def attached (text : List Char) : String × Option String :=
  match text.dropWhile (· ≠ '=') with
  | [] => (String.ofList text, none)
  | _ :: value => (String.ofList (text.takeWhile (· ≠ '=')), some (String.ofList value))

def step (v : Verb) (r : Reading) (argument : String) : Except Usage Reading :=
  match argument.toList with
  | '-' :: '-' :: text => r.long v (attached text).1 (attached text).2
  | '-' :: c :: _ => if c = 'h' then r.wish .helpWanted else .error .unknownArgument
  | _ => r.word argument

/-- Reads the parameters of a verb. After two dashes there may be nothing. -/
def parameters (v : Verb) : Reading → List String → Except Usage Given
  | r, [] => r.settled
  | r, argument :: rest =>
    if argument = "--" then
      if rest = [] then r.settled else .error .unknownArgument
    else do parameters v (← step v r argument) rest

def defaultConfig : String := "./scrapedef.yml"

/-- The command of a verb. -/
def command (v : Verb) (given : Given) : Except Usage Command :=
  let config := (given.lookup .config).getD defaultConfig
  let at_ := (given.lookup .at_).bind Instant.read?
  let named (f : String → Command) : Except Usage Command :=
    (given.lookup .name).elim (.error .missingParameter) (.ok ∘ f)
  match v with
  | .validate => .ok (.validate config)
  | .effective => .ok (.effective config)
  | .compile => .ok (.compile config (given.lookup .dryRun).isSome at_)
  | .history => named (.history config ·)
  | .members => named (.members config · at_)

def helpWord : String := "help"

def isWord (word : String) : Bool := word = helpWord || (Verb.ofWord? word).isSome

/-- What comes of arguments that do not start with a verb. -/
def withoutVerb (first : String) (rest : List String) : Usage :=
  if first = helpWord then
    match rest with
    | [] => .helpWanted
    | [word] => if isWord word then .helpWanted else .unknownVerb
    | _ => .unknownVerb
  else match first.toList with
    | ['-', '-'] =>
      match rest with
      | [] => .noVerb
      | word :: _ => if isWord word then .unknownArgument else .unknownVerb
    | '-' :: '-' :: text =>
      let (key, value) := attached text
      if key ≠ "help" ∧ key ≠ "version" then .unknownArgument
      else if value.isSome then .unwantedValue
      else if key = "help" then .helpWanted else .versionWanted
    | '-' :: c :: _ =>
      if c = 'h' then .helpWanted else if c = 'V' then .versionWanted else .unknownArgument
    | _ => .unknownVerb

end Arguments

/-- Reads a command. -/
def Command.ofArguments : List String → Except Usage Command
  | [] => .error .noVerb
  | first :: rest =>
    match Verb.ofWord? first with
    | none => .error (Arguments.withoutVerb first rest)
    | some v => do Arguments.command v (← Arguments.parameters v .start rest)

end ScraperTimeline
