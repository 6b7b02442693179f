import ScraperTimeline.Config.Basic
import ScraperTimeline.Files.Basic
import ScraperTimeline.Instant.Text
import ScraperTimeline.Json.Record
import ScraperTimeline.Yaml.Reader

/-!
Reading a configuration from a file of JSON or YAML. A key that is not known, or is given twice, is
refused.
-/
namespace ScraperTimeline.Config

/-- How values are written in a format. -/
structure Format (α : Type) where
  string? : α → Option String
  /-- A string, or a null for none. -/
  optional? : α → Option (Option String)
  /-- A number in the range of an unsigned word of some bits. -/
  unsigned? : Nat → α → Option Nat
  policy? : α → Option Policy

/-- The configuration of some fields. -/
def ofFields? {α : Type} (format : Format α) (fields : List (String × α)) : Option Config := do
  let field {β : Type} (key : String) (read? : α → Option β) (missing : Option β) : Option β :=
    match Fields.once? key fields with
    | none => none
    | some none => missing
    | some (some value) => read? value
  let string (key : String) (missing : Option String) := field key format.string? missing
  if fields.any fun (key, _) => !keys.contains key then none
  else
    let defsDir ← string "defs_dir" none
    let standard : Config := { defsDir }
    return { defsDir
             defaultStepsFile := ← field "default_steps_file" format.optional? (some none)
             defaultSteps := ← string "default_steps_name" standard.defaultSteps
             definedSchema := ← string "defined_schema" standard.definedSchema
             effectiveSchema := ← string "effective_schema" standard.effectiveSchema
             policy := ← field "violation_policy" format.policy? standard.policy
             high := ← field "high_date" (fun t => (format.string? t).bind Instant.read?) standard.high
             storeDir := ← string "store_dir" standard.storeDir
             cacheDir := ← string "cache_dir" standard.cacheDir
             retries := ← field "reconcile_retries" (format.unsigned? 32) standard.retries
             backoff := ← field "reconcile_backoff_ms" (format.unsigned? 64) standard.backoff
             base := ← field "base_dir" format.optional? (some none) }

/-! ### JSON -/

def json : Format Json where
  string? := Json.string?
  optional?
    | .null => some none
    | t => t.string?.map some
  unsigned? bits t := t.unsigned? bits
  policy?
    | .string s => Policy.ofName? s
    | .object [(name, .null)] => Policy.ofName? name
    | _ => none

/-- The fields by key, or in their order as far as they are given. -/
def ofJson? : Json → Option Config
  | .object fields => ofFields? json fields
  | .array items => if items.length ≤ keys.length then ofFields? json (keys.zip items) else none
  | _ => none

/-! ### YAML -/

open Yaml in
/-- Any scalar is the string that it writes. -/
def yamlString? : Node → Option String
  | .scalar _ text _ => some (String.ofList text)
  | _ => none

open Yaml in
/-- Whether a plain scalar is null or missing, under a tag of its own or none. -/
def isYamlNull (text : List Char) (plain : Bool) : Bool := plain && isNull text

-- A tag for null admits nothing else.
open Yaml in
def yamlOptional? : Node → Option (Option String)
  | .scalar p text plain =>
    if p.tag = some (coreTag "null") then
      if isNull text && text ≠ [] then some none else none
    else if p.tag = none ∧ isYamlNull text plain then some none
    else some (some (String.ofList text))
  | _ => none

open Yaml in
def yamlUnsigned? (bits : Nat) : Node → Option Nat
  | .scalar _ text true =>
    let digits := match text with
      | '+' :: rest => rest
      | text => text
    (magnitude? digits).bind fun n => if n < Nat.pow 2 bits then some n else none
  | _ => none

-- A policy is a string, or the tag of a null.
open Yaml in
def yamlPolicy? : Node → Option Policy
  | .scalar p text plain =>
    match p.tag with
    | some ('!' :: name) =>
      if isYamlNull text plain then Policy.ofName? (String.ofList name) else none
    | _ => Policy.ofName? (String.ofList text)
  | _ => none

def yaml : Format Yaml.Node where
  string? := yamlString?
  optional? := yamlOptional?
  unsigned? := yamlUnsigned?
  policy? := yamlPolicy?

def ofYaml? : Yaml.Node → Option Config
  | .map _ fields => do
    ofFields? yaml (← fields.mapM fun (key, value) => (yamlString? key).map (·, value))
  | _ => none

/-! ### Files -/

/-- Reads the text of a configuration, of JSON if the name of the file says so. -/
def ofText (path text : String) : Except Fault Config :=
  if (Path.names path).getLast?.bind Path.extension? = some "json" then
    match (Json.read? text.toList).bind ofJson? with
    | some c => .ok c
    | none => .error (.configInvalid ("invalid config JSON: " ++ Fault.unreadable))
  else
    match ((Yaml.read? text.toList).join.bind Yaml.Node.resolved?).bind ofYaml? with
    | some c => .ok c
    | none => .error (.configInvalid ("invalid config YAML: " ++ Fault.unreadable))

/-- The configuration of a file, whose directory is the base unless it names one. -/
def load (fs : Files) (path : String) : Except Fault Config := do
  let text ← match fs.readAt path with
    | .ok text => .ok text
    | .error e =>
      .error (.configInvalid ("failed to read config '" ++ path ++ "': " ++ e.message))
  let c ← ofText path text
  let c := { c with base := c.base <|> Path.parent? path }
  c.check
  return c

end ScraperTimeline.Config
