import ScraperTimeline.Fault
import ScraperTimeline.Json.Printer
import ScraperTimeline.Schema.Basic

/-!
Checking a tree against a schema: the list of all violations, in the order of the rules. The tree is
plain data with sorted keys.
-/
namespace ScraperTimeline.Schema

/-- A key or a position as a segment of a pointer. -/
def segment (s : String) : String :=
  String.ofList <| '/' :: s.toList.flatMap fun c =>
    if c = '~' then ['~', '0'] else if c = '/' then ['~', '1'] else [c]

def quotedName (s : String) : String := String.ofList (Json.quoted s)

/-- The order of two numbers. -/
def lessThan (a b : Tree) : Bool :=
  match quotient? a, quotient? b with
  | some (m, d), some (n, e) => m * e < n * d
  | _, _ => false
where
  quotient? : Tree → Option (Int × Nat)
    | .int n => some (n.toInt, 1)
    | .float x => some x.toQuotient
    | _ => none

def typeMessage (kinds : List Kind) (t : Tree) : String :=
  match kinds with
  | [kind] => t.toJson ++ " is not of type \"" ++ kind.name ++ "\""
  | kinds =>
    t.toJson ++ " is not of types " ++
      ", ".intercalate ((Kind.all.filter (· ∈ kinds)).map fun kind => "\"" ++ kind.name ++ "\"")

def unexpectedMessage (keys : List String) : String :=
  "Additional properties are not allowed (" ++
    ", ".intercalate (keys.map fun key => "'" ++ key ++ "'") ++
    (if keys.length = 1 then " was" else " were") ++ " unexpected)"

def refusalMessage (t : Tree) : String := "False schema does not allow " ++ t.toJson

/-- Whether a schema refuses everything. -/
def isNever : Schema → Bool
  | .const accepts => !accepts
  | _ => false

section
variable (follow : String → String → Tree → List Violation)

mutual

/-- The violations of a schema at a place of the tree; `follow` checks what a reference demands. -/
def check (path : String) (t : Tree) : Schema → List Violation
  | .const true => []
  | .const false => [⟨path, refusalMessage t⟩]
  | .ref target => follow target path t
  | .all rules => checkAll path t rules
  | .type kinds => if kinds.any (·.admits t) then [] else [⟨path, typeMessage kinds t⟩]
  | .minimum limit =>
    if lessThan t limit then [⟨path, t.toJson ++ " is less than the minimum of " ++ limit.toJson⟩]
    else []
  | .required keys =>
    match t with
    | .map fields =>
      (keys.filter fun key => (fields.lookup key).isNone).map fun key =>
        ⟨path, quotedName key ++ " is a required property"⟩
    | _ => []
  | .pattern source p =>
    match t with
    | .string s =>
      if p.accepts s.toList then []
      else [⟨path, quotedName s ++ " does not match \"" ++ source ++ "\""⟩]
    | _ => []
  | .properties declared =>
    match t with
    | .map fields => checkDeclared path fields declared
    | _ => []
  | .additional declared others =>
    match t with
    | .map fields =>
      if declared.isEmpty && others.isNever then
        (fields.take 1).map fun (_, value) => ⟨path, refusalMessage value⟩
      else
        let unexpected := fields.filter fun (key, _) => (declared.lookup key).isNone
        (fields.flatMap fun (key, value) =>
          match checkKey (path ++ segment key) value key declared with
          | some violations => violations
          | none => if others.isNever then [] else check (path ++ segment key) value others) ++
        if others.isNever && !unexpected.isEmpty then
          [⟨path, unexpectedMessage (unexpected.map (·.1))⟩]
        else []
    | _ => []
  | .propertyNames name =>
    match t with
    | .map fields =>
      if name.isNever then (if fields.isEmpty then [] else [⟨path, refusalMessage t⟩])
      else fields.flatMap fun (key, _) => check path (.string key) name
    | _ => []
  | .items item =>
    match t with
    | .seq ts =>
      (ts.mapIdx fun i t => check (path ++ "/" ++ toString i) t item).flatten
    | _ => []
  | .anyOf options =>
    if (checkEach path t options).any List.isEmpty then []
    else
      [⟨path, t.toJson ++ " is not valid under any of the schemas listed in the 'anyOf' keyword"⟩]
  | .oneOf options =>
    match ((checkEach path t options).filter List.isEmpty).length with
    | 0 =>
      [⟨path, t.toJson ++ " is not valid under any of the schemas listed in the 'oneOf' keyword"⟩]
    | 1 => []
    | _ =>
      [⟨path, t.toJson ++
        " is valid under more than one of the schemas listed in the 'oneOf' keyword"⟩]

def checkAll (path : String) (t : Tree) : List Schema → List Violation
  | [] => []
  | s :: rest => check path t s ++ checkAll path t rest

def checkEach (path : String) (t : Tree) : List Schema → List (List Violation)
  | [] => []
  | s :: rest => check path t s :: checkEach path t rest

/-- The declared properties that are there, in the order of their declaration. -/
def checkDeclared (path : String) (fields : List (String × Tree)) :
    List (String × Schema) → List Violation
  | [] => []
  | (key, s) :: rest =>
    (match fields.lookup key with
      | some value => check (path ++ segment key) value s
      | none => []) ++ checkDeclared path fields rest

/-- The violations of a value under the property that is declared for its key, if there is one. -/
def checkKey (path : String) (value : Tree) (key : String) :
    List (String × Schema) → Option (List Violation)
  | [] => none
  | (declared, s) :: rest =>
    if declared = key then some (check path value s) else checkKey path value key rest

end

end

end ScraperTimeline.Schema
