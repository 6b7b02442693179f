import ScraperTimeline.Json.Reader
import ScraperTimeline.Tree.Path
import ScraperTimeline.Schema.Basic

/-!
Schemas as JSON documents. A reference names a place of the document by a pointer; the places that are
named are read together with the whole.
-/
namespace ScraperTimeline.Schema

/-- The editions of the schema language. In the older ones a reference stands alone, whatever else is
beside it. -/
def editions : List (String × Bool) :=
  [("http://json-schema.org/draft-04/schema", true), ("http://json-schema.org/draft-06/schema", true),
    ("http://json-schema.org/draft-07/schema", true),
    ("https://json-schema.org/draft/2019-09/schema", false),
    ("https://json-schema.org/draft/2020-12/schema", false)]

def withoutHash (s : String) : String :=
  match s.toList.reverse with
  | '#' :: rest => String.ofList rest.reverse
  | _ => s

/-- Whether a reference stands alone in a document; `none` if its edition is unknown. -/
def refAlone? (document : Tree) : Option Bool :=
  match document.field? "$schema" with
  | none => some false
  | some t => t.string?.bind fun s => editions.lookup (withoutHash s)

def distinct {α : Type} [BEq α] : List α → Bool
  | [] => true
  | a :: rest => !rest.elem a && distinct rest

def strings? (t : Tree) : Option (List String) := t.items?.bind (·.mapM Tree.string?)

def kinds? : Tree → Option (List Kind)
  | .string s => (Kind.ofName? s).map ([·])
  | t => do
    let kinds ← (← strings? t).mapM Kind.ofName?
    if kinds.isEmpty || !distinct kinds then none else some kinds

def isNumber (t : Tree) : Bool := Kind.number.admits t

/-- Keywords that say nothing about trees but have to be texts. -/
def notes : List String := ["$comment", "$id", "$schema", "description", "title"]

mutual

/-- Reads a schema. Keywords that are not known say nothing. -/
def ofTree? (refAlone : Bool) : Tree → Option Schema
  | .bool b => some (.const b)
  | .map fields => do
    let declared ← (declared? refAlone fields).getD (some [])
    let rules ← rules? refAlone fields declared fields
    match rules.find? fun s => s matches .ref _ with
    | some r => return if refAlone then r else .all rules
    | none => return .all rules
  | _ => none

/-- The properties that the fields of a schema declare, if they do. -/
def declared? (refAlone : Bool) : List (String × Tree) → Option (Option (List (String × Schema)))
  | [] => none
  | (key, t) :: rest =>
    if key = "properties" then
      some <| match t with
        | .map fields => fieldsOf? refAlone fields
        | _ => none
    else declared? refAlone rest

def fieldsOf? (refAlone : Bool) : List (String × Tree) → Option (List (String × Schema))
  | [] => some []
  | (key, t) :: rest => do return (key, ← ofTree? refAlone t) :: (← fieldsOf? refAlone rest)

def listOf? (refAlone : Bool) : List Tree → Option (List Schema)
  | [] => some []
  | t :: rest => do return (← ofTree? refAlone t) :: (← listOf? refAlone rest)

/-- The rules of the keywords in their order; `all` are the fields that they are among. -/
def rules? (refAlone : Bool) (all : List (String × Tree)) (declared : List (String × Schema)) :
    List (String × Tree) → Option (List Schema)
  | [] => some []
  | (key, t) :: rest => do
    let rule ← rule? refAlone all declared key t
    return rule.toList ++ (← rules? refAlone all declared rest)

/-- The rule of one keyword, if it has one. -/
def rule? (refAlone : Bool) (all : List (String × Tree)) (declared : List (String × Schema))
    (key : String) (t : Tree) : Option (Option Schema) :=
  match key with
  | "$ref" => t.string?.map fun target => some (.ref target)
  | "additionalProperties" => do
    match ← ofTree? refAlone t with
    | .const true => return none
    | others => return some (.additional declared others)
  | "anyOf" | "oneOf" =>
    match t with
    | .seq (first :: more) => do
      let options := (← ofTree? refAlone first) :: (← listOf? refAlone more)
      return some (if key = "anyOf" then .anyOf options else .oneOf options)
    | _ => none
  | "definitions" =>
    match t with
    | .map fields => (fieldsOf? refAlone fields).map fun _ => none
    | _ => none
  | "items" => (ofTree? refAlone t).map fun s => some (.items s)
  | "minimum" => if isNumber t then some (some (.minimum t)) else none
  | "pattern" => do
    let source ← t.string?
    return some (.pattern source (← Text.Pattern.read? source.toList))
  | "properties" =>
    match (all.lookup "additionalProperties").map Tree.kind with
    | some .mapping => some none
    | _ =>
      match all.lookup "additionalProperties" with
      | some (.bool false) => some none
      | _ => some (some (.properties declared))
  | "propertyNames" => (ofTree? refAlone t).map fun s => some (.propertyNames s)
  | "required" => do
    let keys ← strings? t
    if distinct keys then return some (.required keys) else none
  | "type" => (kinds? t).map fun kinds => some (.type kinds)
  | key => if key ∈ notes then t.string?.map fun _ => none else some none

end

mutual

/-- The references in a schema. -/
def refs : Schema → List String
  | .ref target => [target]
  | .all rules => refsOfList rules
  | .properties fields => refsOfFields fields
  | .additional fields others => refsOfFields fields ++ refs others
  | .propertyNames s => refs s
  | .items s => refs s
  | .anyOf options => refsOfList options
  | .oneOf options => refsOfList options
  | _ => []

def refsOfList : List Schema → List String
  | [] => []
  | s :: rest => refs s ++ refsOfList rest

def refsOfFields : List (String × Schema) → List String
  | [] => []
  | (_, s) :: rest => refs s ++ refsOfFields rest

end

/-- A segment of a pointer without its escapes. -/
def unescaped : List Char → List Char
  | '~' :: '0' :: rest => '~' :: unescaped rest
  | '~' :: '1' :: rest => '/' :: unescaped rest
  | c :: rest => c :: unescaped rest
  | [] => []

/-- The place of a document that a reference names. -/
def place? (document : Tree) (target : String) : Option Tree :=
  match target.toList with
  | ['#'] => some document
  | '#' :: '/' :: path =>
    (Text.split '/' path).foldlM
      (fun t s => t.child? (String.ofList (unescaped s))) document
  | _ => none

/-- Reads the places that references name until all of them are known. -/
def definitions? (refAlone : Bool) (document : Tree) :
    Nat → List String → List (String × Schema) → Option (List (String × Schema))
  | _, [], known => some known
  | 0, _ :: _, _ => none
  | fuel + 1, target :: more, known =>
    if (known.lookup target).isSome then definitions? refAlone document fuel more known
    else do
      let s ← ofTree? refAlone (← place? document target)
      definitions? refAlone document fuel (s.refs ++ more) (known ++ [(target, s)])

mutual

/-- The number of nodes of a tree. -/
def nodes : Tree → Nat
  | .seq ts => nodesOfList ts + 1
  | .map fields => nodesOfFields fields + 1
  | _ => 1

def nodesOfList : List Tree → Nat
  | [] => 0
  | t :: rest => nodes t + nodesOfList rest

def nodesOfFields : List (String × Tree) → Nat
  | [] => 0
  | (_, t) :: rest => nodes t + nodesOfFields rest

end

end ScraperTimeline.Schema
