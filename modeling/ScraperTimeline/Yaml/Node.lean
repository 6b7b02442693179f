import ScraperTimeline.Yaml.Scalar
import ScraperTimeline.Tree.Fields

/-!
The nodes of a YAML document as written, with tags, anchors and aliases, and the tree that a document
stands for.
-/
namespace ScraperTimeline.Yaml

/-- What may stand before a node. The number is that of its anchor. -/
structure Properties where
  anchor : Option Nat := none
  tag : Option (List Char) := none
deriving Repr, Inhabited, DecidableEq

inductive Node where
  | scalar (properties : Properties) (text : List Char) (plain : Bool)
  | alias (anchor : Nat)
  | seq (properties : Properties) (items : List Node)
  | map (properties : Properties) (fields : List (Node × Node))
deriving Repr, Inhabited

namespace Node

def empty : Node := .scalar {} [] true

mutual

/-- The anchored nodes in the order in which they start. -/
def anchored : Node → List (Nat × Node)
  | .scalar p text plain => own p (.scalar p text plain)
  | .alias _ => []
  | .seq p items => own p (.seq p items) ++ anchoredItems items
  | .map p fields => own p (.map p fields) ++ anchoredFields fields

def anchoredItems : List Node → List (Nat × Node)
  | [] => []
  | n :: rest => anchored n ++ anchoredItems rest

def anchoredFields : List (Node × Node) → List (Nat × Node)
  | [] => []
  | (k, v) :: rest => anchored k ++ anchored v ++ anchoredFields rest

def own (p : Properties) (n : Node) : List (Nat × Node) := p.anchor.toList.map (·, n)

end

mutual

/-- The number of events in a node: one a scalar or an alias, and two more around a collection. -/
def events : Node → Nat
  | .seq _ items => eventsOfItems items + 2
  | .map _ fields => eventsOfFields fields + 2
  | _ => 1

def eventsOfItems : List Node → Nat
  | [] => 0
  | n :: rest => events n + eventsOfItems rest

def eventsOfFields : List (Node × Node) → Nat
  | [] => 0
  | (k, v) :: rest => events k + events v + eventsOfFields rest

end

/-- A computation that may follow only so many aliases. -/
abbrev Following := StateT Nat Option

def follow : Following Unit := fun left => if left = 0 then none else some ((), left - 1)

-- The node that an alias stands for; of several with one number the last.
def target? (anchors : List (Nat × Node)) (anchor : Nat) : Option Node := anchors.reverse.lookup anchor

/-- The node itself, or the one that an alias stands for. -/
def pointed (anchors : List (Nat × Node)) : Node → Following Node
  | .alias anchor => do
    follow
    (target? anchors anchor : Option Node)
  | n => return n

/-- Puts the anchored nodes in place of their aliases, within `depth` nested collections. -/
def expand (anchors : List (Nat × Node)) : Nat → Node → Following Node
  | 0, n => do
    match ← pointed anchors n with
    | .scalar p text plain => return .scalar p text plain
    | _ => failure
  | depth + 1, n => do
    match ← pointed anchors n with
    | .scalar p text plain => return .scalar p text plain
    | .seq p items => return .seq p (← items.mapM (expand anchors depth))
    | .map p fields =>
      return .map p (← fields.mapM fun (k, v) => do
        return (← expand anchors depth k, ← expand anchors depth v))
    | .alias _ => failure

/-- Collections may be nested so deep. -/
def maxDepth : Nat := 128

/-- The document without aliases. A document may follow 100 times as many as it has events. -/
def resolved? (n : Node) : Option Node :=
  ((expand n.anchored maxDepth n).run (100 * n.events)).map (·.1)

end Node

/-! ### Trees -/

def coreTag (name : String) : List Char := "tag:yaml.org,2002:".toList ++ name.toList

/-- A tag of the document's own has no meaning. -/
def isLocal (tag : Option (List Char)) : Bool := tag.any fun t => t.head? = some '!'

/-- A scalar under a tag. The tags of the core types ask for a value of the type, any other for the
text as it stands. -/
def taggedScalar? (tag text : List Char) : Option Tree :=
  if tag = coreTag "bool" then (bool? text).map .bool
  else if tag = coreTag "int" then (integer? text).bind intToTree?
  else if tag = coreTag "float" then (float? text).map .float
  else if tag = coreTag "null" then
    if isNull text && text ≠ [] then some .null else none
  else some (.string (String.ofList text))

def scalarTree? (p : Properties) (text : List Char) (plain : Bool) : Option Tree :=
  match p.tag with
  | some tag => if isLocal p.tag then none else taggedScalar? tag text
  | none =>
    if plain then (Scalar.ofPlain text).toTree? text else some (.string (String.ofList text))

mutual

/-- The tree of a node without aliases. Keys have to be strings; of a repeated key the last value
counts, at the first place. -/
def Node.toTree? : Node → Option Tree
  | .scalar p text plain => scalarTree? p text plain
  | .alias _ => none
  | .seq p items => if isLocal p.tag then none else (itemTrees? items).map .seq
  | .map p fields =>
    if isLocal p.tag then none
    else (fieldTrees? fields).map fun entries => .map (Fields.ofList entries)

def itemTrees? : List Node → Option (List Tree)
  | [] => some []
  | n :: rest => do return (← n.toTree?) :: (← itemTrees? rest)

def fieldTrees? : List (Node × Node) → Option (List (String × Tree))
  | [] => some []
  | (k, v) :: rest => do
    let key ← (← k.toTree?).string?
    return (key, ← v.toTree?) :: (← fieldTrees? rest)

end

end ScraperTimeline.Yaml
