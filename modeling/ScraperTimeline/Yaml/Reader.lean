import ScraperTimeline.Yaml.Token
import ScraperTimeline.Yaml.Node

/-!
Reading a document from its tokens. The tokens are taken one by one; what is open at each of them is a
stack of collections. A token may close several of them before it is used.
-/
namespace ScraperTimeline.Yaml

/-- A collection whose next node is being read, with what stands before that node, the last first. -/
inductive Frame where
  /-- The document; an explicit one may be empty. -/
  | document (explicit : Bool)
  | item (p : Properties) (before : List Node)
  /-- An item of a sequence that is not indented under its key. -/
  | looseItem (p : Properties) (before : List Node)
  | key (p : Properties) (before : List (Node × Node))
  | value (p : Properties) (before : List (Node × Node)) (key : Node)
  | flowItem (p : Properties) (before : List Node)
  /-- The parts of a lone pair inside a flow sequence. -/
  | pairKey
  | pairValue (key : Node)
  | flowKey (p : Properties) (before : List (Node × Node))
  /-- A key without a value inside a flow mapping. -/
  | loneKey (p : Properties) (before : List (Node × Node))
  | flowValue (p : Properties) (before : List (Node × Node)) (key : Node)

/-- What has been read, and what may come next. -/
inductive Reading where
  /-- Directives before a document. -/
  | header (version : Bool) (handles : List (List Char × List Char))
  /-- A node, after its properties so far. -/
  | node (p : Properties) (outer : List Frame)
  | firstItem (p : Properties) (outer : List Frame)
  | firstKey (p : Properties) (outer : List Frame)
  /-- An item or a key of a flow collection, or its end. -/
  | flowItems (p : Properties) (before : List Node) (outer : List Frame)
  | flowKeys (p : Properties) (before : List (Node × Node)) (outer : List Frame)
  | after (n : Node) (outer : List Frame)
  /-- The end marks of the document. -/
  | trailer (root : Node)
  | done (root : Option Node)

/-- The names that a document gives: its anchors, each with as many as there were names before, and its
tag handles. -/
structure Names where
  anchors : List (List Char × Nat) := []
  handles : List (List Char × List Char) := []

/-- The handles that need no directive. -/
def defaultHandles : List (List Char × List Char) :=
  [(['!'], ['!']), (['!', '!'], "tag:yaml.org,2002:".toList)]

def Names.addAnchor (name : List Char) (names : Names) : Nat × Names :=
  let number := names.anchors.length
  (number,
    { names with anchors := (name, number) :: names.anchors.filter fun (other, _) => other ≠ name })

/-- The tag that a handle and a suffix make. -/
def Names.tag? (handle suffix : List Char) (names : Names) : Option (List Char) :=
  if handle = [] then some suffix else (names.handles.lookup handle).map (· ++ suffix)

/-- Holds of the tokens at which the node of a frame is left out. -/
def Frame.isEmptyAt (t : Token) : Frame → Bool
  | .document explicit =>
    explicit && match t with
      | .version .. | .tagHandle .. | .documentStart | .documentEnd | .streamEnd => true
      | _ => false
  | .item .. => t = .entry || t = .blockEnd
  | .looseItem .. => t = .entry || t = .key || t = .value || t = .blockEnd
  | .key .. | .value .. => t = .key || t = .value || t = .blockEnd
  | .pairKey => t = .value || t = .comma || t = .flowSequenceEnd
  | .pairValue _ => t = .comma || t = .flowSequenceEnd
  | .flowKey .. => t = .value || t = .comma || t = .flowMappingEnd
  | .flowValue .. => t = .comma || t = .flowMappingEnd
  | .flowItem .. | .loneKey .. => false

/-- Frames in which a block may start. -/
def Frame.isBlock : Frame → Bool
  | .document _ | .item .. | .looseItem .. | .key .. | .value .. => true
  | _ => false

/-- Frames in which a sequence may start without further indentation. -/
def Frame.allowsLoose : Frame → Bool
  | .key .. | .value .. => true
  | _ => false

namespace Reading

/-- Goes on after the fields of a block mapping. -/
def afterFields? (p : Properties) (before : List (Node × Node)) (outer : List Frame) :
    Token → Option Reading
  | .key => some (.node {} (.key p before :: outer))
  | .blockEnd => some (.after (.map p before.reverse) outer)
  | _ => none

def afterFlowItems? (p : Properties) (before : List Node) (outer : List Frame) :
    Token → Option Reading
  | .comma => some (.flowItems p before outer)
  | .flowSequenceEnd => some (.after (.seq p before.reverse) outer)
  | _ => none

def afterFlowFields? (p : Properties) (before : List (Node × Node)) (outer : List Frame) :
    Token → Option Reading
  | .comma => some (.flowKeys p before outer)
  | .flowMappingEnd => some (.after (.map p before.reverse) outer)
  | _ => none

/-- Goes on after a complete node. -/
def complete? (t : Token) (n : Node) : List Frame → Option Reading
  | .document _ :: _ =>
    match t with
    | .documentEnd => some (.trailer n)
    | .streamEnd => some (.done (some n))
    | _ => none
  | .item p before :: outer =>
    match t with
    | .entry => some (.node {} (.item p (n :: before) :: outer))
    | .blockEnd => some (.after (.seq p (n :: before).reverse) outer)
    | _ => none
  | .looseItem p before :: outer =>
    if t = .entry then some (.node {} (.looseItem p (n :: before) :: outer))
    else complete? t (.seq p (n :: before).reverse) outer
  | .key p before :: outer =>
    if t = .value then some (.node {} (.value p before n :: outer))
    else afterFields? p ((n, .empty) :: before) outer t
  | .value p before k :: outer => afterFields? p ((k, n) :: before) outer t
  | .flowItem p before :: outer => afterFlowItems? p (n :: before) outer t
  | .pairKey :: .flowItem p before :: outer =>
    if t = .value then some (.node {} (.pairValue n :: .flowItem p before :: outer))
    else afterFlowItems? p (.map {} [(n, .empty)] :: before) outer t
  | .pairValue k :: .flowItem p before :: outer =>
    afterFlowItems? p (.map {} [(k, n)] :: before) outer t
  | .flowKey p before :: outer =>
    if t = .value then some (.node {} (.flowValue p before n :: outer))
    else afterFlowFields? p ((n, .empty) :: before) outer t
  | .loneKey p before :: outer => afterFlowFields? p ((n, .empty) :: before) outer t
  | .flowValue p before k :: outer => afterFlowFields? p ((k, n) :: before) outer t
  | _ => none

/-- Starts the content of a node. With properties the content may be missing. -/
def content? (p : Properties) (outer : List Frame) (t : Token) : Option Reading :=
  let missing := if p = {} then none else complete? t (.scalar p [] true) outer
  match t with
  | .scalar text plain => some (.after (.scalar p text plain) outer)
  | .flowSequence => some (.flowItems p [] outer)
  | .flowMapping => some (.flowKeys p [] outer)
  | .blockSequence => if outer.head?.any Frame.isBlock then some (.firstItem p outer) else missing
  | .blockMapping => if outer.head?.any Frame.isBlock then some (.firstKey p outer) else missing
  | .entry =>
    if outer.head?.any Frame.allowsLoose then some (.node {} (.looseItem p [] :: outer)) else missing
  | _ => missing

/-- Reads a property of a node or starts its content. The key of a lone pair takes up the token at which
it is missing. -/
def node? (names : Names) (p : Properties) (outer : List Frame) (t : Token) :
    Option (Reading × Names) :=
  if p = {} ∧ outer.head?.any (Frame.isEmptyAt t) then
    match outer with
    | .pairKey :: _ => some (.after .empty outer, names)
    | _ => (complete? t .empty outer).map (·, names)
  else match t, p with
    | .alias name, ⟨none, none⟩ =>
      (names.anchors.lookup name).map fun number => (.after (.alias number) outer, names)
    | .anchor name, ⟨none, tag⟩ =>
      let (number, names) := names.addAnchor name
      some (.node ⟨some number, tag⟩ outer, names)
    | .tag handle suffix, ⟨anchor, none⟩ =>
      (names.tag? handle suffix).map fun tag => (.node ⟨anchor, some tag⟩ outer, names)
    | t, p => (content? p outer t).map (·, names)

/-- Directives, the mark that starts a document, or its first token. -/
def header? (version : Bool) (handles : List (List Char × List Char)) (names : Names) (t : Token) :
    Option (Reading × Names) :=
  match t with
  | .version major minor =>
    if version ∨ major ≠ 1 ∨ (minor ≠ 1 ∧ minor ≠ 2) then none
    else some (.header true handles, names)
  | .tagHandle handle lead =>
    if (handles.lookup handle).isSome then none
    else some (.header version (handles ++ [(handle, lead)]), names)
  | .documentStart =>
    some (.node {} [.document true], { names with handles := handles ++ defaultHandles })
  | t =>
    if version ∨ handles ≠ [] then none
    else if t = .streamEnd then some (.done none, names)
    else node? { names with handles := defaultHandles } {} [.document false] t

/-- Takes one token. -/
def step? : Reading × Names → Token → Option (Reading × Names)
  | (.header version handles, names), t => header? version handles names t
  | (.node p outer, names), t => node? names p outer t
  | (.firstItem p outer, names), t =>
    match t with
    | .entry => some (.node {} (.item p [] :: outer), names)
    | .blockEnd => some (.after (.seq p []) outer, names)
    | _ => none
  | (.firstKey p outer, names), t => (afterFields? p [] outer t).map (·, names)
  | (.flowItems p before outer, names), t =>
    match t with
    | .flowSequenceEnd => some (.after (.seq p before.reverse) outer, names)
    | .key => some (.node {} (.pairKey :: .flowItem p before :: outer), names)
    | t => node? names {} (.flowItem p before :: outer) t
  | (.flowKeys p before outer, names), t =>
    match t with
    | .flowMappingEnd => some (.after (.map p before.reverse) outer, names)
    | .key => some (.node {} (.flowKey p before :: outer), names)
    | t => node? names {} (.loneKey p before :: outer) t
  | (.after n outer, names), t => (complete? t n outer).map (·, names)
  | (.trailer n, names), t =>
    match t with
    | .documentEnd => some (.trailer n, names)
    | .streamEnd => some (.done (some n), names)
    | _ => none
  | (.done _, _), _ => none

end Reading

/-- Reads a text that holds one document or nothing. -/
def read? (text : List Char) : Option (Option Node) := do
  match ← (← tokens? text).foldlM Reading.step? (.header false [], {}) with
  | (.done root, _) => some root
  | _ => none

end ScraperTimeline.Yaml

/-- Reads a tree from YAML text; of nothing the tree is null. -/
def ScraperTimeline.Tree.ofYaml? (text : String) : Option ScraperTimeline.Tree := do
  match ← Yaml.read? text.toList with
  | none => some .null
  | some n => (← n.resolved?).toTree?
