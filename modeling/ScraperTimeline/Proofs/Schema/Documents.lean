import ScraperTimeline.Proofs.Json.Token
import ScraperTimeline.Proofs.Schema.Packaged
import Mathlib

/-!
The packaged contracts can be read, and what is read are the schemas that are written out for them.
-/
namespace ScraperTimeline.Schema
open Json

-- The references that are left to read, one after another, and what is known in the end.
inductive Resolves (refAlone : Bool) (document : Tree) :
    Nat → List String → List (String × Schema) → List (String × Schema) → Prop
  | done {known : List (String × Schema)} : Resolves refAlone document 0 [] known known
  | known {n : Nat} {target : String} {more : List String} {known final : List (String × Schema)}
    (hold : (known.lookup target).isSome) (hmore : Resolves refAlone document n more known final) :
    Resolves refAlone document (n + 1) (target :: more) known final
  | read {n : Nat} {target : String} {more targets : List String}
    {known final : List (String × Schema)} {t : Tree} {s : Schema}
    (hnew : known.lookup target = none) (hplace : place? document target = some t)
    (hs : ofTree? refAlone t = some s) (htargets : s.refs ++ more = targets)
    (hmore : Resolves refAlone document n targets (known ++ [(target, s)]) final) :
    Resolves refAlone document (n + 1) (target :: more) known final

theorem Resolves.definitions?_eq_some {refAlone : Bool} {document : Tree} {n fuel : Nat}
    {targets : List String} {known final : List (String × Schema)}
    (h : Resolves refAlone document n targets known final) (hfuel : n ≤ fuel) :
    definitions? refAlone document fuel targets known = some final := by
  induction h generalizing fuel with
  | done => cases fuel <;> rfl
  | known hold hmore ih =>
      obtain ⟨fuel, rfl⟩ := Nat.exists_eq_add_one_of_ne_zero (Nat.ne_zero_of_lt hfuel)
      rw [definitions?, if_pos hold, ih (Nat.le_of_succ_le_succ hfuel)]
  | read hnew hplace hs htargets hmore ih =>
      obtain ⟨fuel, rfl⟩ := Nat.exists_eq_add_one_of_ne_zero (Nat.ne_zero_of_lt hfuel)
      simp [definitions?, hnew, hplace, hs, htargets, ih (Nat.le_of_succ_le_succ hfuel)]

theorem ofDocument?_eq_some {document : Tree} {refAlone : Bool} {s : Schema} {n : Nat}
    {targets : List String} {definitions : List (String × Schema)} {name version : String}
    (halone : refAlone? document = some refAlone) (hs : ofTree? refAlone document = some s)
    (htargets : s.refs = targets) (hdefinitions : Resolves refAlone document n targets [] definitions)
    (hbound : n ≤ (nodes document + 1) * (nodes document + 1))
    (hversion : (document.field? "version").bind Tree.string? = some version) :
    Contract.ofDocument? name document = some ⟨name, version, document, s, definitions⟩ := by
  simp [Contract.ofDocument?, halone, hs, htargets, hdefinitions.definitions?_eq_some hbound, hversion]

theorem ofSortedJson?_eq_some {lines : List String} {ts : List Token} {j : Json} {t : Tree}
    (hts : Lines lines ts) (hj : ts.foldlM Reading.step? (.value []) = some (.after j []))
    (hdepth : j.depth ≤ maxDepth) (ht : j.toValue?.map Tree.ofValue = some t) :
    Tree.ofSortedJson? (Packaged.documents.text lines) = some t := by
  have hread : Json.read? (Packaged.documents.text lines).toList = some j := by
    rw [Json.read?, Packaged.documents.text, hts.tokens?_intercalate]
    simp [hj]
  simp [Tree.ofSortedJson?, Value.ofText?, hread, hdepth, ht]

namespace Packaged
namespace Document

def typed (name : String) (more : List (String × Tree)) : Tree :=
  .map (more ++ [("type", .string name)])

def reference (target : String) : Tree := .map [("$ref", .string target)]

def strings (keys : List String) : Tree := .seq (keys.map .string)

def textType : Tree := typed "string" []

variable (stage : Stage)

def axisDocument : Tree :=
  typed "object" [
    ("additionalProperties", .bool false),
    ("properties", .map [
      ("members", typed "array" [("items", reference "#/definitions/member")]),
      ("query", typed "object" [("additionalProperties", textType)])])]

def dataDefDocument : Tree :=
  typed "object" [
    ("properties", .map [
      ("axis", typed "object" <| [
        ("additionalProperties", .bool false),
        ("properties", .map [
          ("col", reference "#/definitions/axis"), ("fact", reference "#/definitions/axis"),
          ("row", reference "#/definitions/axis")])] ++
        match stage with
        | .defined => []
        | .effective => [("required", strings ["fact"])]),
      ("query", typed "object" [])]),
    ("required", strings ["axis"])]

def memberDocument : Tree :=
  typed "object" [
    ("additionalProperties", .bool false),
    ("anyOf", .seq [.map [("required", strings ["value"])], .map [("required", strings ["match"])]]),
    ("properties", .map [
      ("index", typed "integer" [("minimum", .int 0)]), ("match", textType), ("name", textType),
      ("order", typed "integer" []), ("value", .map [("type", strings ["string", "number"])])]),
    ("required", strings <| match stage with
      | .defined => ["name"]
      | .effective => ["name", "index", "order"])]

def stepDocument : Tree :=
  typed "object" [
    ("properties", .map [
      ("class", textType), ("name", textType), ("next", textType), ("previous", textType)]),
    ("required", strings ["name", "class"])]

def stepGroupDocument : Tree :=
  typed "array" [
    ("items", match stage with
      | .defined => .map [("oneOf", .seq [textType, reference "#/definitions/step"])]
      | .effective => reference "#/definitions/step")]

def taskDocument : Tree :=
  typed "object" [
    ("properties", .map [
      ("dataDef", textType),
      ("steps", match stage with
        | .defined => .map [("oneOf", .seq [textType, reference "#/definitions/stepGroup"])]
        | .effective => reference "#/definitions/stepGroup")]),
    ("required", strings <| match stage with
      | .defined => ["dataDef"]
      | .effective => ["dataDef", "steps"])]

end Document

open Document

-- A packaged contract as a tree, its keys sorted.
def document (stage : Stage) : Tree :=
  .map [
    ("$schema", .string "http://json-schema.org/draft-07/schema#"),
    ("additionalProperties", .bool false),
    ("definitions", .map [
      ("axis", axisDocument), ("dataDef", dataDefDocument stage), ("member", memberDocument stage),
      ("step", stepDocument), ("stepGroup", stepGroupDocument stage), ("task", taskDocument stage)]),
    ("properties", .map [
      ("dataDefs", typed "object" [
        ("additionalProperties", reference "#/definitions/dataDef"),
        ("propertyNames", .map [("pattern", .string "^[A-Za-z0-9_-]+$")])]),
      ("locatorGroups", typed "object" []),
      ("steps", typed "object" [("additionalProperties", reference "#/definitions/stepGroup")]),
      ("taskGroups", typed "object" [
        ("additionalProperties",
          typed "object" [("additionalProperties", reference "#/definitions/task")])])]),
    ("required", strings ["dataDefs"]),
    ("title", .string (stage.name ++ " defs")),
    ("type", .string "object"),
    ("version", .string "1")]

section
variable (all : List (String × Tree)) (declared : List (String × Schema)) (t : Tree)

-- Keywords that say nothing; two of them have to be texts.
private theorem rule?_notes :
    rule? true all declared "version" t = some none ∧
      rule? true all declared "$schema" t = t.string?.map (fun _ => none) ∧
      rule? true all declared "title" t = t.string?.map fun _ => none := by
  simp [rule?, notes]

end

section
variable (stage : Stage)

-- Each definition of a document is read as its schema.
theorem ofTree?_definitions :
    ofTree? true axisDocument = some axis ∧ ofTree? true (dataDefDocument stage) = some (dataDef stage) ∧
      ofTree? true (memberDocument stage) = some (member stage) ∧ ofTree? true stepDocument = some step ∧
      ofTree? true (stepGroupDocument stage) = some (stepGroup stage) ∧
      ofTree? true (taskDocument stage) = some (task stage) := by
  refine ⟨?_, ?_, ?_, ?_, ?_, ?_⟩ <;> cases stage <;> cbv

-- The keywords of the document that say nothing are taken out by hand before the rest is evaluated.
set_option maxRecDepth 20000 in
theorem ofTree?_document : ofTree? true (document stage) = some defs := by
  cases stage <;> simp only [document, ofTree?, rules?, rule?_notes] <;> cbv

theorem refs_definitions :
    (dataDef stage).refs = ["#/definitions/axis", "#/definitions/axis", "#/definitions/axis"] ∧
      (member stage).refs = [] ∧ (stepGroup stage).refs = ["#/definitions/step"] ∧
      (task stage).refs = ["#/definitions/stepGroup"] ∧
      defs.refs = ["#/definitions/dataDef", "#/definitions/stepGroup", "#/definitions/task"] := by
  refine ⟨?_, ?_, ?_, ?_, ?_⟩ <;> cases stage <;> cbv

-- The places are read in the order in which they are met, each once.
theorem document_resolves :
    Resolves true (document stage) 9
      ["#/definitions/dataDef", "#/definitions/stepGroup", "#/definitions/task"] []
      (definitions stage) := by
  obtain ⟨haxis, hdataDef, hmember, hstep, hstepGroup, htask⟩ := ofTree?_definitions stage
  obtain ⟨hdataDefRefs, hmemberRefs, hstepGroupRefs, htaskRefs, -⟩ := refs_definitions stage
  refine .read rfl (by cbv) hdataDef (congrArg (· ++ _) hdataDefRefs) ?_
  refine .read rfl (by cbv) haxis (by cbv) ?_
  refine .read rfl (by cbv) hmember (congrArg (· ++ _) hmemberRefs) ?_
  refine .known rfl (.known rfl ?_)
  refine .read rfl (by cbv) hstepGroup (congrArg (· ++ _) hstepGroupRefs) ?_
  refine .read rfl (by cbv) hstep (by cbv) ?_
  refine .read rfl (by cbv) htask (congrArg (· ++ _) htaskRefs) ?_
  exact .known rfl .done

end

-- The contract of a stage, under any name.
def contract (stage : Stage) (name : String) : Contract :=
  ⟨name, "1", document stage, defs, definitions stage⟩

def Stage.lines : Stage → List String
  | .defined => definedLines
  | .effective => effectiveLines

set_option maxRecDepth 20000 in
theorem ofSortedJson?_lines (stage : Stage) :
    Tree.ofSortedJson? (documents.text stage.lines) = some (document stage) := by
  cases stage <;> simp only [Stage.lines, definedLines, effectiveLines] <;> apply ofSortedJson?_eq_some
  case defined.hts | effective.hts => repeat (first | exact Lines.nil | apply Lines.cons rfl (by cbv))
  all_goals cbv

theorem lookup_documents (stage : Stage) :
    documents.lookup stage.name = some (documents.text stage.lines) := by
  cases stage with
  | defined => exact List.lookup_cons_self
  | effective =>
      rw [documents, List.lookup_cons, show (Stage.effective.name == "defined") = false from rfl]
      exact List.lookup_cons_self

theorem ofDocument?_document (stage : Stage) (name : String) :
    Contract.ofDocument? name (document stage) = some (contract stage name) := by
  have hbound : 9 ≤ (nodes (document stage) + 1) * (nodes (document stage) + 1) := by
    cases stage <;> cbv
  obtain ⟨-, -, -, -, hrefs⟩ := refs_definitions stage
  exact ofDocument?_eq_some (by cbv) (ofTree?_document stage) hrefs (document_resolves stage) hbound
    (by cbv)

theorem ofText_documents (stage : Stage) (name : String) :
    Contract.ofText name (documents.text stage.lines) = .ok (contract stage name) := by
  simp only [Contract.ofText, ofSortedJson?_lines, ofDocument?_document]

end Packaged

end ScraperTimeline.Schema
