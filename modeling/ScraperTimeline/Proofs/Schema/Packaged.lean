import ScraperTimeline.Proofs.Normal.Shape
import ScraperTimeline.Proofs.Schema.Contract

/-!
What the packaged contracts say. They differ in the fields that they require and in the texts that they
allow for steps.
-/
namespace ScraperTimeline.Schema.Packaged
open ScraperTimeline.Normal Shape

inductive Stage where
  | defined
  | effective
deriving DecidableEq

namespace Stage

def name : Stage → String
  | defined => "defined"
  | effective => "effective"

-- The passes that are done on what meets the contract.
def done : Stage → List Pass
  | defined => []
  | effective => Pass.order

end Stage

/-! ### Schemas -/

def mapping (rules : List Schema) : Schema := .all (rules ++ [.type [.object]])

def sequence (item : Schema) : Schema := .all [.items item, .type [.array]]

def text : Schema := .all [.type [.string]]

variable (stage : Stage)

def member : Schema :=
  mapping [
    .additional [("index", .all [.minimum (.int 0), .type [.integer]]), ("match", text), ("name", text),
      ("order", .all [.type [.integer]]), ("value", .all [.type [.string, .number]])] (.const false),
    .anyOf [.all [.required ["value"]], .all [.required ["match"]]],
    .required (match stage with
      | .defined => ["name"]
      | .effective => ["name", "index", "order"])]

def axis : Schema :=
  mapping [
    .additional [("members", sequence (.ref "#/definitions/member")),
      ("query", mapping [.additional [] text])] (.const false)]

def axes : Schema :=
  mapping <|
    .additional [("col", .ref "#/definitions/axis"), ("fact", .ref "#/definitions/axis"),
      ("row", .ref "#/definitions/axis")] (.const false) ::
    match stage with
    | .defined => []
    | .effective => [.required ["fact"]]

def dataDef : Schema :=
  mapping [.properties [("axis", axes stage), ("query", mapping [])], .required ["axis"]]

def step : Schema :=
  mapping [.properties [("class", text), ("name", text), ("next", text), ("previous", text)],
    .required ["name", "class"]]

def stepGroup : Schema :=
  sequence <| match stage with
    | .defined => .all [.oneOf [text, .ref "#/definitions/step"]]
    | .effective => .ref "#/definitions/step"

def task : Schema :=
  mapping <| match stage with
    | .defined => [
      .properties [("dataDef", text), ("steps", .all [.oneOf [text, .ref "#/definitions/stepGroup"]])],
      .required ["dataDef"]]
    | .effective => [
      .properties [("dataDef", text), ("steps", .ref "#/definitions/stepGroup")],
      .required ["dataDef", "steps"]]

def defs : Schema :=
  mapping [
    .additional [
      ("dataDefs", mapping [
        .additional [] (.ref "#/definitions/dataDef"),
        .propertyNames (.all [.pattern "^[A-Za-z0-9_-]+$" namePattern])]),
      ("locatorGroups", mapping []),
      ("steps", mapping [.additional [] (.ref "#/definitions/stepGroup")]),
      ("taskGroups", mapping [.additional [] (mapping [.additional [] (.ref "#/definitions/task")])])]
      (.const false),
    .required ["dataDefs"]]

def definitions : List (String × Schema) :=
  [("#/definitions/dataDef", dataDef stage), ("#/definitions/axis", axis),
    ("#/definitions/member", member stage), ("#/definitions/stepGroup", stepGroup stage),
    ("#/definitions/step", step), ("#/definitions/task", task stage)]

end ScraperTimeline.Schema.Packaged
