import ScraperTimeline.Tree.Update

/-!
What normalization adds to the axes of the definitions: a fact axis, and positions and order of members.
-/
namespace ScraperTimeline.Normal

/-- Changes the fields of each definition body. -/
def eachBody (f : List (String × Tree) → List (String × Tree)) : Tree → Tree :=
  Tree.modify "dataDefs" (Tree.modifyAll (Tree.modifyFields f))

/-- Changes the fields of each member of each axis, by its position among the members of its axis. -/
def eachMember (f : Nat → List (String × Tree) → List (String × Tree)) : Tree → Tree :=
  Tree.modify "dataDefs" <| Tree.modifyAll <| Tree.modify "axis" <| Tree.modifyAll <|
    Tree.modify "members" <| Tree.modifyItems fun position => Tree.modifyFields (f position)

/-- The axis of definitions that declare no facts: one fact, called so. -/
def factAxis : Tree :=
  .map [("members", .seq [.map [("name", .string "fact"), ("value", .string "fact")]])]

def withFactAxis (body : List (String × Tree)) : List (String × Tree) :=
  (Fields.default "axis" (.map []) body).map fun (k, v) =>
    if k = "axis" then (k, v.modifyFields (Fields.default "fact" factAxis)) else (k, v)

/-- Gives each definition a fact axis. -/
def addFactAxis : Tree → Tree := eachBody withFactAxis

def position (n : Nat) : Tree := .int (Int64.ofNat n)

/-- Gives each member without an index its position, counted from zero. -/
def addIndex : Tree → Tree := eachMember fun n => Fields.default "index" (position n)

/-- The order of a member that declares none: its index, or else its position. -/
def orderOf (n : Nat) (member : List (String × Tree)) : Tree :=
  match (member.lookup "index").bind Tree.integer? with
  | some index => .int index
  | none => position n

def addOrder : Tree → Tree := eachMember fun n member => Fields.default "order" (orderOf n member) member

end ScraperTimeline.Normal
