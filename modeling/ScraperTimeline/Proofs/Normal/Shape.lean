import ScraperTimeline.Normal.Basic
import ScraperTimeline.Proofs.Tree.Shape

/-!
The shape of definition trees, by the passes that are done. With none of them done it is what authors may
write, with all of them it is a normal form.
-/
namespace ScraperTimeline.Normal

open Shape

-- What a definition may be called.
def namePattern : Text.Pattern :=
  let letter : Text.Pattern := .set false [('A', 'Z'), ('a', 'z'), ('0', '9'), ('_', '_'), ('-', '-')]
  .seq (.seq letter (.many letter)) .nothing

section
variable (done : List Pass)

def IsMember : Tree → Prop :=
  Mapping fun fields =>
    Closed [("index", IsPosition), ("match", IsText), ("name", IsText), ("order", IsWhole),
      ("value", IsScalar)] fields ∧
    ("value" ∈ Fields.keys fields ∨ "match" ∈ Fields.keys fields) ∧
    "name" ∈ Fields.keys fields ∧
    (.addIndex ∈ done → "index" ∈ Fields.keys fields) ∧
    (.addOrder ∈ done → "order" ∈ Fields.keys fields)

def IsAxis : Tree → Prop :=
  Mapping (Closed [("members", Sequence (IsMember done)), ("query", Mapping (Values IsText))])

def IsAxes : Tree → Prop :=
  Mapping fun fields =>
    Closed [("col", IsAxis done), ("fact", IsAxis done), ("row", IsAxis done)] fields ∧
    (.addFactAxis ∈ done → "fact" ∈ Fields.keys fields)

def IsDefinition : Tree → Prop :=
  Mapping fun fields =>
    Optional "axis" (IsAxes done) fields ∧ Optional "query" IsMapping fields ∧
    "axis" ∈ Fields.keys fields

def IsStep : Tree → Prop :=
  Mapping fun fields =>
    (∀ key ∈ ["class", "name", "next", "previous"], Optional key IsText fields) ∧
    "name" ∈ Fields.keys fields ∧ "class" ∈ Fields.keys fields

-- A text in a list of steps stands for the steps of a group, until it is expanded.
def IsSteps (pass : Pass) : Tree → Prop :=
  Sequence fun t => IsStep t ∨ (pass ∉ done ∧ IsText t)

def IsTask : Tree → Prop :=
  Mapping fun fields =>
    Optional "dataDef" IsText fields ∧
    Optional "steps" (fun t => IsSteps done .expandTaskSteps t ∨ (.expandTaskSteps ∉ done ∧ IsText t))
      fields ∧
    "dataDef" ∈ Fields.keys fields ∧
    (.setDefaultSteps ∈ done → "steps" ∈ Fields.keys fields)

def IsDefinitions : Tree → Prop :=
  Mapping fun fields =>
    Values (IsDefinition done) fields ∧ ∀ name ∈ Fields.keys fields, namePattern.accepts name.toList

def IsTasks : Tree → Prop := Mapping (Values (Mapping (Values (IsTask done))))

def IsGroups : Tree → Prop := Mapping (Values (IsSteps done .expandSteps))

-- A whole definition tree.
def IsDefs : Tree → Prop :=
  Mapping fun fields =>
    Closed [("dataDefs", IsDefinitions done), ("locatorGroups", IsMapping), ("steps", IsGroups done),
      ("taskGroups", IsTasks done)] fields ∧
    "dataDefs" ∈ Fields.keys fields

-- Each section depends on the passes that change it and on no others.

variable {done} {pass : Pass}

theorem isMember_append (hindex : pass ≠ .addIndex) (horder : pass ≠ .addOrder) :
    IsMember (done ++ [pass]) = IsMember done := by
  simp [IsMember, hindex.symm, horder.symm]

theorem isAxis_append (hindex : pass ≠ .addIndex) (horder : pass ≠ .addOrder) :
    IsAxis (done ++ [pass]) = IsAxis done := by
  simp only [IsAxis, isMember_append hindex horder]

theorem isDefinitions_append (hfact : pass ≠ .addFactAxis) (hindex : pass ≠ .addIndex)
    (horder : pass ≠ .addOrder) : IsDefinitions (done ++ [pass]) = IsDefinitions done := by
  simp only [IsDefinitions, IsDefinition, IsAxes, isAxis_append hindex horder, List.mem_append,
    List.mem_singleton, hfact.symm, or_false]

theorem isGroups_append (hexpand : pass ≠ .expandSteps) :
    IsGroups (done ++ [pass]) = IsGroups done := by
  simp [IsGroups, IsSteps, hexpand.symm]

theorem isTasks_append (hset : pass ≠ .setDefaultSteps) (hexpand : pass ≠ .expandTaskSteps) :
    IsTasks (done ++ [pass]) = IsTasks done := by
  simp [IsTasks, IsTask, IsSteps, hset.symm, hexpand.symm]

end

end ScraperTimeline.Normal
