import ScraperTimeline.Proofs.Normal.Staged
import ScraperTimeline.Proofs.Tree.Framed

/-!
What normalization leaves of a tree: all that is declared, in its place. It adds axes where there is none, and
an index and an order to members, and besides that it changes nothing but the steps.
-/
namespace ScraperTimeline.Normal
open Shape

/-! ### Definitions -/

-- A member has an index, and then an order, after all that it declares, if it does not declare them.
def FramedMember (n : Nat) : Tree → Tree → Prop :=
  OnMapping fun member member' =>
    ∃ order, member' = Fields.withMissing [("index", position n), ("order", .int order)] member

def FramedAxis : Tree → Tree → Prop := OnMapping (Related (Only "members" (OnSequence (Itemwise FramedMember))))

-- The axis that a definition is given if it has none of facts.
def numberedFact : Tree :=
  .map [("members", .seq [.map [("name", .string "fact"), ("value", .string "fact"), ("index", .int 0),
    ("order", .int 0)]])]

def FramedAxes : Tree → Tree → Prop := OnMapping (Extended (fun _ => FramedAxis) [("fact", numberedFact)])

-- Below the axis of a body there are additions only, and a body without one is given it after all else.
def FramedBody : Tree → Tree → Prop :=
  OnMapping (Extended (Only "axis" FramedAxes) [("axis", .map [("fact", numberedFact)])])

-- All that is added to the definitions, in one pass over them.
def numbered (n : Nat) (member : List (String × Tree)) : List (String × Tree) :=
  Fields.default "order" (orderOf n (Fields.default "index" (position n) member))
    (Fields.default "index" (position n) member)

def withMembers : Tree → Tree := Tree.modify "members" (Tree.modifyItems fun n => Tree.modifyFields (numbered n))

def withAxes (axes : Tree) : Tree :=
  (axes.modifyFields (Fields.default "fact" factAxis)).modifyAll withMembers

def withAxis (body : Tree) : Tree :=
  (body.modifyFields (Fields.default "axis" (.map []))).modify "axis" withAxes

theorem axes_eq (t : Tree) :
    addOrder (addIndex (addFactAxis t)) = t.modify "dataDefs" (Tree.modifyAll withAxis) := by
  simp only [addOrder, addIndex, addFactAxis, eachMember, eachBody, modifyFields_withFactAxis, Tree.modify_modify,
    Tree.modifyAll_modifyAll, Tree.modifyItems_modifyItems, Tree.modifyFields_modifyFields, Function.comp_def]
  rfl

theorem exists_orderOf (n : Nat) (member : List (String × Tree)) : ∃ order, orderOf n member = .int order := by
  rw [orderOf]
  split <;> exact ⟨_, rfl⟩

theorem framed_numbered (n : Nat) (member : List (String × Tree)) :
    ∃ order, numbered n member = Fields.withMissing [("index", position n), ("order", .int order)] member := by
  obtain ⟨order, horder⟩ := exists_orderOf n (Fields.default "index" (position n) member)
  refine ⟨order, ?_⟩
  rw [Fields.withMissing_cons (by simp [Fields.keys]), Fields.withMissing_singleton, numbered, horder]

theorem framed_withMembers (axis : Tree) : FramedAxis axis (withMembers axis) := by
  refine onMapping_modify (fun members => ?_) "members" axis
  exact onSequence_modifyItems (fun n => onMapping_modifyFields (framed_numbered n)) members

theorem framed_withAxes (axes : Tree) : FramedAxes axes (withAxes axes) :=
  onMapping_modifyAll_default framed_withMembers "fact" factAxis axes

theorem framed_withAxis (body : Tree) : FramedBody body (withAxis body) :=
  onMapping_modify_default framed_withAxes "axis" (.map []) body

/-! ### Steps -/

-- Of the steps of a task it is known only that they stay, or become a sequence.
def FramedSteps (v v' : Tree) : Prop := v' = v ∨ ∃ steps, v' = .seq steps

def FramedTask : Tree → Tree → Prop :=
  OnMapping fun task task' => ∃ steps, Extended (Only "steps" FramedSteps) [("steps", .seq steps)] task task'

section
variable {t t' e : Tree} {groups : Groups} {defaultGroup : String}

theorem onMapping_of_onFields {P : List (String × Tree) → List (String × Tree) → Prop}
    {f : List (String × Tree) → Except Fault (List (String × Tree))}
    (hf : ∀ fields fields', f fields = .ok fields' → P fields fields') (hrun : onFields f t = .ok t') :
    OnMapping P t t' := by
  cases t with
  | map fields =>
      obtain ⟨fields', hfields, hrun⟩ := exists_of_bind hrun
      exact ⟨fields', (Except.ok.inj hrun).symm, hf fields fields' hfields⟩
  | _ => exact (Except.ok.inj hrun).symm

theorem onMapping_of_modifyAllM {R : Tree → Tree → Prop} {f : Tree → Except Fault Tree}
    (hf : ∀ v v', f v = .ok v' → R v v') (hrun : t.modifyAllM f = .ok t') :
    OnMapping (Related fun _ => R) t t' := by
  rw [modifyAllM_eq] at hrun
  refine onMapping_of_onFields (fun fields fields' hfields => ?_) hrun
  exact (related_of_mapValues hfields).mono fun _ => hf

theorem onMapping_of_modifyM {R : Tree → Tree → Prop} {key : String} {f : Tree → Except Fault Tree}
    (hf : ∀ v v', f v = .ok v' → R v v') (hrun : t.modifyM key f = .ok t') :
    OnMapping (Related (Only key R)) t t' := by
  rw [modifyM_eq] at hrun
  refine onMapping_of_onFields (fun fields fields' hfields => ?_) hrun
  refine (related_of_mapValues hfields).mono fun k v v' hv => ?_
  rw [Only]
  split at hv
  next hkey =>
    rw [if_pos hkey]
    exact hf v v' hv
  next hkey =>
    rw [if_neg hkey]
    exact (Except.ok.inj hv).symm

theorem onSequence_of_inlinedOne {name : String} (hrun : inlinedOne groups name t = .ok t') :
    OnSequence (fun _ _ => True) t t' := by
  cases t with
  | seq entries =>
      obtain ⟨steps, -, hrun⟩ := exists_of_bind hrun
      exact ⟨steps, (Except.ok.inj hrun).symm, trivial⟩
  | _ => exact (Except.ok.inj hrun).symm

-- What stands at the steps of a task is given them, unless it is neither a text nor a sequence.
theorem exists_extended_of_inlinedTask {task task' : List (String × Tree)}
    (hrun : inlinedTask groups (Fields.default "steps" (.string defaultGroup) task) = .ok task') :
    ∃ steps, Extended (Only "steps" FramedSteps) [("steps", .seq steps)] task task' := by
  have hput (steps : List Tree) :
      Extended (Only "steps" FramedSteps) [("steps", .seq steps)] task (Fields.put "steps" (.seq steps) task) :=
    extended_put (fun _ => .inl rfl) (fun _ => .inr ⟨steps, rfl⟩) task
  rw [inlinedTask] at hrun
  simp only [Fields.put_default] at hrun
  split at hrun
  · obtain ⟨steps, -, hrun⟩ := exists_of_bind hrun
    exact ⟨steps, Except.ok.inj hrun ▸ hput steps⟩
  · obtain ⟨steps, -, hrun⟩ := exists_of_bind hrun
    exact ⟨steps, Except.ok.inj hrun ▸ hput steps⟩
  next htext _ =>
    obtain rfl := Except.ok.inj hrun
    by_cases hkey : "steps" ∈ Fields.keys task
    · rw [Fields.default_of_mem hkey]
      refine ⟨[], task, related_only_self (fun _ => .inl rfl) "steps" task, ?_⟩
      rw [Fields.withMissing_singleton, Fields.default_of_mem hkey]
    · have hnone := Fields.lookup_eq_none_iff.mpr hkey
      exact (htext defaultGroup (by rw [Fields.lookup_default, if_pos rfl, hnone]; rfl)).elim

theorem onFields_modifyFields {m : Type → Type} [Monad m] (f : List (String × Tree) → List (String × Tree))
    (g : List (String × Tree) → m (List (String × Tree))) (t : Tree) :
    onFields g (t.modifyFields f) = onFields (g ∘ f) t := by
  cases t <;> rfl

theorem tasks_eq (defaultGroup : String) (t : Tree) :
    expandTaskSteps (setDefaultSteps defaultGroup t) =
      t.modifyM "taskGroups" (Tree.modifyAllM (Tree.modifyAllM (onFields fun task =>
        inlinedTask (groupsOf t) (Fields.default "steps" (.string defaultGroup) task)))) := by
  rw [expandTaskSteps_eq, groupsOf_setDefaultSteps, setDefaultSteps_eq]
  simp only [Tree.modifyM_modify, Tree.modifyAllM_modifyAll, onFields_modifyFields, Function.comp_def]

/-! ### Sections -/

def FramedDefinitions : Tree → Tree → Prop := OnMapping (Related fun _ => FramedBody)

def FramedGroups : Tree → Tree → Prop := OnMapping (Related fun _ => OnSequence fun _ _ => True)

def FramedTasks : Tree → Tree → Prop := OnMapping (Related fun _ => OnMapping (Related fun _ => FramedTask))

-- A section that normalization knows of changes so, and any other one does not change.
def FramedSection (key : String) (v v' : Tree) : Prop :=
  match key with
  | "dataDefs" => FramedDefinitions v v'
  | "steps" => FramedGroups v v'
  | "taskGroups" => FramedTasks v v'
  | _ => v' = v

theorem framed_axes (t : Tree) :
    OnMapping (Related (Only "dataDefs" FramedDefinitions)) t (addOrder (addIndex (addFactAxis t))) := by
  rw [axes_eq]
  exact onMapping_modify (onMapping_modifyAll framed_withAxis) "dataDefs" t

theorem framed_of_expandSteps (hrun : expandSteps t = .ok t') :
    OnMapping (Related (Only "steps" FramedGroups)) t t' := by
  rw [expandSteps_eq] at hrun
  refine onMapping_of_modifyM (fun _ _ => onMapping_of_onFields fun _ _ hgroups => ?_) hrun
  exact (related_of_mapValues hgroups).mono fun _ _ _ => onSequence_of_inlinedOne

theorem framed_of_expandTaskSteps (hrun : expandTaskSteps (setDefaultSteps defaultGroup t) = .ok t') :
    OnMapping (Related (Only "taskGroups" FramedTasks)) t t' := by
  rw [tasks_eq] at hrun
  refine onMapping_of_modifyM (fun _ _ => onMapping_of_modifyAllM fun _ _ => ?_) hrun
  exact onMapping_of_modifyAllM fun _ _ => onMapping_of_onFields fun _ _ => exists_extended_of_inlinedTask

-- The passes change three sections, one after another.
theorem normalize_framed (hrun : normalize defaultGroup t = .ok e) : OnMapping (Related FramedSection) t e := by
  rw [normalize_eq_bind] at hrun
  obtain ⟨t', hsteps, htasks⟩ := exists_of_bind hrun
  have hall := ((framed_axes t).comp (framed_of_expandSteps hsteps)).comp (framed_of_expandTaskSteps htasks)
  refine hall.mono ?_
  rintro fields fields' ⟨_, ⟨_, haxes, hsteps⟩, htasks⟩
  refine ((haxes.comp hsteps).comp htasks).mono ?_
  rintro key v v' ⟨_, ⟨_, haxes, hsteps⟩, htasks⟩
  simp only [Only] at haxes hsteps htasks
  unfold FramedSection
  split <;> simp_all

end

-- Of the definitions, one has a member without anything and an axis that is none, one is no mapping, and one
-- has no axes.
theorem normalize_framed_ragged :
    ∃ e, normalize "load" ragged = .ok e ∧ OnMapping (Related FramedSection) ragged e ∧
      e.field? "dataDefs" = some (.map [
        ("price", .map [("axis", .map [
          ("row", .map [("members", .seq [.map [("index", .int 0), ("order", .int 0)], .null])]),
          ("fact", .null)])]),
        ("rate", .null), ("fee", .map [("axis", .map [("fact", numberedFact)])])]) := by
  obtain ⟨e, hrun⟩ : ∃ e, normalize "load" ragged = .ok e := ⟨_, rfl⟩
  refine ⟨e, hrun, normalize_framed hrun, ?_⟩
  cases hrun
  rfl

end ScraperTimeline.Normal
