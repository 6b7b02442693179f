import ScraperTimeline.Proofs.Normal.Expanded
import ScraperTimeline.Proofs.Normal.Soundness

/-!
Trees on which a pass is done. The pass makes them so, whatever the tree, it leaves them as they are, and
the passes after it keep them so. Thus a normalized tree is a fixed point.
-/
namespace ScraperTimeline.Normal
open Shape

/-! ### Places -/

def EachBody (P : List (String × Tree) → Prop) : Tree → Prop :=
  IfMapping (At "dataDefs" (IfMapping (Values (IfMapping P))))

def EachMember (P : List (String × Tree) → Prop) : Tree → Prop :=
  EachBody (At "axis" (IfMapping (Values (IfMapping (At "members" (IfSequence (IfMapping P)))))))

def EachGroup (P : List (String × Tree) → Prop) : Tree → Prop := IfMapping (At "steps" (IfMapping P))

def EachTask (P : List (String × Tree) → Prop) : Tree → Prop :=
  IfMapping (At "taskGroups" (IfMapping (Values (IfMapping (Values (IfMapping P))))))

section
variable {P Q : List (String × Tree) → Prop} {t : Tree}

theorem EachBody.mono (h : EachBody P t) (himp : ∀ body, P body → Q body) : EachBody Q t :=
  IfMapping.mono h fun _ hat => hat.mono fun _ hv => hv.mono fun _ hvalues body hbody =>
    (hvalues body hbody).mono himp

theorem EachGroup.mono (h : EachGroup P t) (himp : ∀ groups, P groups → Q groups) : EachGroup Q t :=
  IfMapping.mono h fun _ hat => hat.mono fun _ hv => hv.mono himp

theorem EachTask.mono (h : EachTask P t) (himp : ∀ task, P task → Q task) : EachTask Q t :=
  IfMapping.mono h fun _ hat => hat.mono fun _ hv => hv.mono fun _ hvalues tasks htasks =>
    (hvalues tasks htasks).mono fun _ hvalues task htask => (hvalues task htask).mono himp

theorem EachBody.eachBody {f : List (String × Tree) → List (String × Tree)} (h : EachBody P t)
    (hf : ∀ body, P body → Q (f body)) : EachBody Q (eachBody f t) := by
  refine IfMapping.modify h fun v hv => ?_
  rw [if_pos rfl]
  exact hv.modifyAll fun body hbody => hbody.modifyFields hf

theorem eachBody_eq_self {f : List (String × Tree) → List (String × Tree)} (h : EachBody P t)
    (hf : ∀ body, P body → f body = body) : eachBody f t = t :=
  modify_eq_self h fun _ hv => modifyAll_eq_self hv fun _ hbody => modifyFields_eq_self hbody hf

-- A change of the members is a change of the bodies.
theorem EachBody.eachMember {f : Nat → List (String × Tree) → List (String × Tree)} (h : EachBody P t)
    (hf : ∀ body g, P body →
      Q (body.map fun (k, v) => if k = "axis" then (k, Tree.modifyAll g v) else (k, v))) :
    EachBody Q (eachMember f t) := by
  refine IfMapping.modify h fun v hv => ?_
  rw [if_pos rfl]
  refine hv.modifyAll fun body hbody => ?_
  cases body with
  | map fields => exact hf fields _ hbody
  | _ => trivial

theorem EachMember.eachMember {f : Nat → List (String × Tree) → List (String × Tree)}
    (h : EachMember P t) (hf : ∀ n member, P member → Q (f n member)) :
    EachMember Q (Normal.eachMember f t) := by
  refine IfMapping.modify h fun v hv => ?_
  rw [if_pos rfl]
  refine hv.modifyAll fun body hbody => IfMapping.modify hbody fun axes haxes => ?_
  rw [if_pos rfl]
  refine haxes.modifyAll fun axis haxis => IfMapping.modify haxis fun members hmembers => ?_
  rw [if_pos rfl]
  exact hmembers.modifyItems fun n member hmember => hmember.modifyFields (hf n)

theorem eachMember_eq_self {f : Nat → List (String × Tree) → List (String × Tree)}
    (h : EachMember P t) (hf : ∀ n member, P member → f n member = member) :
    Normal.eachMember f t = t := by
  refine modify_eq_self h fun _ hv => modifyAll_eq_self hv fun _ hbody => ?_
  refine modify_eq_self hbody fun _ haxes => modifyAll_eq_self haxes fun _ haxis => ?_
  refine modify_eq_self haxis fun _ hmembers => modifyItems_eq_self hmembers fun n _ hmember => ?_
  exact modifyFields_eq_self hmember (hf n)

theorem EachTask.eachTask {f : List (String × Tree) → List (String × Tree)} (h : EachTask P t)
    (hf : ∀ task, P task → Q (f task)) :
    EachTask Q (t.modify "taskGroups" (Tree.modifyAll (Tree.modifyAll (Tree.modifyFields f)))) := by
  refine IfMapping.modify h fun groups hgroups => ?_
  rw [if_pos rfl]
  exact hgroups.modifyAll fun _ htasks => htasks.modifyAll fun _ htask => htask.modifyFields hf

theorem eachMember_of_forall (h : ∀ member, P member) (t : Tree) : EachMember P t := by
  refine ifMapping_of_forall fun _ v _ => ifMapping_of_forall fun _ body _ => ?_
  refine ifMapping_of_forall fun _ axes _ => ifMapping_of_forall fun _ axis _ => ?_
  exact ifMapping_of_forall fun _ members _ => ifSequence_of_forall fun _ => ifMapping_of_forall h

theorem eachBody_of_forall (h : ∀ body, P body) (t : Tree) : EachBody P t :=
  ifMapping_of_forall fun _ _ _ => ifMapping_of_forall fun _ _ _ => ifMapping_of_forall h

theorem eachTask_of_forall (h : ∀ task, P task) (t : Tree) : EachTask P t :=
  ifMapping_of_forall fun _ _ _ => ifMapping_of_forall fun _ _ _ => ifMapping_of_forall fun _ _ _ =>
    ifMapping_of_forall h

end

/-! ### Passes -/

def HasFact (body : List (String × Tree)) : Prop :=
  "axis" ∈ Fields.keys body ∧ At "axis" (IfMapping fun axes => "fact" ∈ Fields.keys axes) body

-- A sequence of steps that is the group of its name.
def IsExpanded (groups : Groups) (group : String × Tree) : Prop :=
  ∀ entries, group.2 = .seq entries → groups.lookup group.1 = some group.2 ∧ Textless entries

def HasSteps (task : List (String × Tree)) : Prop :=
  ∀ v, task.lookup "steps" = some v → ¬IsText v ∧ IfSequence (¬IsText ·) v

def Done : Pass → Tree → Prop
  | .addFactAxis, t => EachBody HasFact t
  | .addIndex, t => EachMember (fun member => "index" ∈ Fields.keys member) t
  | .addOrder, t => EachMember (fun member => "order" ∈ Fields.keys member) t
  | .expandSteps, t => EachGroup (fun groups => ∀ group ∈ groups, IsExpanded (groupsOf t) group) t
  | .setDefaultSteps, t => EachTask (fun task => "steps" ∈ Fields.keys task) t
  | .expandTaskSteps, t => EachTask HasSteps t

/-! ### A pass that is done changes nothing -/

section
variable {t : Tree} {groups : Groups}

theorem withFactAxis_eq_self {body : List (String × Tree)} (h : HasFact body) :
    withFactAxis body = body := by
  rw [withFactAxis, Fields.default_of_mem h.1]
  refine map_eq_self ?_
  rintro ⟨k, v⟩ hfield
  by_cases hkey : k = "axis"
  · subst hkey
    simp [modifyFields_eq_self (h.2 v hfield) fun axes haxes => Fields.default_of_mem haxes]
  · simp [hkey]

theorem setDefaultSteps_eq (defaultGroup : String) (t : Tree) :
    setDefaultSteps defaultGroup t =
      t.modify "taskGroups" (Tree.modifyAll (Tree.modifyAll (Tree.modifyFields
        (Fields.default "steps" (.string defaultGroup))))) := by
  rw [setDefaultSteps, eachTask_pure]
  rfl

theorem expandSteps_eq_self (h : Done .expandSteps t) : expandSteps t = .ok t := by
  rw [expandSteps_eq]
  refine modifyM_eq_self h fun steps hsteps => onFields_eq_self (hsteps.mono fun groups hgroups => ?_)
  refine mapValues_eq_self ?_
  rintro ⟨name, group⟩ hgroup
  cases group with
  | seq entries =>
      obtain ⟨hlookup, htextless⟩ := hgroups _ hgroup entries rfl
      exact inlinedOne_of_textless hlookup htextless
  | _ => rfl

theorem inlinedTask_eq_self {task : List (String × Tree)} (groups : Groups) (h : HasSteps task) :
    inlinedTask groups task = .ok task := by
  rw [inlinedTask]
  split
  next name hname => exact ((h _ hname).1 ⟨name, rfl⟩).elim
  next entries hentries =>
    rw [inlined_of_textless (h _ hentries).2]
    exact congrArg Except.ok (Fields.put_eq_self hentries)
  next => rfl

theorem expandTaskSteps_eq_self (h : EachTask HasSteps t) : expandTaskSteps t = .ok t := by
  rw [expandTaskSteps_eq]
  refine modifyM_eq_self h fun _ hgroups => modifyAllM_eq_self hgroups fun _ htasks => ?_
  exact modifyAllM_eq_self htasks fun _ htask => onFields_eq_self (htask.mono fun _ => inlinedTask_eq_self _)

theorem Done.run {pass : Pass} (h : Done pass t) (defaultGroup : String) :
    pass.run defaultGroup t = .ok t := by
  cases pass with
  | addFactAxis => exact congrArg Except.ok (eachBody_eq_self h fun body => withFactAxis_eq_self)
  | addIndex => exact congrArg Except.ok (eachMember_eq_self h fun n member => Fields.default_of_mem)
  | addOrder => exact congrArg Except.ok (eachMember_eq_self h fun n member => Fields.default_of_mem)
  | expandSteps => exact expandSteps_eq_self h
  | setDefaultSteps =>
      refine congrArg Except.ok ((setDefaultSteps_eq defaultGroup t).trans ?_)
      refine modify_eq_self h fun _ hgroups => modifyAll_eq_self hgroups fun _ htasks => ?_
      exact modifyAll_eq_self htasks fun _ htask => modifyFields_eq_self htask fun _ => Fields.default_of_mem
  | expandTaskSteps => exact expandTaskSteps_eq_self h

end

end ScraperTimeline.Normal
