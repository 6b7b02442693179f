import ScraperTimeline.Proofs.Normal.References
import ScraperTimeline.Proofs.Tree.Same
import ScraperTimeline.Proofs.Tree.Update

/-!
Expansion in two stages, of the groups and then of the tasks. A group that has been inlined stands for what
it stood for before, so that tasks come to what they ask of the groups as they were given.
-/
namespace ScraperTimeline.Normal
open Shape

/-! ### Groups that have been inlined -/

-- Of these groups each sequence has been inlined, and all else is as it was.
def Staged (groups groups' : Groups) : Prop :=
  ∀ name, Option.Rel (fun group group' => inlinedOne groups name group = .ok group')
    (groups.lookup name) (groups'.lookup name)

section
variable {groups groups' : Groups} {open_ : List String} {entries steps : List Tree} {name : String}
  {t t' : Tree}

theorem Inlines.textless (h : Inlines groups open_ entries (.ok steps)) : Textless steps := by
  refine h.ok_induct ?nil ?step ?group
  case nil => exact fun _ => List.forall_mem_nil _
  case step =>
    intro open_ step rest steps hstep hrest
    exact List.forall_mem_cons.mpr ⟨hstep, hrest⟩
  case group =>
    intro open_ name entries rest steps more _ _ hsteps hmore
    exact List.forall_mem_append.mpr ⟨hsteps, hmore⟩

theorem inlines_of_inlined (h : inlined groups entries = .ok steps) : Inlines groups [] entries (.ok steps) :=
  h ▸ inlines_inlined groups entries

theorem textless_of_inlinedGroup (h : inlinedGroup groups name = .ok steps) : Textless steps :=
  (inlines_of_inlined ((inlined_text groups name).trans h)).textless

theorem inlinedGroup_of_not_isGroup (h : ¬IsGroup groups name) :
    inlinedGroup groups name = .error (.definitionNotFound "step group" name) := by
  have hentries := entries?_eq_error_iff.mpr ⟨rfl, fun entries hlookup => h ⟨entries, hlookup⟩⟩
  rw [inlinedGroup_eq, inlinedGroupUnder_of_notMem List.not_mem_nil, hentries]
  rfl

theorem Staged.group_or (h : Staged groups groups') (name : String) :
    (∃ entries steps, groups.lookup name = some (.seq entries) ∧ inlinedGroup groups name = .ok steps ∧
      groups'.lookup name = some (.seq steps)) ∨
    (¬IsGroup groups name ∧ groups'.lookup name = groups.lookup name) := by
  have hrel := h name
  rw [IsGroup]
  generalize groups.lookup name = before, groups'.lookup name = after at hrel ⊢
  cases hrel with
  | none => exact .inr ⟨by simp, rfl⟩
  | @some group group' hgroup =>
      cases group with
      | seq entries =>
          obtain ⟨steps, hsteps, hgroup⟩ := exists_of_bind hgroup
          obtain rfl := Except.ok.inj hgroup
          exact .inl ⟨entries, steps, rfl, hsteps, rfl⟩
      | _ =>
          obtain rfl := Except.ok.inj hgroup
          exact .inr ⟨by simp, rfl⟩

theorem Staged.isGroup_iff (h : Staged groups groups') : IsGroup groups' name ↔ IsGroup groups name := by
  rcases h.group_or name with ⟨entries, steps, hbefore, -, hafter⟩ | ⟨-, hlookup⟩
  · exact ⟨fun _ => ⟨entries, hbefore⟩, fun _ => ⟨steps, hafter⟩⟩
  · rw [IsGroup, IsGroup, hlookup]

theorem Staged.inlinedGroup_eq (h : Staged groups groups') (name : String) :
    inlinedGroup groups' name = inlinedGroup groups name := by
  rcases h.group_or name with ⟨entries, steps, -, hsteps, hafter⟩ | ⟨hgroup, -⟩
  · rw [inlinedGroup_of_textless hafter (textless_of_inlinedGroup hsteps), hsteps]
  · rw [inlinedGroup_of_not_isGroup hgroup, inlinedGroup_of_not_isGroup (mt h.isGroup_iff.mp hgroup)]

-- Inlining from groups that have been inlined adds and loses nothing.
theorem Staged.inlined_eq (h : Staged groups groups') (entries : List Tree) :
    inlined groups' entries = inlined groups entries := by
  rw [Normal.inlined_eq, Normal.inlined_eq]
  refine inlinedUnder_congr fun name _ => ?_
  rw [← Normal.inlinedGroup_eq, ← Normal.inlinedGroup_eq, h.inlinedGroup_eq]

theorem Staged.not_refers (h : Staged groups groups') {name other : String} : ¬Refers groups' name other := by
  rintro ⟨entries, hlookup, hother⟩
  rcases h.group_or name with ⟨_, steps, -, hsteps, hafter⟩ | ⟨hgroup, -⟩
  · obtain rfl : steps = entries := by simpa [hafter] using hlookup
    exact textless_of_inlinedGroup hsteps _ hother ⟨other, rfl⟩
  · exact hgroup (h.isGroup_iff.mp ⟨entries, hlookup⟩)

theorem lookup_groupsOf (t : Tree) (name : String) :
    (groupsOf t).lookup name = (t.field? "steps").bind (Tree.field? name) := by
  rw [groupsOf]
  cases t.field? "steps" with
  | none => rfl
  | some steps => cases steps <;> rfl

theorem staged_of_expandSteps (hrun : expandSteps t = .ok t') : Staged (groupsOf t) (groupsOf t') := by
  intro name
  rw [expandSteps_eq] at hrun
  rw [lookup_groupsOf, lookup_groupsOf]
  exact rel_bind (rel_field?_of_modifyM hrun) fun _ _ hsteps => rel_field?_of_mapValues hsteps name

end

/-! ### Failures -/

def FailsOnly {α : Type} (P : Fault → Prop) (x : Except Fault α) : Prop := ∀ e, x = .error e → P e

namespace FailsOnly

variable {α β : Type} {P : Fault → Prop} {t : Tree}

theorem ok (a : α) : FailsOnly P (.ok a) := fun _ h => nomatch h

theorem bind {x : Except Fault α} {f : α → Except Fault β} (hx : FailsOnly P x)
    (hf : ∀ a, FailsOnly P (f a)) : FailsOnly P (x >>= f) := by
  cases x with
  | error e => exact fun _ h => hx _ (Except.error.inj h ▸ rfl)
  | ok a => exact hf a

theorem mapValues {f : String → Tree → Except Fault Tree} (hf : ∀ key v, FailsOnly P (f key v))
    (fields : List (String × Tree)) : FailsOnly P (mapValues f fields) := by
  rw [Normal.mapValues]
  induction fields with
  | nil => exact .ok []
  | cons field fields ih =>
      rw [List.mapM_cons]
      exact ((hf field.1 field.2).bind fun v => .ok (field.1, v)).bind fun field' => ih.bind fun rest => .ok _

theorem onFields {f : List (String × Tree) → Except Fault (List (String × Tree))}
    (hf : ∀ fields, FailsOnly P (f fields)) (t : Tree) : FailsOnly P (onFields f t) := by
  cases t with
  | map fields => exact (hf fields).bind fun fields' => .ok (Tree.map fields')
  | _ => exact .ok _

theorem modifyM {f : Tree → Except Fault Tree} (key : String) (hf : ∀ v, FailsOnly P (f v)) (t : Tree) :
    FailsOnly P (t.modifyM key f) := by
  rw [modifyM_eq]
  refine onFields (mapValues fun k v => ?_) t
  split
  · exact hf v
  · exact .ok v

theorem modifyAllM {f : Tree → Except Fault Tree} (hf : ∀ v, FailsOnly P (f v)) (t : Tree) :
    FailsOnly P (t.modifyAllM f) := by
  rw [modifyAllM_eq]
  exact onFields (mapValues fun _ => hf) t

end FailsOnly

-- A name that is no group's was asked for.
def IsLost (groups : Groups) (e : Fault) : Prop :=
  ∃ name, e = .definitionNotFound "step group" name ∧ ¬IsGroup groups name

section
variable {groups groups' : Groups} {t t' : Tree}

-- No group refers to any other, so that there is nothing left for a cycle.
theorem Staged.failsOnly_inlined (h : Staged groups groups') (entries : List Tree) :
    FailsOnly (IsLost groups) (inlined groups' entries) := by
  intro e herror
  have hexplains : Explains groups' [] entries e :=
    Inlines.explains (herror ▸ inlines_inlined groups' entries) List.nodup_nil
  cases e with
  | cyclicSteps chain =>
      obtain ⟨⟨first, rest, rfl, -, hrefers⟩, -, last, hlast, -⟩ := hexplains
      cases rest with
      | nil => cases hlast
      | cons second rest => exact (h.not_refers (List.isChain_cons_cons.mp hrefers).1).elim
  | definitionNotFound kind missing =>
      obtain ⟨rfl, -, hgroup⟩ := hexplains
      exact ⟨missing, rfl, mt h.isGroup_iff.mpr hgroup⟩
  | _ => exact hexplains.elim

theorem Staged.failsOnly_inlinedTask (h : Staged groups groups') (task : List (String × Tree)) :
    FailsOnly (IsLost groups) (inlinedTask groups' task) := by
  rw [inlinedTask]
  split
  next name _ =>
    rw [← inlined_text]
    exact (h.failsOnly_inlined _).bind fun steps => .ok _
  next entries _ => exact (h.failsOnly_inlined entries).bind fun steps => .ok _
  next => exact .ok task

theorem Staged.failsOnly_expandTaskSteps (h : Staged groups (groupsOf t)) :
    FailsOnly (IsLost groups) (expandTaskSteps t) := by
  rw [expandTaskSteps_eq]
  refine .modifyM _ (FailsOnly.modifyAllM (FailsOnly.modifyAllM (.onFields fun task => ?_))) t
  exact h.failsOnly_inlinedTask task

end

/-! ### Tasks -/

-- The fields of a task, which is a mapping inside a mapping inside the task groups.
def task? (group name : String) (t : Tree) : Option (List (String × Tree)) :=
  (((t.field? "taskGroups").bind (Tree.field? group)).bind (Tree.field? name)).bind Tree.fields?

-- The entries whose steps a task asks for, those of the default group if it does not say.
def asked (defaultGroup : String) (task : List (String × Tree)) : Option (List Tree) :=
  match task.lookup "steps" with
  | none => some [.string defaultGroup]
  | some (.string name) => some [.string name]
  | some (.seq entries) => some entries
  | some _ => none

section
variable {groups : Groups} {t t' : Tree} {group name defaultGroup : String} {entries : List Tree}
  {task : List (String × Tree)}

theorem task?_setDefaultSteps : task? group name (setDefaultSteps defaultGroup t) =
    (task? group name t).map (Fields.default "steps" (.string defaultGroup)) := by
  simp [setDefaultSteps_eq, task?, Option.bind_assoc, Option.bind_map, Option.map_bind]

theorem rel_task?_of_expandTaskSteps (hrun : expandTaskSteps t = .ok t') (group name : String) :
    Option.Rel (fun task task' => inlinedTask (groupsOf t) task = .ok task') (task? group name t)
      (task? group name t') := by
  rw [expandTaskSteps_eq] at hrun
  have htasks := rel_bind (rel_field?_of_modifyM hrun) fun _ _ hgroups => rel_field?_of_modifyAllM hgroups group
  have htask := rel_bind htasks fun _ _ htasks => rel_field?_of_modifyAllM htasks name
  exact rel_bind htask fun _ _ => rel_fields?_of_onFields

theorem inlinedTask_default (hasked : asked defaultGroup task = some entries) :
    inlinedTask groups (Fields.default "steps" (.string defaultGroup) task) =
      (do return Fields.put "steps" (.seq (← inlined groups entries)) task) := by
  rw [inlinedTask, Fields.lookup_default, if_pos rfl]
  simp only [Fields.put_default]
  rw [asked] at hasked
  split at hasked
  next hlookup =>
    obtain rfl := Option.some.inj hasked
    rw [hlookup, inlined_text]
    rfl
  next text hlookup =>
    obtain rfl := Option.some.inj hasked
    rw [hlookup, inlined_text]
    rfl
  next items hlookup =>
    obtain rfl := Option.some.inj hasked
    rw [hlookup]
    rfl
  next => cases hasked

end

/-! ### Normalization -/

section
variable {t t' e : Tree} {defaultGroup : String}

theorem groupsOf_congr (h : t'.field? "steps" = t.field? "steps") : groupsOf t' = groupsOf t := by
  rw [groupsOf, groupsOf, h]

theorem task?_congr (h : t'.field? "taskGroups" = t.field? "taskGroups") (group name : String) :
    task? group name t' = task? group name t := by
  rw [task?, task?, h]

-- The axes first, then the two stages.
theorem normalize_eq_bind (defaultGroup : String) (t : Tree) :
    normalize defaultGroup t = (do
      let t' ← expandSteps (addOrder (addIndex (addFactAxis t)))
      expandTaskSteps (setDefaultSteps defaultGroup t')) := by
  simp only [normalize, Pass.order, List.foldlM_cons, List.foldlM_nil, bind_pure]
  rfl

theorem field?_axes {key : String} (hne : key ≠ "dataDefs") :
    (addOrder (addIndex (addFactAxis t))).field? key = t.field? key :=
  calc (addOrder (addIndex (addFactAxis t))).field? key
      = (addIndex (addFactAxis t)).field? key := (elsewhere_modify _ _ _).field? hne
    _ = (addFactAxis t).field? key := (elsewhere_modify _ _ _).field? hne
    _ = t.field? key := (elsewhere_modify _ _ _).field? hne

theorem groupsOf_setDefaultSteps (defaultGroup : String) (t : Tree) :
    groupsOf (setDefaultSteps defaultGroup t) = groupsOf t :=
  groupsOf_congr ((elsewhere_setDefaultSteps defaultGroup t).field? (by decide))

-- The tree between the two stages.
theorem exists_between_stages (hrun : normalize defaultGroup t = .ok e) :
    ∃ t', expandSteps (addOrder (addIndex (addFactAxis t))) = .ok t' ∧
      Elsewhere "steps" (addOrder (addIndex (addFactAxis t))) t' ∧
      expandTaskSteps (setDefaultSteps defaultGroup t') = .ok e ∧
      Elsewhere "taskGroups" (setDefaultSteps defaultGroup t') e := by
  rw [normalize_eq_bind] at hrun
  obtain ⟨t', hgroups, htasks⟩ := exists_of_bind hrun
  exact ⟨t', hgroups, elsewhere_of_modifyM hgroups, htasks, elsewhere_of_modifyM htasks⟩

theorem field?_dataDefs_of_normalize (hrun : normalize defaultGroup t = .ok e) :
    e.field? "dataDefs" = (addOrder (addIndex (addFactAxis t))).field? "dataDefs" := by
  obtain ⟨t', -, hbefore, -, hafter⟩ := exists_between_stages hrun
  rw [hafter.field? (by decide), (elsewhere_setDefaultSteps defaultGroup t').field? (by decide),
    hbefore.field? (by decide)]

theorem stages_of_normalize (hrun : normalize defaultGroup t = .ok e) :
    Staged (groupsOf t) (groupsOf e) ∧ ∀ group name task, task? group name t = some task → ∃ task',
      inlinedTask (groupsOf e) (Fields.default "steps" (.string defaultGroup) task) = .ok task' ∧
      task? group name e = some task' := by
  obtain ⟨t', hgroups, hbefore, htasks, hafter⟩ := exists_between_stages hrun
  have hgroupsOf : groupsOf e = groupsOf (setDefaultSteps defaultGroup t') :=
    groupsOf_congr (hafter.field? (by decide))
  constructor
  · have hstaged := staged_of_expandSteps hgroups
    rwa [groupsOf_congr (field?_axes (by decide)), ← groupsOf_setDefaultSteps defaultGroup t',
      ← hgroupsOf] at hstaged
  · intro group name task htask
    have hgiven : t'.field? "taskGroups" = t.field? "taskGroups" :=
      (hbefore.field? (by decide)).trans (field?_axes (by decide))
    have hrel := rel_task?_of_expandTaskSteps htasks group name
    rw [task?_setDefaultSteps, task?_congr hgiven, htask, ← hgroupsOf] at hrel
    generalize task? group name e = found at hrel ⊢
    cases hrel with
    | some htask' => exact ⟨_, htask', rfl⟩

-- Each group becomes what it stands for among the groups as they were given, and so does what each task asks
-- for, although it is inlined from groups that have been inlined before. And then no cycle is left to be found.
theorem normalize_inlines :
    (∀ defaultGroup t e, normalize defaultGroup t = .ok e →
      (∀ name entries, (groupsOf t).lookup name = some (.seq entries) → ∃ steps,
        Inlines (groupsOf t) [] [.string name] (.ok steps) ∧ Textless steps ∧
        (groupsOf e).lookup name = some (.seq steps)) ∧
      (∀ group name task entries, task? group name t = some task → asked defaultGroup task = some entries →
        ∃ steps, Inlines (groupsOf t) [] entries (.ok steps) ∧ Textless steps ∧
          task? group name e = some (Fields.put "steps" (.seq steps) task))) ∧
    (∀ t t', expandSteps t = .ok t' → ∀ u, (u = t' ∨ ∃ defaultGroup, u = setDefaultSteps defaultGroup t') →
      ∀ e, expandTaskSteps u = .error e →
        ∃ name, e = .definitionNotFound "step group" name ∧ ¬IsGroup (groupsOf t) name) := by
  refine ⟨fun defaultGroup t e hrun => ?_, fun t t' hrun u hu => ?_⟩
  · obtain ⟨hstaged, htasks⟩ := stages_of_normalize hrun
    refine ⟨fun name entries hlookup => ?_, fun group name task entries htask hasked => ?_⟩
    · rcases hstaged.group_or name with ⟨_, steps, -, hsteps, hafter⟩ | ⟨hgroup, -⟩
      · have h := inlines_of_inlined ((inlined_text (groupsOf t) name).trans hsteps)
        exact ⟨steps, h, h.textless, hafter⟩
      · exact (hgroup ⟨entries, hlookup⟩).elim
    · obtain ⟨task', hinlined, htask'⟩ := htasks group name task htask
      rw [inlinedTask_default hasked, hstaged.inlined_eq] at hinlined
      obtain ⟨steps, hsteps, hput⟩ := exists_of_bind hinlined
      obtain rfl := Except.ok.inj hput
      have h := inlines_of_inlined hsteps
      exact ⟨steps, h, h.textless, htask'⟩
  · have hstaged := staged_of_expandSteps hrun
    rcases hu with rfl | ⟨defaultGroup, rfl⟩
    · exact hstaged.failsOnly_expandTaskSteps
    · rw [← groupsOf_setDefaultSteps defaultGroup t'] at hstaged
      exact hstaged.failsOnly_expandTaskSteps

end

-- `load` has the steps of `read` twice, and of the tasks one says nothing and one asks for both.
def nested : Tree :=
  .map [
    ("steps", .map [
      ("load", .seq [.string "read", .map [("fetch", .null)], .string "read"]),
      ("read", .seq [.map [("open", .null)]])]),
    ("taskGroups", .map [("daily", .map [
      ("prices", .map []), ("fees", .map [("steps", .seq [.string "load", .string "read"])])])])]

def lost : Tree :=
  .map [("taskGroups", .map [("daily", .map [("prices", .map [("steps", .string "load")])])])]

theorem normalize_inlines_nested :
    (∃ e, normalize "load" nested = .ok e ∧
      (∃ steps, Inlines (groupsOf nested) [] [.string "load"] (.ok steps) ∧ Textless steps ∧
        (groupsOf e).lookup "load" = some (.seq steps)) ∧
      (∃ steps, Inlines (groupsOf nested) [] [.string "load"] (.ok steps) ∧ Textless steps ∧
        task? "daily" "prices" e = some [("steps", .seq steps)]) ∧
      (∃ steps, Inlines (groupsOf nested) [] [.string "load", .string "read"] (.ok steps) ∧ Textless steps ∧
        task? "daily" "fees" e = some [("steps", .seq steps)])) ∧
    (∃ name, Fault.definitionNotFound "step group" "load" = .definitionNotFound "step group" name ∧
      ¬IsGroup (groupsOf lost) name) := by
  obtain ⟨hinlines, hlost⟩ := normalize_inlines
  obtain ⟨e, hrun⟩ : ∃ e, normalize "load" nested = .ok e := ⟨_, rfl⟩
  obtain ⟨hgroups, htasks⟩ := hinlines "load" nested e hrun
  refine ⟨⟨e, hrun, ?_, ?_, ?_⟩, ?_⟩
  · exact hgroups "load" _ rfl
  · exact htasks "daily" "prices" [] _ rfl rfl
  · exact htasks "daily" "fees" [("steps", .seq [.string "load", .string "read"])] _ rfl rfl
  · exact hlost lost lost rfl lost (.inl rfl) _ rfl

end ScraperTimeline.Normal
