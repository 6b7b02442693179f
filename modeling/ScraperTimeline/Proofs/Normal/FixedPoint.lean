import ScraperTimeline.Proofs.Normal.Done

/-!
What a pass leaves behind: its own part is done whatever the tree was, and what has been done before it
stays done. So a normalized tree is a fixed point.
-/
namespace ScraperTimeline.Normal
open Shape

namespace Keeps

variable {I : Expanded → Prop} {R S : Tree → Prop} {f : Tree → Expanding Tree} {t : Tree}

theorem trivial {α : Type} (x : Expanding α) : Keeps (fun _ => True) x fun _ => True :=
  fun _ _ _ _ _ => ⟨True.intro, True.intro⟩

theorem modifyM {key : String} (h : IfMapping (At key R) t) (hf : ∀ v, R v → Keeps I (f v) S) :
    Keeps I (t.modifyM key f) (IfMapping (At key S)) := by
  cases t with
  | map fields =>
      refine (keeps_modifyM (R := fun _ => S) fun v hv => hf v (h v hv)).mono ?_
      rintro _ ⟨fields', rfl, hrel⟩
      exact hrel.at h fun v v' _ hv' => by simpa using hv'
  | _ => exact .pure True.intro

theorem modifyAllM (h : IfMapping (Values R) t) (hf : ∀ v, R v → Keeps I (f v) S) :
    Keeps I (t.modifyAllM f) (IfMapping (Values S)) := by
  cases t with
  | map fields =>
      refine (keeps_modifyAllM (R := fun _ => S) fun field hfield => hf _ (h field hfield)).mono ?_
      rintro _ ⟨fields', rfl, hrel⟩
      exact hrel.values h fun _ _ _ _ hv' => hv'
  | _ => exact .pure True.intro

theorem eachTask {P Q : List (String × Tree) → Prop}
    {f : List (String × Tree) → Expanding (List (String × Tree))} (h : EachTask P t)
    (hf : ∀ task, P task → Keeps I (f task) Q) : Keeps I (Normal.eachTask f t) (EachTask Q) := by
  refine .modifyM h fun groups hgroups => .modifyAllM hgroups fun tasks htasks => ?_
  refine .modifyAllM htasks fun task htask => ?_
  cases task with
  | map fields => exact (hf fields htask).bind fun fields' hfields' => .pure hfields'
  | _ => exact .pure True.intro

end Keeps

section
variable {pass : Pass} {defaultGroup : String} {t t' : Tree}

/-! ### Sections -/

-- The section of the tree that a pass changes.
def Pass.section : Pass → String
  | .addFactAxis => "dataDefs"
  | .addIndex => "dataDefs"
  | .addOrder => "dataDefs"
  | .expandSteps => "steps"
  | .setDefaultSteps => "taskGroups"
  | .expandTaskSteps => "taskGroups"

theorem elsewhere_of_modifyM {key : String} {f : Tree → Expanding Tree}
    (hrun : (t.modifyM key f).start = .ok t') : Elsewhere key t t' := by
  cases t with
  | map fields =>
      refine Keeps.of_start (I := fun _ => True) ?_ trivial hrun
      refine (keeps_modifyM (R := fun _ _ => True) fun v _ => .trivial (f v)).mono ?_
      rintro _ ⟨fields', rfl, hrel⟩
      refine .inr ⟨fields, fields', rfl, rfl, hrel.mono fun k v v' h hne => ?_⟩
      simpa [hne] using h
  | _ => exact .inl (Except.ok.inj hrun).symm

theorem elsewhere_setDefaultSteps (defaultGroup : String) (t : Tree) :
    Elsewhere "taskGroups" t (setDefaultSteps defaultGroup t) := by
  rw [setDefaultSteps_eq]
  exact elsewhere_modify _ _ t

theorem elsewhere_of_run (hrun : pass.run defaultGroup t = .ok t') : Elsewhere pass.section t t' := by
  cases pass with
  | addFactAxis =>
      obtain rfl := Except.ok.inj hrun
      exact elsewhere_modify _ _ t
  | addIndex =>
      obtain rfl := Except.ok.inj hrun
      exact elsewhere_modify _ _ t
  | addOrder =>
      obtain rfl := Except.ok.inj hrun
      exact elsewhere_modify _ _ t
  | expandSteps => exact elsewhere_of_modifyM hrun
  | setDefaultSteps =>
      obtain rfl := Except.ok.inj hrun
      exact elsewhere_setDefaultSteps _ t
  | expandTaskSteps => exact elsewhere_of_modifyM hrun

-- The tree has each section at most once, and each group.
structure Sectioned (t : Tree) : Prop where
  sections : IfMapping (fun fields => (Fields.keys fields).Nodup) t
  groups : EachGroup (fun groups => (Fields.keys groups).Nodup) t

theorem sectioned_of_keyed (h : t.keyed) : Sectioned t := by
  cases t with
  | map fields =>
      obtain ⟨hnodup, hvalues⟩ := Tree.keyed_map_iff.mp h
      refine ⟨hnodup, fun v hv => ?_⟩
      have hsteps := hvalues _ hv
      cases v with
      | map groups => exact (Tree.keyed_map_iff.mp hsteps).1
      | _ => trivial
  | _ => exact ⟨trivial, trivial⟩

theorem groups_of_expandSteps (h : EachGroup (fun groups => (Fields.keys groups).Nodup) t)
    (hrun : expandSteps t = .ok t') :
    EachGroup (fun groups => (Fields.keys groups).Nodup ∧ Values (IfSequence (¬IsText ·)) groups) t' := by
  refine Keeps.of_start (I := Stepwise (¬IsText ·)) (.modifyM h fun steps hsteps => ?_)
    (by simp [Stepwise]) hrun
  have hsound : GroupsSound (¬IsText ·) (groupsOf t) := fun _ _ _ step _ => (Classical.em (IsText step)).symm
  cases steps with
  | map groups =>
      refine (Keeps.mapM (R := fun before after => after.1 = before.1 ∧ IfSequence (¬IsText ·) after.2)
        fun group _ => ?_).bind fun groups' hrel => .pure ?_
      · obtain ⟨name, group⟩ := group
        cases group with
        | seq items => exact (keeps_expandGroup hsound name).bind fun steps hsteps => .pure ⟨rfl, hsteps⟩
        | _ => exact .pure ⟨rfl, trivial⟩
      · have hrel : Related (fun _ _ group' => IfSequence (¬IsText ·) group') groups groups' := hrel
        refine ⟨?_, fun group' hgroup' => ?_⟩
        · rw [hrel.keys_eq]
          exact hsteps
        · obtain ⟨_, _, hsteps'⟩ := hrel.exists_of_mem hgroup'
          exact hsteps'
  | _ => exact .pure trivial

theorem Sectioned.run (h : Sectioned t) (hrun : pass.run defaultGroup t = .ok t') : Sectioned t' := by
  have helsewhere := elsewhere_of_run hrun
  refine ⟨?_, ?_⟩
  · rcases helsewhere with rfl | ⟨fields, fields', rfl, rfl, hrel⟩
    · exact h.sections
    · rw [IfMapping, hrel.keys_eq]
      exact h.sections
  · by_cases hsteps : "steps" = pass.section
    · obtain rfl : pass = .expandSteps := by
        revert hsteps
        cases pass <;> decide
      exact (groups_of_expandSteps h.groups hrun).mono fun _ => And.left
    · exact helsewhere.at h.groups hsteps

/-! ### A pass does its part -/

theorem hasFact_withFactAxis (body : List (String × Tree)) : HasFact (withFactAxis body) := by
  have hrel := related_modify "axis" (Tree.modifyFields (Fields.default "fact" factAxis))
    (Fields.default "axis" (.map []) body)
  refine ⟨?_, hrel.at (R := fun _ => True) (fun _ _ => trivial) fun v v' _ hv' => ?_⟩
  · have hkeys : Fields.keys (withFactAxis body) = _ := hrel.keys_eq
    rw [hkeys]
    exact Fields.mem_keys_default _ _ body
  · rw [hv'.2, if_pos rfl]
    exact (ifMapping_of_forall (P := fun _ => True) fun _ => trivial).modifyFields
      fun axes _ => Fields.mem_keys_default _ _ axes

theorem Sectioned.isExpanded (h : Sectioned t) (htext : EachGroup (Values (IfSequence (¬IsText ·))) t) :
    Done .expandSteps t := by
  cases t with
  | map fields =>
      intro steps hsteps
      have hnodup := h.groups steps hsteps
      have htext := htext steps hsteps
      cases steps with
      | map groups =>
          have hgroups : groupsOf (.map fields) = groups := by
            rw [groupsOf, Tree.field?, Fields.lookup_of_mem h.sections hsteps]
            rfl
          intro group hgroup entries hentries
          rw [hgroups]
          refine ⟨Fields.lookup_of_mem hnodup hgroup, ?_⟩
          have hgroup := htext group hgroup
          rwa [hentries] at hgroup
      | _ => trivial
  | _ => trivial

theorem keeps_expandTask (groups : Groups) (task : List (String × Tree)) :
    Keeps (Stepwise (¬IsText ·)) (expandTask groups task) HasSteps := by
  have hsound : GroupsSound (¬IsText ·) groups := fun _ _ _ step _ => (Classical.em (IsText step)).symm
  have hput {steps : List Tree} (hsteps : ∀ step ∈ steps, ¬IsText step) :
      HasSteps (Fields.put "steps" (.seq steps) task) := by
    intro v hv
    obtain rfl : .seq steps = v := by simpa using hv
    exact ⟨fun ⟨s, hs⟩ => Tree.noConfusion hs, hsteps⟩
  rw [expandTask]
  split
  next name hname => exact (keeps_expandGroup hsound name).bind fun steps hsteps => .pure (hput hsteps)
  next entries hentries =>
    refine (keeps_expandEntries hsound fun step _ => (Classical.em (IsText step)).symm).bind ?_
    exact fun steps hsteps => .pure (hput hsteps)
  next hname hentries =>
    refine .pure fun v hv => ⟨?_, ?_⟩
    · rintro ⟨s, rfl⟩
      exact hname s hv
    · cases v with
      | seq entries => exact (hentries entries hv).elim
      | _ => trivial

theorem keeps_expandTask_keys (groups : Groups) (task : List (String × Tree)) :
    Keeps (fun _ => True) (expandTask groups task) fun task' => Fields.keys task ⊆ Fields.keys task' := by
  rw [expandTask]
  split
  next => exact (Keeps.trivial _).bind fun steps _ => .pure (Fields.keys_subset_put "steps" _ task)
  next => exact (Keeps.trivial _).bind fun steps _ => .pure (Fields.keys_subset_put "steps" _ task)
  next => exact .pure (List.Subset.refl _)

theorem done_of_run (h : Sectioned t) (hrun : pass.run defaultGroup t = .ok t') : Done pass t' := by
  cases pass with
  | addFactAxis =>
      obtain rfl := Except.ok.inj hrun
      exact (eachBody_of_forall (P := fun _ => True) (fun _ => trivial) t).eachBody fun body _ =>
        hasFact_withFactAxis body
  | addIndex =>
      obtain rfl := Except.ok.inj hrun
      exact (eachMember_of_forall (P := fun _ => True) (fun _ => trivial) t).eachMember fun _ member _ =>
        Fields.mem_keys_default _ _ member
  | addOrder =>
      obtain rfl := Except.ok.inj hrun
      exact (eachMember_of_forall (P := fun _ => True) (fun _ => trivial) t).eachMember fun _ member _ =>
        Fields.mem_keys_default _ _ member
  | expandSteps =>
      have hsectioned : Sectioned t' := h.run hrun
      refine hsectioned.isExpanded ?_
      exact (groups_of_expandSteps h.groups hrun).mono fun _ => And.right
  | setDefaultSteps =>
      obtain rfl := Except.ok.inj hrun
      rw [setDefaultSteps_eq]
      exact (eachTask_of_forall (P := fun _ => True) (fun _ => trivial) t).eachTask fun task _ =>
        Fields.mem_keys_default _ _ task
  | expandTaskSteps =>
      refine Keeps.of_start (I := Stepwise (¬IsText ·)) ?_ (by simp [Stepwise]) hrun
      exact .eachTask (eachTask_of_forall (P := fun _ => True) (fun _ => trivial) t) fun task _ =>
        keeps_expandTask (groupsOf t) task

/-! ### What is done stays done -/

theorem Done.elsewhere {other : Pass} (h : Done pass t) (helsewhere : Elsewhere other.section t t')
    (hne : pass.section ≠ other.section) : Done pass t' := by
  cases pass with
  | expandSteps =>
      have hsteps : t'.field? "steps" = t.field? "steps" := helsewhere.field? hne
      have hgroups : groupsOf t' = groupsOf t := by rw [groupsOf, hsteps, ← groupsOf]
      rw [Done, hgroups]
      exact helsewhere.at h hne
  | _ => exact helsewhere.at h hne

theorem HasFact.members {body : List (String × Tree)} (h : HasFact body) (g : Tree → Tree) :
    HasFact (body.map fun (k, v) => if k = "axis" then (k, Tree.modifyAll g v) else (k, v)) := by
  have hrel := related_modify "axis" (Tree.modifyAll g) body
  refine ⟨?_, hrel.at h.2 fun v v' hv hv' => ?_⟩
  · rw [hrel.keys_eq]
    exact h.1
  · rw [hv'.2, if_pos rfl]
    cases v with
    | map axes =>
        rw [Tree.modifyAll, IfMapping, (related_modifyAll g axes).keys_eq]
        exact hv
    | _ => trivial

theorem of_section_eq {other : Pass} (hbefore : pass ∈ Pass.order.takeWhile (· ≠ other))
    (hsection : pass.section = other.section) :
    (pass = .addFactAxis ∧ other = .addIndex) ∨ (pass = .addFactAxis ∧ other = .addOrder) ∨
    (pass = .addIndex ∧ other = .addOrder) ∨ (pass = .setDefaultSteps ∧ other = .expandTaskSteps) := by
  revert hbefore hsection
  cases pass <;> cases other <;> decide

theorem Done.later {other : Pass} (h : Done pass t) (hbefore : pass ∈ Pass.order.takeWhile (· ≠ other))
    (hrun : other.run defaultGroup t = .ok t') : Done pass t' := by
  by_cases hsection : pass.section = other.section
  -- The later of two passes over one section takes no key away.
  · obtain ⟨rfl, rfl⟩ | ⟨rfl, rfl⟩ | ⟨rfl, rfl⟩ | ⟨rfl, rfl⟩ := of_section_eq hbefore hsection
    · obtain rfl := Except.ok.inj hrun
      exact EachBody.eachMember h fun body g hbody => hbody.members g
    · obtain rfl := Except.ok.inj hrun
      exact EachBody.eachMember h fun body g hbody => hbody.members g
    · obtain rfl := Except.ok.inj hrun
      exact EachMember.eachMember h fun _ member hmember => Fields.keys_subset_default _ _ member hmember
    · refine Keeps.of_start (I := fun _ => True) (.eachTask h fun task htask => ?_) trivial hrun
      exact (keeps_expandTask_keys (groupsOf t) task).mono fun task' hkeys => hkeys htask
  · exact h.elsewhere (elsewhere_of_run hrun) hsection

/-! ### Normal forms -/

structure Settling (done : List Pass) (t : Tree) : Prop where
  sectioned : Sectioned t
  done : ∀ pass ∈ done, Done pass t

theorem Settling.step {done rest : List Pass} (h : Settling done t)
    (horder : done ++ pass :: rest = Pass.order) (hrun : pass.run defaultGroup t = .ok t') :
    Settling (done ++ [pass]) t' := by
  refine ⟨h.sectioned.run hrun, fun p hp => ?_⟩
  rcases List.mem_append.mp hp with hp | hp
  · exact (h.done p hp).later (done_eq_takeWhile horder ▸ hp) hrun
  · obtain rfl := List.mem_singleton.mp hp
    exact done_of_run h.sectioned hrun

theorem done_of_normalize (hkeyed : t.keyed) (hrun : normalize defaultGroup t = .ok t') (pass : Pass) :
    Done pass t' := by
  have h : Settling Pass.order t' :=
    normalize_induct (fun _ _ _ _ _ => Settling.step) ⟨sectioned_of_keyed hkeyed, by simp⟩ hrun
  exact h.done pass (by cases pass <;> decide)

theorem normalize_of_done (h : ∀ pass, Done pass t) (defaultGroup : String) :
    normalize defaultGroup t = .ok t := by
  rw [normalize]
  induction Pass.order with
  | nil => rfl
  | cons pass rest ih =>
      rw [List.foldlM_cons, (h pass).run]
      exact ih

-- What normalization gives is a fixed point of it, whatever was given to it and whatever group is the
-- default the second time.
theorem normalize_idempotent (hkeyed : t.keyed) (hrun : normalize defaultGroup t = .ok t')
    (otherGroup : String) : normalize otherGroup t' = .ok t' :=
  normalize_of_done (done_of_normalize hkeyed hrun) otherGroup

end

-- Bodies and tasks that are none, a group with a list inside, and one that is no list.
def ragged : Tree :=
  .map [
    ("dataDefs", .map [
      ("price", .map [("axis", .map [("row", .map [("members", .seq [.map [], .null])]), ("fact", .null)])]),
      ("rate", .null), ("fee", .map [])]),
    ("steps", .map [
      ("load", .seq [.seq [.string "read"], .string "read", .null]),
      ("read", .seq [.map [("name", .string "read")]]),
      ("off", .bool false)]),
    ("taskGroups", .map [("daily", .map [
      ("prices", .map []), ("rates", .map [("steps", .null)]), ("fees", .string "load")])])]

theorem normalize_idempotent_ragged :
    ∃ t, normalize "load" ragged = .ok t ∧ normalize "load" t = .ok t ∧ normalize "missing" t = .ok t := by
  obtain ⟨t, hrun⟩ : ∃ t, normalize "load" ragged = .ok t := ⟨_, rfl⟩
  have hkeyed : ragged.keyed := by decide
  exact ⟨t, hrun, normalize_idempotent hkeyed hrun "load", normalize_idempotent hkeyed hrun "missing"⟩

end ScraperTimeline.Normal
