import ScraperTimeline.Proofs.Normal.Axes
import ScraperTimeline.Proofs.Normal.Expanding

/-!
What the passes over the steps give to a definition tree: groups without texts, and tasks with the steps
that they stand for.
-/
namespace ScraperTimeline.Normal
open Shape

section
variable {done : List Pass} {t t' : Tree}

theorem IsDefs.isGroups {fields : List (String × Tree)} {v : Tree} (h : IsDefs done (.map fields))
    (hv : ("steps", v) ∈ fields) : IsGroups done v := by
  obtain ⟨P, hP, hv⟩ := h.1 _ hv
  obtain rfl : P = IsGroups done := by simpa using hP
  exact hv

theorem IsDefs.isTasks {fields : List (String × Tree)} {v : Tree} (h : IsDefs done (.map fields))
    (hv : ("taskGroups", v) ∈ fields) : IsTasks done v := by
  obtain ⟨P, hP, hv⟩ := h.1 _ hv
  obtain rfl : P = IsTasks done := by simpa using hP
  exact hv

-- The groups of a tree, and the steps that its tasks name, hold steps and texts.
theorem IsDefs.groupsSound (h : IsDefs done t) : GroupsSound IsStep (groupsOf t) := by
  cases t with
  | map fields =>
      intro name entries hentries
      have hlookup : ((groupsOf (.map fields)).lookup name).bind Tree.items? = some entries := by
        rw [entries?] at hentries
        split at hentries <;> simp_all
      rw [groupsOf, Tree.field?] at hlookup
      cases hsteps : fields.lookup "steps" with
      | none => simp [hsteps] at hlookup
      | some steps =>
          have hgroups := h.isGroups (Fields.mem_of_lookup hsteps)
          cases steps with
          | map groups =>
              simp only [hsteps, Option.bind_some, Tree.fields?, Option.getD_some] at hlookup
              obtain ⟨group, hgroup, hitems⟩ := Option.bind_eq_some_iff.mp hlookup
              cases group with
              | seq items =>
                  obtain rfl : items = entries := by simpa [Tree.items?] using hitems
                  exact fun t ht => (hgroups _ (Fields.mem_of_lookup hgroup) t ht).imp_right (·.2)
              | _ => cases hitems
          | _ => exact hgroups.elim
  | _ => exact h.elim

/-! ### Groups -/

theorem IsDefs.expandSteps (h : IsDefs done t) (hrun : expandSteps t = .ok t') :
    IsDefs (done ++ [.expandSteps]) t' := by
  have hsound := h.groupsSound
  cases t with
  | map fields =>
      refine Keeps.of_start (I := Stepwise IsStep) ?_ (by simp [Stepwise]) hrun
      refine (keeps_modifyM (R := fun v v' => IsGroups done v → IsGroups (done ++ [.expandSteps]) v')
        fun v _ => ?_).mono ?_
      · cases v with
        | map groups =>
            refine (Keeps.mapM (R := fun before after => after.1 = before.1 ∧
              (IsSteps done .expandSteps before.2 →
                IsSteps (done ++ [.expandSteps]) .expandSteps after.2)) fun field _ => ?_).bind
              fun groups' hrel => .pure fun hgroups => ?_
            · obtain ⟨name, group⟩ := field
              cases group with
              | seq items =>
                  refine (keeps_expandGroup hsound name).bind fun steps hsteps => ?_
                  exact .pure ⟨rfl, fun _ step hstep => .inl (hsteps step hstep)⟩
              | _ => exact .pure ⟨rfl, False.elim⟩
            · have hrel : Related (fun _ v v' => IsSteps done .expandSteps v →
                  IsSteps (done ++ [.expandSteps]) .expandSteps v') groups groups' := hrel
              exact hrel.values hgroups fun _ _ _ hv hR => hR hv
        | _ => exact .pure id
      · rintro _ ⟨fields', rfl, hrel⟩
        refine h.of_related hrel ?_ ?_ ?_ ?_
        · rintro v v' hv rfl
          rwa [isDefinitions_append (by decide) (by decide) (by decide)]
        · rintro v v' hv rfl
          exact hv
        · exact fun v v' hv hR => hR hv
        · rintro v v' hv rfl
          rwa [isTasks_append (by decide) (by decide)]
  | _ => exact h.elim

/-! ### Tasks -/

section
variable {m : Type → Type} [Monad m] [LawfulMonad m]

theorem modifyM_pure (key : String) (f : Tree → Tree) (t : Tree) :
    t.modifyM key (fun v => (pure (f v) : m Tree)) = pure (t.modify key f) := by
  cases t with
  | map fields =>
      simp [Tree.modifyM, Tree.modify, ← apply_ite (pure : String × Tree → m (String × Tree)), List.mapM_pure]
  | _ => rfl

theorem modifyAllM_pure (f : Tree → Tree) :
    Tree.modifyAllM (fun v => (pure (f v) : m Tree)) = fun t => pure (t.modifyAll f) := by
  funext t
  cases t with
  | map fields => simp [Tree.modifyAllM, Tree.modifyAll, List.mapM_pure]
  | _ => rfl

theorem eachTask_pure (f : List (String × Tree) → List (String × Tree)) (t : Tree) :
    (eachTask (fun task => pure (f task)) t : m Tree) =
      pure (t.modify "taskGroups" (Tree.modifyAll (Tree.modifyAll (Tree.modifyFields f)))) := by
  simp only [← modifyM_pure, ← modifyAllM_pure]
  rw [eachTask]
  congr
  funext task
  cases task <;> simp [Tree.modifyFields]

end

-- A change of each task, with what is expanded for it.
theorem IsDefs.eachTask {pass : Pass} {f : List (String × Tree) → Expanding (List (String × Tree))}
    (h : IsDefs done t) (hf : ∀ fields, IsTask done (.map fields) →
      Keeps (Stepwise IsStep) (f fields) fun fields' => IsTask (done ++ [pass]) (.map fields'))
    (hpass : pass = .setDefaultSteps ∨ pass = .expandTaskSteps)
    (hrun : (Normal.eachTask f t).start = .ok t') : IsDefs (done ++ [pass]) t' := by
  cases t with
  | map fields =>
      refine Keeps.of_start (I := Stepwise IsStep) ?_ (by simp [Stepwise]) hrun
      refine (keeps_modifyM (R := fun _ v' => IsTasks (done ++ [pass]) v') fun v hv => ?_).mono ?_
      · have hgroups := h.isTasks hv
        cases v with
        | map groups =>
            refine (keeps_modifyAllM (R := fun _ v' => Mapping (Values (IsTask (done ++ [pass]))) v')
              fun group hgroup => ?_).mono ?_
            · have htasks := hgroups group hgroup
              obtain ⟨name, group⟩ := group
              cases group with
              | map tasks =>
                  refine (keeps_modifyAllM (R := fun _ v' => IsTask (done ++ [pass]) v')
                    fun task htask => ?_).mono ?_
                  · have htask := htasks task htask
                    obtain ⟨name, task⟩ := task
                    cases task with
                    | map fields => exact (hf fields htask).bind fun fields' htask => .pure htask
                    | _ => exact htask.elim
                  · rintro _ ⟨tasks', rfl, hrel⟩
                    exact hrel.values htasks fun _ _ _ _ hv' => hv'
              | _ => exact htasks.elim
            · rintro _ ⟨groups', rfl, hrel⟩
              exact hrel.values hgroups fun _ _ _ _ hv' => hv'
        | _ => exact hgroups.elim
      · rintro _ ⟨fields', rfl, hrel⟩
        refine h.of_related hrel ?_ ?_ ?_ ?_
        · rintro v v' hv rfl
          rcases hpass with rfl | rfl <;> rwa [isDefinitions_append (by decide) (by decide) (by decide)]
        · rintro v v' hv rfl
          exact hv
        · rintro v v' hv rfl
          rcases hpass with rfl | rfl <;> rwa [isGroups_append (by decide)]
        · exact fun v v' _ hv' => hv'
  | _ => exact h.elim

theorem IsDefs.setDefaultSteps (h : IsDefs done t) (hexpand : .expandTaskSteps ∉ done)
    (defaultGroup : String) :
    IsDefs (done ++ [.setDefaultSteps]) (setDefaultSteps defaultGroup t) := by
  refine h.eachTask (f := fun task => pure (Fields.default "steps" (.string defaultGroup) task))
    (fun fields htask => .pure ?_) (.inl rfl) ?_
  · obtain ⟨hdataDef, hsteps, hneeded, -⟩ := htask
    refine ⟨hdataDef.default (by simp), Optional.default ?_ fun _ => ?_, ?_, fun _ => ?_⟩
    · simpa [IsSteps] using hsteps
    · exact .inr ⟨by simpa using hexpand, _, rfl⟩
    · exact Fields.keys_subset_default _ _ _ hneeded
    · exact Fields.mem_keys_default _ _ _
  · rw [Normal.setDefaultSteps, eachTask_pure, eachTask_pure]
    rfl

theorem IsTask.put {fields : List (String × Tree)} {steps : List Tree} (h : IsTask done (.map fields))
    (hsteps : ∀ step ∈ steps, IsStep step) :
    IsTask (done ++ [.expandTaskSteps]) (.map (Fields.put "steps" (.seq steps) fields)) := by
  obtain ⟨hdataDef, -, hneeded, hset⟩ := h
  have hkeys := Fields.keys_subset_put "steps" (.seq steps) fields
  refine ⟨Optional.put (fun _ => hdataDef) (by simp), Optional.put (by simp) fun _ => ?_, hkeys hneeded,
    fun hdone => hkeys (hset (by simpa using hdone))⟩
  exact .inl fun step hstep => .inl (hsteps step hstep)

theorem IsDefs.expandTaskSteps (h : IsDefs done t) (hrun : expandTaskSteps t = .ok t') :
    IsDefs (done ++ [.expandTaskSteps]) t' := by
  refine h.eachTask (fun fields htask => ?_) (.inr rfl) hrun
  rw [expandTask]
  split
  next name hname =>
    refine (keeps_expandGroup h.groupsSound name).bind fun steps hsteps => ?_
    exact .pure (htask.put hsteps)
  next entries hlookup =>
    have hentries : ∀ t ∈ entries, IsStep t ∨ IsText t := by
      rcases htask.2.1 _ hlookup with hsteps | ⟨-, s, hs⟩
      · exact fun t ht => (hsteps t ht).imp_right (·.2)
      · cases hs
    refine (keeps_expandEntries h.groupsSound hentries).bind fun steps hsteps => ?_
    exact .pure (htask.put hsteps)
  next hname hentries =>
    obtain ⟨hdataDef, hsteps, hneeded, hset⟩ := htask
    refine .pure ⟨hdataDef, fun v hv => ?_, hneeded, fun hdone => hset (by simpa using hdone)⟩
    -- What stands for steps is a text or a sequence, and both have been dealt with.
    rcases hsteps v hv with hseq | ⟨-, s, rfl⟩
    · cases v with
      | seq items => exact (hentries items hv).elim
      | _ => exact hseq.elim
    · exact (hname s hv).elim

end

end ScraperTimeline.Normal
