import ScraperTimeline.Pipeline
import ScraperTimeline.Proofs.Effect
import ScraperTimeline.Proofs.Normal.FixedPoint
import ScraperTimeline.Proofs.Timeline.Inserted
import ScraperTimeline.Proofs.Timeline.Runs
import ScraperTimeline.Proofs.Tree.Merged
import ScraperTimeline.Proofs.Tree.Update
import ScraperTimeline.Proofs.Yaml.Shape

/-!
The names of definitions on the way from documents to versions. Merged documents name no definition twice,
and normalization neither adds definitions nor takes them away.
-/
namespace ScraperTimeline

open ScraperTimeline.Normal Timeline

variable {t t' : Tree} {defaultGroup : String} {pass : Pass}

theorem Timeline.definitions_congr (h : t'.field? "dataDefs" = t.field? "dataDefs") :
    definitions t' = definitions t := by
  rw [definitions, definitions, h]

theorem Timeline.keys_definitions_modify (f : Tree → Tree) (t : Tree) :
    Fields.keys (definitions (t.modify "dataDefs" (Tree.modifyAll f))) = Fields.keys (definitions t) := by
  rw [definitions, definitions, Tree.field?_modify]
  cases t.field? "dataDefs" with
  | none => rfl
  | some defs =>
      cases defs with
      | map fields => simp [Tree.modifyAll, Tree.fields?, Fields.keys]
      | _ => rfl

namespace Normal

theorem keys_definitions_run (hrun : pass.run defaultGroup t = .ok t') :
    Fields.keys (definitions t') = Fields.keys (definitions t) := by
  have helsewhere := elsewhere_of_run hrun
  cases pass with
  | addFactAxis =>
      obtain rfl := Except.ok.inj hrun
      exact keys_definitions_modify _ t
  | addIndex =>
      obtain rfl := Except.ok.inj hrun
      exact keys_definitions_modify _ t
  | addOrder =>
      obtain rfl := Except.ok.inj hrun
      exact keys_definitions_modify _ t
  | expandSteps => rw [definitions_congr (helsewhere.field? (by decide))]
  | setDefaultSteps => rw [definitions_congr (helsewhere.field? (by decide))]
  | expandTaskSteps => rw [definitions_congr (helsewhere.field? (by decide))]

theorem keys_definitions_normalize (hrun : normalize defaultGroup t = .ok t') :
    Fields.keys (definitions t') = Fields.keys (definitions t) :=
  normalize_induct (I := fun _ u => Fields.keys (definitions u) = Fields.keys (definitions t))
    (fun _ _ _ _ _ hkeys _ hrun => (keys_definitions_run hrun).trans hkeys) rfl hrun

end Normal

/-! ### Documents -/

namespace Source

variable {r : Resources} {fs : Files} {ids : List String} {id : String}

theorem keyed_of_loadOne (h : loadOne r fs id = .ok t) : t.keyed := by
  obtain ⟨resource, -, h⟩ := exists_of_bind h
  split at h
  next => cases h
  next u hyaml =>
    split at h
    · cases h
      exact (Yaml.nested_of_ofYaml? hyaml).2
    · cases h

theorem keyed_of_mapM_loadOne {docs : List Tree} (h : ids.mapM (loadOne r fs) = .ok docs) :
    ∀ t ∈ docs, t.keyed := by
  induction ids generalizing docs with
  | nil =>
      cases h
      simp
  | cons id rest ih =>
      rw [List.mapM_cons] at h
      obtain ⟨t, ht, h⟩ := exists_of_bind h
      obtain ⟨others, hothers, h⟩ := exists_of_bind h
      cases h
      exact List.forall_mem_cons.mpr ⟨keyed_of_loadOne ht, ih hothers⟩

theorem keyed_of_load (h : load r fs ids = .ok t) : t.keyed := by
  obtain ⟨docs, hdocs, h⟩ := exists_of_bind h
  split at h
  next merged hmerged =>
    cases h
    exact Tree.keyed_mergeAll? (keyed_of_mapM_loadOne hdocs) hmerged
  next => cases h

theorem definitions_mergeDefaultSteps (defaults defs : Tree) :
    definitions (mergeDefaultSteps defaults defs) = definitions defs := by
  unfold mergeDefaultSteps
  split
  · rfl
  · refine definitions_congr ?_
    cases defs with
    | map fields => exact Fields.lookup_put_of_ne (by decide) _ fields
    | _ => rfl

end Source

/-! ### Runs -/

namespace Pipeline

variable {p : Pipeline} {fs : Files} {trace trace' : List Record} {runId : String} {run : Instant}

theorem nodup_of_loadDefined (h : (p.loadDefined fs).run.run trace = (.ok t, trace')) :
    (Fields.keys (definitions t)).Nodup := by
  obtain ⟨ids, _, -, h⟩ := exists_of_run_bind h
  obtain ⟨docs, _, hload, h⟩ := exists_of_run_bind h
  obtain ⟨_, _, -, h⟩ := exists_of_run_bind h
  have hnodup := (keyed_definitions (Source.keyed_of_load (eq_ok_of_run_lift hload))).1
  unfold addDefaultSteps at h
  split at h
  next =>
    cases h
    exact hnodup
  next =>
    obtain ⟨defaults, _, -, h⟩ := exists_of_run_bind h
    obtain ⟨_, _, -, h⟩ := exists_of_run_bind h
    cases h
    rwa [Source.definitions_mergeDefaultSteps]

theorem exists_of_inScope {α : Type} {x : Traced Fault α} {a : α}
    (h : (inScope runId x).run.run trace = (.ok a, trace')) :
    ∃ before after, x.run.run before = (.ok a, after) := by
  obtain ⟨_, before, -, h⟩ := exists_of_run_bind h
  obtain ⟨result, after, hx, h⟩ := exists_of_run_bind h
  refine ⟨before, after, ?_⟩
  cases result with
  | error e =>
      obtain ⟨_, _, -, h⟩ := exists_of_run_bind h
      obtain ⟨_, _, -, h⟩ := exists_of_run_bind h
      cases h
  | ok b =>
      obtain ⟨_, _, -, h⟩ := exists_of_run_bind h
      cases h
      have hlift : (ExceptT.lift x.run : Traced Fault (Except Fault α)).run.run before =
          (.ok (x.run.run before).1, (x.run.run before).2) := rfl
      obtain ⟨hresult, hafter⟩ := Prod.mk.inj (hlift.symm.trans hx)
      exact Prod.ext (Except.ok.inj hresult) hafter

-- A run compiles no name twice.
theorem distinct_of_compile {c : Compilation}
    (h : (p.compile fs runId run).run.run trace = (.ok c, trace')) :
    c.versions.Pairwise fun v w => v.name ≠ w.name := by
  obtain ⟨_, _, h⟩ := exists_of_inScope h
  obtain ⟨defined, _, hdefined, h⟩ := exists_of_run_bind h
  obtain ⟨effective, _, heffective, h⟩ := exists_of_run_bind h
  obtain ⟨vs, _, hversions, h⟩ := exists_of_run_bind h
  cases h
  obtain ⟨_, _, -, heffective⟩ := exists_of_run_bind heffective
  obtain ⟨effective', _, hnormal, heffective⟩ := exists_of_run_bind heffective
  obtain ⟨_, _, -, heffective⟩ := exists_of_run_bind heffective
  cases heffective
  obtain ⟨_, _, hnormal, h⟩ := exists_of_run_bind hnormal
  obtain ⟨_, _, -, h⟩ := exists_of_run_bind h
  cases h
  obtain ⟨_, _, hcompile, h⟩ := exists_of_run_bind hversions
  obtain ⟨_, _, -, h⟩ := exists_of_run_bind h
  cases h
  obtain ⟨-, rfl⟩ := Timeline.compile_eq_ok_iff.mp (eq_ok_of_run_lift hcompile)
  have hnodup := nodup_of_loadDefined hdefined
  rw [← keys_definitions_normalize (eq_ok_of_run_lift hnormal)] at hnodup
  exact distinct_versionsAt hnodup

end Pipeline

end ScraperTimeline
