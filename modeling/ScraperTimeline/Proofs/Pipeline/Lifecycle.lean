import ScraperTimeline.Pipeline
import ScraperTimeline.Proofs.Effect

/-!
The trace of a run tells how it ended. Between its beginning and its end it names the stages that went well, in
their order, up to the first one that failed.
-/
namespace ScraperTimeline

/-! ### Names in traces -/

namespace Traced

variable {ε α β : Type} {x : Traced ε α} {f : α → Traced ε β} {a : α} {e : ε} {r : Except ε β}
  {names more : List String} {event : Event} {fields : α → List (String × String)}

-- A computation has a result and adds records of some names to any trace.
def Tells (x : Traced ε α) (r : Except ε α) (names : List String) : Prop :=
  ∀ trace, ∃ records, x.run.run trace = (r, trace ++ records) ∧ records.map Record.name = names

theorem tells_pure (a : α) : Tells (pure a : Traced ε α) (.ok a) [] :=
  fun trace => ⟨[], by rw [List.append_nil]; rfl, rfl⟩

theorem tells_throw (e : ε) : Tells (throw e : Traced ε α) (.error e) [] :=
  fun trace => ⟨[], by rw [List.append_nil]; rfl, rfl⟩

theorem tells_emit (record : Record) : Tells (emit record : Traced ε Unit) (.ok ()) [record.name] :=
  fun _ => ⟨[record], rfl, rfl⟩

theorem Tells.bind (hx : Tells x (.ok a) names) (hf : Tells (f a) r more) :
    Tells (x >>= f) r (names ++ more) := by
  intro trace
  obtain ⟨records, hx, hnames⟩ := hx trace
  obtain ⟨after, hf, hmore⟩ := hf (trace ++ records)
  refine ⟨records ++ after, ?_, by rw [List.map_append, hnames, hmore]⟩
  rw [run_bind_of_ok hx, hf, List.append_assoc]

theorem Tells.bind_error (hx : Tells x (.error e) names) : Tells (x >>= f) (.error e) names := by
  intro trace
  obtain ⟨records, hx, hnames⟩ := hx trace
  exact ⟨records, run_bind_of_error hx, hnames⟩

-- A stage that goes well tells of it, by a record that may show what came of it.
theorem tells_stage {y : Except ε α} (hy : y = .ok a) (hf : Tells (f a) r names) :
    Tells (liftM y >>= fun a => emitEvent event (fields a) >>= fun _ => f a) r (event.name :: names) := by
  rw [hy]
  exact (tells_pure a).bind ((tells_emit (.event event (fields a))).bind hf)

theorem tells_failure {y : Except ε α} (hy : y = .error e) : Tells (liftM y >>= f) (.error e) [] := by
  rw [hy]
  exact (tells_throw e).bind_error

end Traced

namespace Pipeline

open Traced

/-! ### Stages -/

section
variable (p : Pipeline) (fs : Files) (run : Instant)

def loaded : Except Fault Tree := Source.discover p.resources fs p.config.defsDir >>= Source.load p.resources fs

def merged : Except Fault Tree := do
  let defs ← p.loaded fs
  match p.config.defaultStepsFile with
  | none => return defs
  | some file => return Source.mergeDefaultSteps (← Source.loadDefaultSteps p.resources fs file) defs

variable (defined : Except Fault Tree)

def accepted : Except Fault Tree := do
  let t ← defined
  p.validate p.config.definedSchema t
  return t

def normalized : Except Fault Tree := p.accepted defined >>= Normal.normalize p.config.defaultSteps

def effective : Except Fault Tree := do
  let t ← p.normalized defined
  p.validate p.config.effectiveSchema t
  return t

def compiled : Except Fault (List Version) :=
  p.effective defined >>= Timeline.compile p.config.high run.wholeSecond

-- The stages of a run from a tree, and whether they go well. Each needs the ones before it.
def stagesFrom : List (Event × Bool) := [
  (.definedValidated, (p.accepted defined).isOk), (.effectiveCreated, (p.normalized defined).isOk),
  (.effectiveValidated, (p.effective defined).isOk), (.versionsCompiled, (p.compiled run defined).isOk)]

-- Those of loading the documents. Steps are merged only if there is a document of them.
def loadStages : List (Event × Bool) :=
  (.sourcesLoaded, (p.loaded fs).isOk) ::
    if p.config.defaultStepsFile.isSome then [(.defaultStepsMerged, (p.merged fs).isOk)] else []

def stages : List (Event × Bool) := p.loadStages fs ++ p.stagesFrom run (p.merged fs)

end

-- The stages that went well.
def succeeded (stages : List (Event × Bool)) : List Event := (stages.filter (·.2)).map (·.1)

theorem succeeded_append (first rest : List (Event × Bool)) :
    succeeded (first ++ rest) = succeeded first ++ succeeded rest := by
  simp [succeeded]

section
variable {p : Pipeline} {fs : Files} {run : Instant} {t : Tree}

private theorem ok_bind {α β : Type} (a : α) (f : α → Except Fault β) : (Except.ok a >>= f) = f a := rfl

theorem compileDefined_eq : p.compileDefined run t = (do
    let _ ← liftM (p.validate p.config.definedSchema t)
    emitEvent .definedValidated []
    let t' ← liftM (Normal.normalize p.config.defaultSteps t)
    emitEvent .effectiveCreated []
    let _ ← liftM (p.validate p.config.effectiveSchema t')
    emitEvent .effectiveValidated []
    let vs ← liftM (Timeline.compile p.config.high run.wholeSecond t')
    emitEvent .versionsCompiled [("count", toString vs.length)]
    return ⟨run.wholeSecond, t, t', vs⟩ : Traced Fault Compilation) := by
  simp [compileDefined, effectiveOf, validateDefined, createEffective, validateEffective, versions]

theorem tells_compileDefined (p : Pipeline) (run : Instant) (t : Tree) :
    ∃ r, Tells (p.compileDefined run t) r ((succeeded (p.stagesFrom run (.ok t))).map Event.name) ∧
      r.map (·.versions) = p.compiled run (.ok t) := by
  rw [stagesFrom]
  rcases hdefined : p.validate p.config.definedSchema t with e | _
  · have haccepted : p.accepted (.ok t) = .error e := by rw [accepted, ok_bind, hdefined]; rfl
    simp only [compiled, effective, normalized, haccepted, compileDefined_eq]
    exact ⟨.error e, tells_failure hdefined, rfl⟩
  have haccepted : p.accepted (.ok t) = .ok t := by rw [accepted, ok_bind, hdefined]; rfl
  rcases hnormal : Normal.normalize p.config.defaultSteps t with e | t'
  · have hnormalized : p.normalized (.ok t) = .error e := by rw [normalized, haccepted, ok_bind, hnormal]
    simp only [compiled, effective, hnormalized, haccepted, compileDefined_eq]
    exact ⟨.error e, tells_stage hdefined (tells_failure hnormal), rfl⟩
  have hnormalized : p.normalized (.ok t) = .ok t' := by rw [normalized, haccepted, ok_bind, hnormal]
  rcases hvalid : p.validate p.config.effectiveSchema t' with e | _
  · have heffective : p.effective (.ok t) = .error e := by rw [effective, hnormalized, ok_bind, hvalid]; rfl
    simp only [compiled, heffective, hnormalized, haccepted, compileDefined_eq]
    exact ⟨.error e, tells_stage hdefined (tells_stage hnormal (tells_failure hvalid)), rfl⟩
  have heffective : p.effective (.ok t) = .ok t' := by rw [effective, hnormalized, ok_bind, hvalid]; rfl
  rcases hcompile : Timeline.compile p.config.high run.wholeSecond t' with e | vs
  · have hcompiled : p.compiled run (.ok t) = .error e := by rw [compiled, heffective, ok_bind, hcompile]
    simp only [hcompiled, heffective, hnormalized, haccepted, compileDefined_eq]
    exact ⟨.error e, tells_stage hdefined (tells_stage hnormal (tells_stage hvalid (tells_failure hcompile))), rfl⟩
  · have hcompiled : p.compiled run (.ok t) = .ok vs := by rw [compiled, heffective, ok_bind, hcompile]
    simp only [hcompiled, heffective, hnormalized, haccepted, compileDefined_eq]
    exact ⟨.ok ⟨run.wholeSecond, t, t', vs⟩,
      tells_stage hdefined (tells_stage hnormal (tells_stage hvalid (tells_stage hcompile (tells_pure _)))), rfl⟩

theorem tells_addDefaultSteps (hloaded : p.loaded fs = .ok t) :
    Tells (p.addDefaultSteps fs t) (p.merged fs)
      ((succeeded (if p.config.defaultStepsFile.isSome then [(.defaultStepsMerged, (p.merged fs).isOk)]
        else [])).map Event.name) := by
  rw [addDefaultSteps, merged, hloaded, ok_bind]
  cases p.config.defaultStepsFile with
  | none => exact tells_pure t
  | some file =>
      dsimp only
      rcases hdefaults : Source.loadDefaultSteps p.resources fs file with e | defaults
      · exact (tells_throw e).bind_error
      · exact (tells_pure defaults).bind ((tells_emit _).bind (tells_pure _))

theorem tells_loadDefined (p : Pipeline) (fs : Files) :
    Tells (p.loadDefined fs) (p.merged fs) ((succeeded (p.loadStages fs)).map Event.name) := by
  rw [loadDefined, loadStages]
  rcases hids : Source.discover p.resources fs p.config.defsDir with e | ids
  · have hloaded : p.loaded fs = .error e := by rw [loaded, hids]; rfl
    have hmerged : p.merged fs = .error e := by rw [merged, hloaded]; rfl
    rw [hmerged, hloaded]
    split <;> exact (tells_throw e).bind_error
  rcases hdefs : Source.load p.resources fs ids with e | defs
  · have hloaded : p.loaded fs = .error e := by rw [loaded, hids, ok_bind, hdefs]
    have hmerged : p.merged fs = .error e := by rw [merged, hloaded]; rfl
    rw [hmerged, hloaded]
    split <;> exact (tells_pure ids).bind (tells_failure hdefs)
  · have hloaded : p.loaded fs = .ok defs := by rw [loaded, hids, ok_bind, hdefs]
    rw [hloaded]
    exact (tells_pure ids).bind (tells_stage hdefs (tells_addDefaultSteps hloaded))

theorem succeeded_stagesFrom_error (e : Fault) : succeeded (p.stagesFrom run (.error e)) = [] := rfl

theorem tells_compileLoaded (p : Pipeline) (fs : Files) (run : Instant) :
    ∃ r, Tells (p.loadDefined fs >>= p.compileDefined run) r ((succeeded (p.stages fs run)).map Event.name) ∧
      r.map (·.versions) = p.compiled run (p.merged fs) := by
  have hload := tells_loadDefined p fs
  rw [stages, succeeded_append, List.map_append]
  rcases hmerged : p.merged fs with e | t
  · rw [hmerged] at hload
    rw [succeeded_stagesFrom_error, List.map_nil, List.append_nil]
    exact ⟨.error e, hload.bind_error, rfl⟩
  · obtain ⟨r, hcompile, hr⟩ := tells_compileDefined p run t
    rw [hmerged] at hload
    exact ⟨r, hload.bind hcompile, hr⟩

/-! ### Scopes -/

-- How the trace of a run ends. A failure is told by an event of its own before the scope fails.
def ending (ok : Bool) : List String :=
  if ok then ["DEFS_RUN_COMPLETE"] else ["DEFS_RUN_FAILED", "DEFS_RUN_FAILED"]

theorem tells_inScope (runId : String) {α : Type} {x : Traced Fault α} {r : Except Fault α} {names : List String}
    (hx : Tells x r names) : Tells (inScope runId x) r ("DEFS_RUN_BEGIN" :: names ++ ending r.isOk) := by
  have hlift : Tells (ExceptT.lift x.run : Traced Fault (Except Fault α)) (.ok r) names := by
    intro trace
    obtain ⟨records, hrun, hnames⟩ := hx trace
    refine ⟨records, ?_, hnames⟩
    change (Except.ok (x.run.run trace).1, (x.run.run trace).2) = _
    rw [hrun]
  have hbegan : Tells (emit (.scope scopeName runId .began) : Traced Fault Unit) (.ok ()) ["DEFS_RUN_BEGIN"] :=
    tells_emit _
  refine hbegan.bind (hlift.bind ?_)
  cases r with
  | ok a => exact (tells_emit (.scope scopeName runId .complete)).bind (tells_pure a)
  | error e =>
      exact (tells_emit (.event .runFailed [("code", e.code), ("run_id", runId)])).bind
        ((tells_emit (.scope scopeName runId (.failed e.message))).bind (tells_throw e))

end

/-! ### Order -/

-- Each stage needs all that are before it.
def Dependent (stages : List (Event × Bool)) : Prop := stages.Pairwise fun a b => b.2 → a.2

theorem Dependent.succeeded_prefix {stages : List (Event × Bool)} (h : Dependent stages) :
    succeeded stages <+: stages.map (·.1) := by
  induction stages with
  | nil => exact List.prefix_rfl
  | cons stage rest ih =>
      obtain ⟨hneeded, hrest⟩ := List.pairwise_cons.mp h
      by_cases hstage : stage.2
      · have hcons : succeeded (stage :: rest) = stage.1 :: succeeded rest := by simp [succeeded, hstage]
        rw [hcons, List.map_cons]
        exact List.cons_prefix_cons.mpr ⟨rfl, ih hrest⟩
      · -- Nothing goes well after a stage that failed.
        have hnone : succeeded (stage :: rest) = [] := by
          simpa [succeeded, hstage] using fun event went hmem hwent => hstage (hneeded (event, went) hmem hwent)
        rw [hnone]
        exact List.nil_prefix

theorem succeeded_eq_iff {stages : List (Event × Bool)} :
    succeeded stages = stages.map (·.1) ↔ ∀ stage ∈ stages, stage.2 := by
  rw [← List.filter_eq_self]
  refine ⟨fun h => List.filter_sublist.eq_of_length ?_, fun h => by rw [succeeded, h]⟩
  simpa [succeeded] using congrArg List.length h

section
variable {p : Pipeline} {fs : Files} {run : Instant} {defined : Except Fault Tree}

private theorem isOk_of_bind {α β : Type} {x : Except Fault α} {f : α → Except Fault β}
    (h : (x >>= f).isOk) : x.isOk := by
  cases x with
  | ok a => rfl
  | error e => exact h

theorem loaded_of_merged (h : (p.merged fs).isOk) : (p.loaded fs).isOk := isOk_of_bind h

theorem defined_of_accepted (h : (p.accepted defined).isOk) : defined.isOk := isOk_of_bind h

theorem accepted_of_normalized (h : (p.normalized defined).isOk) : (p.accepted defined).isOk := isOk_of_bind h

theorem normalized_of_effective (h : (p.effective defined).isOk) : (p.normalized defined).isOk := isOk_of_bind h

theorem effective_of_compiled (h : (p.compiled run defined).isOk) : (p.effective defined).isOk := isOk_of_bind h

theorem dependent_stagesFrom : Dependent (p.stagesFrom run defined) := by
  have hnormal : (p.normalized defined).isOk → _ := accepted_of_normalized
  have heffective := hnormal ∘ normalized_of_effective
  simp only [Dependent, stagesFrom, List.pairwise_cons, List.forall_mem_cons, List.not_mem_nil, false_imp_iff,
    implies_true, and_true, List.Pairwise.nil]
  exact ⟨⟨hnormal, heffective, heffective ∘ effective_of_compiled⟩,
    ⟨normalized_of_effective, normalized_of_effective ∘ effective_of_compiled⟩, effective_of_compiled⟩

theorem isOk_of_mem_stagesFrom {stage : Event × Bool} (hmem : stage ∈ p.stagesFrom run defined) (hstage : stage.2) :
    defined.isOk := by
  have haccepted : (p.accepted defined).isOk → _ := defined_of_accepted
  have hnormal := haccepted ∘ accepted_of_normalized
  have heffective := hnormal ∘ normalized_of_effective
  simp only [stagesFrom, List.mem_cons, List.not_mem_nil, or_false] at hmem
  rcases hmem with rfl | rfl | rfl | rfl
  · exact haccepted hstage
  · exact hnormal hstage
  · exact heffective hstage
  · exact heffective (effective_of_compiled hstage)

theorem dependent_stages : Dependent (p.stages fs run) := by
  have hloaded : (p.merged fs).isOk → _ := loaded_of_merged
  refine List.pairwise_append.mpr ⟨?_, dependent_stagesFrom, ?_⟩
  · rw [loadStages]
    split
    · simpa using hloaded
    · simp
  · intro before hbefore after hafter hok
    have hmerged := isOk_of_mem_stagesFrom hafter hok
    rw [loadStages, List.mem_cons] at hbefore
    rcases hbefore with rfl | hbefore
    · exact hloaded hmerged
    · split at hbefore
      · rw [List.mem_singleton.mp hbefore]
        exact hmerged
      · cases hbefore

theorem all_stagesFrom (p : Pipeline) (run : Instant) (defined : Except Fault Tree) :
    (∀ stage ∈ p.stagesFrom run defined, stage.2) ↔ (p.compiled run defined).isOk := by
  have hnormal : (p.normalized defined).isOk → _ := accepted_of_normalized
  have heffective := hnormal ∘ normalized_of_effective
  simp only [stagesFrom, List.forall_mem_cons, List.not_mem_nil, false_imp_iff, implies_true, and_true]
  refine ⟨fun h => h.2.2.2, fun h => ?_⟩
  have hok := effective_of_compiled h
  exact ⟨heffective hok, normalized_of_effective hok, hok, h⟩

theorem all_stages (p : Pipeline) (fs : Files) (run : Instant) :
    (∀ stage ∈ p.stages fs run, stage.2) ↔ (p.compiled run (p.merged fs)).isOk := by
  refine ⟨fun h => ?_, fun h => ?_⟩
  · exact (all_stagesFrom ..).mp fun stage hmem => h stage (List.mem_append_right _ hmem)
  have hall := (all_stagesFrom ..).mpr h
  refine List.forall_mem_append.mpr ⟨fun stage hmem => ?_, hall⟩
  have hlast : (Event.versionsCompiled, (p.compiled run (p.merged fs)).isOk) ∈ p.stagesFrom run (p.merged fs) := by
    simp [stagesFrom]
  exact (List.pairwise_append.mp dependent_stages).2.2 stage hmem _ hlast h

end

/-! ### Ends -/

-- What the trace of a run shall be: it tells the stages up to the one that failed, and then how it ended.
structure Lifecycle (stages : List (Event × Bool)) (ok : Bool) (names : List String) : Prop where
  told : names = "DEFS_RUN_BEGIN" :: (succeeded stages).map Event.name ++ ending ok
  inOrder : succeeded stages <+: stages.map (·.1)
  complete : ok ↔ succeeded stages = stages.map (·.1)
  completed : "DEFS_RUN_COMPLETE" ∈ names ↔ ok
  failed : "DEFS_RUN_FAILED" ∈ names ↔ ¬ ok
  neverIncomplete : "DEFS_RUN_INCOMPLETE" ∉ names

def endNames : List String := ["DEFS_RUN_COMPLETE", "DEFS_RUN_FAILED", "DEFS_RUN_INCOMPLETE"]

-- No stage has the name of an end.
theorem name_of_mem_stagesFrom {p : Pipeline} {run : Instant} {defined : Except Fault Tree} :
    ∀ stage ∈ p.stagesFrom run defined, stage.1.name ∉ endNames := by
  simp only [stagesFrom, List.forall_mem_cons, List.not_mem_nil, false_imp_iff, implies_true, and_true]
  decide

theorem name_of_mem_stages {p : Pipeline} {fs : Files} {run : Instant} :
    ∀ stage ∈ p.stages fs run, stage.1.name ∉ endNames := by
  have hloaded : Event.name .sourcesLoaded ∉ endNames ∧ Event.name .defaultStepsMerged ∉ endNames := by decide
  refine List.forall_mem_append.mpr ⟨List.forall_mem_cons.mpr ⟨hloaded.1, ?_⟩, name_of_mem_stagesFrom⟩
  split
  · exact List.forall_mem_singleton.mpr hloaded.2
  · simp

-- An end is told only at the end.
theorem mem_told {stages : List (Event × Bool)} {ends : List String} {name : String}
    (hstages : ∀ stage ∈ stages, stage.1.name ∉ endNames) (hname : name ∈ endNames) :
    name ∈ "DEFS_RUN_BEGIN" :: (succeeded stages).map Event.name ++ ends ↔ name ∈ ends := by
  have hbegin : name ≠ "DEFS_RUN_BEGIN" := by
    rintro rfl
    exact absurd hname (by decide)
  have hmiddle : name ∉ (succeeded stages).map Event.name := by
    intro hmem
    obtain ⟨event, hevent, rfl⟩ := List.mem_map.mp hmem
    obtain ⟨stage, hstage, rfl⟩ := List.mem_map.mp hevent
    exact hstages stage (List.mem_filter.mp hstage).1 hname
  rw [List.cons_append, List.mem_cons, List.mem_append]
  exact ⟨fun h => (h.resolve_left hbegin).resolve_left hmiddle, fun h => .inr (.inr h)⟩

theorem lifecycle {stages : List (Event × Bool)} {ok : Bool} {names : List String} (hdep : Dependent stages)
    (hall : (∀ stage ∈ stages, stage.2) ↔ ok) (hstages : ∀ stage ∈ stages, stage.1.name ∉ endNames)
    (htold : names = "DEFS_RUN_BEGIN" :: (succeeded stages).map Event.name ++ ending ok) :
    Lifecycle stages ok names where
  told := htold
  inOrder := hdep.succeeded_prefix
  complete := by rw [succeeded_eq_iff, hall]
  completed := by
    rw [htold, mem_told hstages (by decide)]
    cases ok <;> decide
  failed := by
    rw [htold, mem_told hstages (by decide)]
    cases ok <;> decide
  neverIncomplete := by
    rw [htold, mem_told hstages (by decide)]
    cases ok <;> decide

theorem exists_start {α : Type} {x : Traced Fault α} {r : Except Fault α} {names : List String} (h : Tells x r names) :
    ∃ records, x.start = (r, records) ∧ records.map Record.name = names := h []

-- A run from the documents or from a tree tells in its trace the stages that went well and how it ended.
theorem trace_tells_end (p : Pipeline) (fs : Files) (runId : String) (run : Instant) (defined : Tree) :
    (∃ r records, (p.compile fs runId run).start = (r, records) ∧
      r.map (·.versions) = p.compiled run (p.merged fs) ∧
      Lifecycle (p.stages fs run) r.isOk (records.map Record.name)) ∧
    ∃ r records, (p.compileTree runId run defined).start = (r, records) ∧
      r.map (·.versions) = p.compiled run (.ok defined) ∧
      Lifecycle (p.stagesFrom run (.ok defined)) r.isOk (records.map Record.name) := by
  have hisOk : ∀ {r : Except Fault Compilation} {vs : Except Fault (List Version)},
      r.map (·.versions) = vs → vs.isOk = r.isOk := by
    rintro (e | a) _ rfl <;> rfl
  constructor
  · obtain ⟨r, htells, hr⟩ := tells_compileLoaded p fs run
    obtain ⟨records, hstart, hnames⟩ := exists_start (tells_inScope runId htells)
    have hall := all_stages p fs run
    rw [hisOk hr] at hall
    exact ⟨r, records, hstart, hr, lifecycle dependent_stages hall name_of_mem_stages hnames⟩
  · obtain ⟨r, htells, hr⟩ := tells_compileDefined p run defined
    obtain ⟨records, hstart, hnames⟩ := exists_start (tells_inScope runId htells)
    have hall := all_stagesFrom p run (.ok defined)
    rw [hisOk hr] at hall
    exact ⟨r, records, hstart, hr, lifecycle dependent_stagesFrom hall name_of_mem_stagesFrom hnames⟩

end Pipeline
end ScraperTimeline
