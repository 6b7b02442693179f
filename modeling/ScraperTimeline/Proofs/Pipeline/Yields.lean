import ScraperTimeline.Proofs.Pipeline.Contracts

/-!
What comes of a run in which each stage goes well.
-/
namespace ScraperTimeline

variable {ε α β : Type}

namespace Traced

-- A computation gives a value, whatever has been traced before.
def Yields (x : Traced ε α) (a : α) : Prop := ∀ trace, ∃ trace', x.run.run trace = (.ok a, trace')

section
variable {x : Traced ε α} {f : α → Traced ε β} {a : α} {b : β}

theorem Yields.bind (hx : Yields x a) (hf : Yields (f a) b) : Yields (x >>= f) b := by
  intro trace
  obtain ⟨between, hx⟩ := hx trace
  rw [run_bind_of_ok hx]
  exact hf between

theorem yields_pure (a : α) : Yields (pure a : Traced ε α) a := fun _ => ⟨_, rfl⟩

theorem yields_emit (r : Record) : Yields (emit r : Traced ε Unit) () := fun _ => ⟨_, rfl⟩

theorem yields_lift {x : Except ε α} (h : x = .ok a) : Yields (liftM x : Traced ε α) a :=
  fun trace => ⟨trace, run_lift_of_ok h trace⟩

end

end Traced

namespace Source

variable {r : Resources} {fs : Files} {id : String} {t : Tree}

theorem loadOne_of_read {resource : Resources.Resource} (hread : r.read fs id = .ok resource)
    (hyaml : Tree.ofYaml? resource.text = some t) (hmap : t.isMap) : loadOne r fs id = .ok t := by
  simp only [loadOne, hread, bind, Except.bind, hyaml, hmap, if_true]
  rfl

theorem load_singleton (h : loadOne r fs id = .ok t) : load r fs [id] = .ok t := by
  rw [load, List.mapM_cons, h]
  rfl

end Source

namespace Pipeline

open Traced

variable {c : Config} {r : Resources} {contracts : Contracts} {p : Pipeline} {fs : Files} {runId : String}
  {run : Instant} {t t' : Tree}

theorem yields_inScope {x : Traced Fault α} {a : α} (h : Yields x a) : Yields (inScope runId x) a := by
  have hlift : Yields (ExceptT.lift x.run : Traced Fault (Except Fault α)) (.ok a) := by
    intro trace
    obtain ⟨after, hx⟩ := h trace
    refine ⟨after, ?_⟩
    change (Except.ok (x.run.run trace).1, (x.run.run trace).2) = _
    rw [hx]
  exact (yields_emit _).bind (hlift.bind ((yields_emit _).bind (yields_pure a)))

theorem yields_build (hcheck : c.check = .ok ())
    (hload : loadContracts r fs [c.definedSchema, c.effectiveSchema] = .ok contracts) :
    Yields (build c r fs) ⟨c, r, contracts⟩ :=
  (yields_lift hcheck).bind ((yields_lift hload).bind ((yields_emit _).bind (yields_pure _)))

theorem yields_loadDefined {ids : List String} (hfile : p.config.defaultStepsFile = none)
    (hids : Source.discover p.resources fs p.config.defsDir = .ok ids)
    (hload : Source.load p.resources fs ids = .ok t) : Yields (p.loadDefined fs) t := by
  have hsteps : Yields (p.addDefaultSteps fs t) t := by
    rw [addDefaultSteps, hfile]
    exact yields_pure t
  exact (yields_lift hids).bind ((yields_lift hload).bind ((yields_emit _).bind hsteps))

theorem yields_effectiveOf (hdefined : p.validate p.config.definedSchema t = .ok ())
    (hnormal : Normal.normalize p.config.defaultSteps t = .ok t')
    (heffective : p.validate p.config.effectiveSchema t' = .ok ()) : Yields (p.effectiveOf t) t' := by
  have hvalidated : Yields (p.validateDefined t) () := fun _ => ⟨_, run_validateDefined hdefined⟩
  have hcreated : Yields (p.createEffective t) t' := fun _ => ⟨_, run_createEffective hnormal⟩
  have hended : Yields (p.validateEffective t') () := fun _ => ⟨_, run_validateEffective heffective⟩
  exact hvalidated.bind (hcreated.bind (hended.bind (yields_pure t')))

theorem yields_compile {vs : List Version} (hload : Yields (p.loadDefined fs) t)
    (heffective : Yields (p.effectiveOf t) t')
    (hcompile : Timeline.compile p.config.high run.wholeSecond t' = .ok vs) :
    Yields (p.compile fs runId run) ⟨run.wholeSecond, t, t', vs⟩ := by
  have hversions : Yields (p.versions run t') vs :=
    (yields_lift hcompile).bind ((yields_emit _).bind (yields_pure vs))
  exact yields_inScope (hload.bind (heffective.bind (hversions.bind (yields_pure _))))

end Pipeline
end ScraperTimeline
