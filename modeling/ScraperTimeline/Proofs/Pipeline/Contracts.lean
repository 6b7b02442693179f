import ScraperTimeline.Pipeline
import ScraperTimeline.Proofs.Effect
import ScraperTimeline.Proofs.Normal.Soundness
import ScraperTimeline.Proofs.Schema.Shape

/-!
Runs with the packaged contracts. Normalization is sound for them: what the first lets through the second
never rejects.
-/
namespace ScraperTimeline

namespace Pipeline
open ScraperTimeline.Normal Schema.Packaged

/-! ### Contracts -/

theorem load_packaged (base : Option String) (fs : Files) (stage : Stage) {contracts : Contracts}
    (hnew : contracts.lookup stage.name = none) :
    contracts.load (fun id => ((Resources.below base).read fs id).map (·.text)) stage.name =
      .ok (contract stage stage.name, contracts ++ [(stage.name, contract stage stage.name)]) := by
  have hread : ((Resources.below base).read fs stage.name).map (·.text) =
      .ok (documents.text stage.lines) := by
    rw [Resources.read, Resources.below, lookup_documents]
    rfl
  rw [Contracts.load, hnew]
  simp only [hread]
  change (Contract.ofText stage.name (documents.text stage.lines) >>= fun c =>
    pure (c, contracts ++ [(stage.name, c)])) = _
  rw [ofText_documents]
  rfl

def packaged : Contracts :=
  [("defined", contract .defined "defined"), ("effective", contract .effective "effective")]

private theorem foldlM_pair {α : Type} {f : α → String → Except Fault α} {first second : String}
    {start between final : α} (hfirst : f start first = .ok between)
    (hsecond : f between second = .ok final) : [first, second].foldlM f start = .ok final := by
  rw [List.foldlM_cons, hfirst]
  change [second].foldlM f between = _
  rw [List.foldlM_cons, hsecond]
  rfl

theorem loadContracts_packaged (base : Option String) (fs : Files) :
    loadContracts (.below base) fs ["defined", "effective"] = .ok packaged := by
  have hdefined := @load_packaged base fs .defined [] rfl
  have heffective := @load_packaged base fs .effective [("defined", contract .defined "defined")] rfl
  simp only [Stage.name, List.nil_append, List.singleton_append] at hdefined heffective
  rw [loadContracts]
  apply foldlM_pair
  · rw [hdefined, Except.map]
  · rw [heffective, Except.map, packaged]

theorem eq_of_loadContracts {base : Option String} {fs : Files} {defined effective : Contract}
    (h : loadContracts (.below base) fs ["defined", "effective"] =
      .ok [("defined", defined), ("effective", effective)]) :
    defined = contract .defined "defined" ∧ effective = contract .effective "effective" := by
  have heq : [("defined", defined), ("effective", effective)] = packaged :=
    Except.ok.inj (h.symm.trans (loadContracts_packaged base fs))
  obtain ⟨hdefined, hrest⟩ := List.cons.inj heq
  exact ⟨congrArg Prod.snd hdefined, congrArg Prod.snd (List.cons.inj hrest).1⟩

theorem get_packaged (stage : Stage) : packaged.get stage.name = .ok (contract stage stage.name) := by
  cases stage with
  | defined => simp only [Contracts.get, packaged, Stage.name, List.lookup_cons_self]
  | effective =>
      have hne : ("effective" == "defined") = false := rfl
      simp only [Contracts.get, packaged, Stage.name, List.lookup_cons, hne, beq_self_eq_true]

theorem start_build {c : Config} {r : Resources} {fs : Files} {contracts : Contracts}
    (hcheck : c.check = .ok ())
    (hload : loadContracts r fs [c.definedSchema, c.effectiveSchema] = .ok contracts) :
    (build c r fs).start.1 = .ok ⟨c, r, contracts⟩ := by
  rw [build, hcheck, hload]
  rfl

theorem eq_of_build {c : Config} {r : Resources} {fs : Files} {p : Pipeline} {contracts : Contracts}
    (hload : loadContracts r fs [c.definedSchema, c.effectiveSchema] = .ok contracts)
    (hbuild : (build c r fs).start.1 = .ok p) : p = ⟨c, r, contracts⟩ := by
  unfold build at hbuild
  rw [hload] at hbuild
  cases hcheck : c.check with
  | ok u =>
      rw [hcheck] at hbuild
      exact (Except.ok.inj hbuild).symm
  | error e =>
      rw [hcheck] at hbuild
      cases hbuild

/-! ### Stages -/

section
variable {p : Pipeline} {t t' : Tree} {trace : List Record}

theorem validate_of_get {name : String} {c : Contract} (h : p.contracts.get name = .ok c) :
    p.validate name t = c.validate p.config.policy t := by
  rw [validate, h]
  rfl

theorem run_validateDefined (h : p.validate p.config.definedSchema t = .ok ()) :
    (p.validateDefined t).run.run trace = (.ok (), trace ++ [.event .definedValidated []]) := by
  unfold validateDefined
  rw [h]
  rfl

theorem run_createEffective (h : normalize p.config.defaultSteps t = .ok t') :
    (p.createEffective t).run.run trace = (.ok t', trace ++ [.event .effectiveCreated []]) := by
  unfold createEffective
  rw [h]
  rfl

theorem run_validateEffective (h : p.validate p.config.effectiveSchema t = .ok ()) :
    (p.validateEffective t).run.run trace = (.ok (), trace ++ [.event .effectiveValidated []]) := by
  unfold validateEffective
  rw [h]
  rfl

theorem start_effectiveOf (hdefined : p.validate p.config.definedSchema t = .ok ())
    (hnormal : normalize p.config.defaultSteps t = .ok t')
    (heffective : p.validate p.config.effectiveSchema t' = .ok ()) :
    (p.effectiveOf t).start.1 = .ok t' := by
  rw [Traced.start, effectiveOf, run_bind_of_ok (run_validateDefined hdefined),
    run_bind_of_ok (run_createEffective hnormal),
    run_bind_of_ok (run_validateEffective heffective)]
  rfl

theorem validate_of_validateDefined (h : (p.validateDefined t).start.1 = .ok ()) :
    p.validate p.config.definedSchema t = .ok () := by
  unfold validateDefined at h
  cases hv : p.validate p.config.definedSchema t with
  | ok u => rfl
  | error e =>
      rw [hv] at h
      exact h

theorem normalize_of_createEffective (h : (p.createEffective t).start.1 = .ok t') :
    normalize p.config.defaultSteps t = .ok t' := by
  unfold createEffective at h
  cases hnormal : normalize p.config.defaultSteps t with
  | ok e =>
      rw [hnormal] at h
      exact h
  | error e =>
      rw [hnormal] at h
      exact h

end

theorem validate_normalize {defaultGroup : String} {t t' : Tree} (hindex : t.indexable)
    {defined effective : String} {policy other : Policy}
    (hdefined : (contract .defined defined).validate policy t = .ok ())
    (hnormal : normalize defaultGroup t = .ok t') :
    (contract .effective effective).validate other t' = .ok () := by
  rw [validate_contract_iff] at hdefined ⊢
  exact hdefined.normalize hindex hnormal

-- The packaged contracts can be loaded, and no run with them is stopped by the second validation. A list
-- that fits into memory has fewer members than a signed word counts, so their positions are not negative.
theorem normalization_sound :
    ∃ defined effective : Contract,
      (∀ base fs, loadContracts (.below base) fs ["defined", "effective"] =
        .ok [("defined", defined), ("effective", effective)]) ∧
      (∀ (t t' : Tree) (defaultGroup : String) (policy : Policy), t.indexable →
        defined.validate policy t = .ok () → normalize defaultGroup t = .ok t' →
          ∀ other, effective.validate other t' = .ok ()) ∧
      ∀ (c : Config) (base : Option String) (fs : Files) (p : Pipeline),
        c.definedSchema = "defined" → c.effectiveSchema = "effective" →
        (build c (.below base) fs).start.1 = .ok p →
          ∀ t t' : Tree, t.indexable → (p.validateDefined t).start.1 = .ok () →
            (p.createEffective t).start.1 = .ok t' → (p.effectiveOf t).start.1 = .ok t' := by
  refine ⟨contract .defined "defined", contract .effective "effective", loadContracts_packaged,
    fun t t' defaultGroup policy hindex hdefined hnormal other =>
      validate_normalize hindex hdefined hnormal, ?_⟩
  intro c base fs p hc hc' hbuild t t' hindex hdefined hcreate
  have hload : loadContracts (.below base) fs [c.definedSchema, c.effectiveSchema] = .ok packaged := by
    rw [hc, hc', loadContracts_packaged]
  obtain rfl := eq_of_build hload hbuild
  have hdefined := validate_of_validateDefined hdefined
  have hnormal := normalize_of_createEffective hcreate
  refine start_effectiveOf hdefined hnormal ?_
  have hget : packaged.get c.definedSchema = .ok (contract .defined "defined") := by
    rw [hc]
    exact get_packaged .defined
  have hget' : packaged.get c.effectiveSchema = .ok (contract .effective "effective") := by
    rw [hc']
    exact get_packaged .effective
  rw [validate_of_get hget] at hdefined
  rw [validate_of_get hget']
  exact validate_normalize hindex hdefined hnormal

-- A definition without facts, and a task that names no steps.
def prices : Tree :=
  .map [
    ("dataDefs", .map [("price", .map [("axis", .map [("row", .map [("members", .seq [
      .map [("name", .string "open"), ("match", .string "o.*")]])])])])]),
    ("steps", .map [
      ("load", .seq [.map [("name", .string "load"), ("class", .string "Loader")]]),
      ("all", .seq [.string "load"])]),
    ("taskGroups", .map [("daily", .map [("prices", .map [("dataDef", .string "price")])])])]

set_option maxRecDepth 20000 in
theorem validate_prices : (contract .defined "defined").validate .collectAll prices = .ok () := by cbv

theorem normalization_sound_prices :
    ∃ (defined effective : Contract) (p : Pipeline) (t : Tree),
      loadContracts (.below none) .empty ["defined", "effective"] =
        .ok [("defined", defined), ("effective", effective)] ∧
      (build { defsDir := "defs", defaultSteps := "all" } (.below none) .empty).start.1 = .ok p ∧
      defined.validate .collectAll prices = .ok () ∧ normalize "all" prices = .ok t ∧
      effective.validate .failFast t = .ok () ∧ (p.effectiveOf prices).start.1 = .ok t := by
  obtain ⟨defined, effective, hload, hsound, hruns⟩ := normalization_sound
  obtain ⟨hdefined, -⟩ := eq_of_loadContracts (hload none .empty)
  have hindex : prices.indexable := by decide
  have hvalid : defined.validate .collectAll prices = .ok () := by
    rw [hdefined]
    exact validate_prices
  obtain ⟨t, hnormal⟩ : ∃ t, normalize "all" prices = .ok t := ⟨_, rfl⟩
  let c : Config := { defsDir := "defs", defaultSteps := "all" }
  let p : Pipeline := ⟨c, .below none, [("defined", defined), ("effective", effective)]⟩
  have hbuild : (build c (.below none) .empty).start.1 = .ok p :=
    start_build (by decide) (hload none .empty)
  have hstage : (p.validateDefined prices).start.1 = .ok () := by
    have hget : p.contracts.get p.config.definedSchema = .ok defined := rfl
    have hstep : p.validate p.config.definedSchema prices = .ok () := by
      rw [validate_of_get hget]
      exact hvalid
    rw [Traced.start, run_validateDefined hstep]
  have hcreate : (p.createEffective prices).start.1 = .ok t := by
    rw [Traced.start, run_createEffective (p := p) hnormal]
  exact ⟨defined, effective, p, t, hload none .empty, hbuild, hvalid, hnormal,
    hsound prices t "all" .collectAll hindex hvalid hnormal .failFast,
    hruns c none .empty p rfl rfl hbuild prices t hindex hstage hcreate⟩

end Pipeline
end ScraperTimeline
