import ScraperTimeline.Timeline.Sync

/-!
Syncs over any store: the calls that an attempt makes, and the versions of a list one after another.
-/
namespace ScraperTimeline

theorem Version.sameVersion_refl (v : Version) : v.sameVersion v := by
  simp [Version.sameVersion]

namespace Store

-- A swap finds what it has seen if both are nothing, or one version with one definition.
theorem stillMatches_iff {current seen : Option Version} :
    stillMatches current seen ↔ Option.Rel (fun v w => v.sameVersion w ∧ v.sameDefinition w) current seen := by
  cases current <;> cases seen <;> simp [stillMatches]

theorem stillMatches_refl {seen : Option Version} (h : ∀ o ∈ seen, o.sameDefinition o) : stillMatches seen seen := by
  cases seen with
  | none => rfl
  | some o => exact stillMatches_iff.mpr (.some ⟨o.sameVersion_refl, h o rfl⟩)

theorem checkName_of_isName {name : String} (h : isName name) : checkName name = .ok () := by
  simp [checkName, h]

theorem checkWrites_of_forall {name : String} {writes : List Version} (h : ∀ w ∈ writes, w.name = name) :
    checkWrites name writes = .ok () := by
  have hnone : writes.find? (·.name ≠ name) = none := by simpa using h
  rw [checkWrites, hnone]

end Store

namespace Sync

variable {high : Instant} {new : Version}

-- What a plan leads to.
def Finding.ofPlan (seen : Option Version) : Except Fault (Outcome × List Version) → Finding
  | .error e => .ended (.failed e)
  | .ok (outcome, []) => .ended (.settled outcome)
  | .ok (outcome, w :: writes) => .swap ⟨seen, outcome, w :: writes⟩

theorem Finding.ofPlan_of_ne_nil {seen : Option Version} {outcome : Outcome} {writes : List Version}
    (h : writes ≠ []) : ofPlan seen (.ok (outcome, writes)) = .swap ⟨seen, outcome, writes⟩ := by
  obtain ⟨w, rest, rfl⟩ := List.exists_cons_of_ne_nil h
  rfl

section
variable {σ : Type} [Store σ] {settings : Settings} {store after : σ}

theorem run_attempt_ended {a : Attempt}
    (hread : (consult high new).run store = (.ended a, after)) :
    (attempt high new).run store = (a, after) := by
  simp only [attempt, StateT.run_bind, hread]
  rfl

theorem run_attempt_swap {p : Proposal}
    (hread : (consult high new).run store = (.swap p, after)) :
    (attempt high new).run store = (commit new p).run after := by
  simp only [attempt, StateT.run_bind, hread]
  rfl

theorem run_settle_zero {made : Nat} {a : Attempt} (ha : (attempt settings.high new).run store = (a, after)) :
    (settle settings new made 0).run store = (([], a.result), after) := by
  simp only [settle, StateT.run_bind, ha]
  rfl

-- A lost attempt is followed by a wait and by the others.
theorem run_settle_of_lost {made left : Nat} {e : Fault} {final : σ} {waits : List Wait}
    {result : Except Fault Outcome} (ha : (attempt settings.high new).run store = (.lost e, after))
    (hrest : (settle settings new (made + 1) left).run after = ((waits, result), final)) :
    (settle settings new made (left + 1)).run store =
      ((⟨new.name, made + 1, delay settings.backoff (made + 1), e⟩ :: waits, result), final) := by
  simp only [settle, StateT.run_bind, ha]
  change StateT.run (settle settings new (made + 1) left >>= fun told => pure (_ :: told.1, told.2)) after = _
  simp only [StateT.run_bind, hrest]
  rfl

-- An attempt that is not lost is the last one.
theorem run_settle {made left : Nat} {a : Attempt}
    (ha : (attempt settings.high new).run store = (a, after)) (hlost : ∀ e, a ≠ .lost e) :
    (settle settings new made left).run store = (([], a.result), after) := by
  cases left with
  | zero => exact run_settle_zero ha
  | succ left =>
      simp only [settle, StateT.run_bind, ha]
      cases a with
      | settled outcome => rfl
      | failed e => rfl
      | lost e => exact absurd rfl (hlost e)

-- The attempts for a version, when so many retries have been made and so many are left: the last one, or one that
-- is lost and those after it.
inductive Settles (settings : Settings) (new : Version) :
    Nat → Nat → σ → List Wait → Except Fault Outcome → σ → Prop
  | last {store after : σ} {made left : Nat} {a : Attempt}
      (ha : (attempt settings.high new).run store = (a, after)) (hlast : ∀ e, a = .lost e → left = 0) :
      Settles settings new made left store [] a.result after
  | lost {store after final : σ} {made left : Nat} {e : Fault} {waits : List Wait} {result : Except Fault Outcome}
      (ha : (attempt settings.high new).run store = (.lost e, after))
      (hrest : Settles settings new (made + 1) left after waits result final) :
      Settles settings new made (left + 1) store
        (⟨new.name, made + 1, delay settings.backoff (made + 1), e⟩ :: waits) result final

theorem Settles.run {made left : Nat} {waits : List Wait} {result : Except Fault Outcome}
    (hsettles : Settles settings new made left store waits result after) :
    (settle settings new made left).run store = ((waits, result), after) := by
  induction hsettles with
  | @last _ _ _ left a ha hlast =>
      cases a with
      | settled outcome => exact run_settle ha (by simp)
      | failed e => exact run_settle ha (by simp)
      | lost e =>
          obtain rfl := hlast e rfl
          exact run_settle_zero ha
  | lost ha _ ih => exact run_settle_of_lost ha ih

theorem settles_iff {made left : Nat} {waits : List Wait} {result : Except Fault Outcome} :
    Settles settings new made left store waits result after ↔
      (settle settings new made left).run store = ((waits, result), after) := by
  refine ⟨Settles.run, fun hrun => ?_⟩
  induction left generalizing store made waits with
  | zero =>
      rcases ha : (attempt settings.high new).run store with ⟨a, next⟩
      cases (run_settle_zero ha).symm.trans hrun
      exact .last ha fun _ _ => rfl
  | succ left ih =>
      rcases ha : (attempt settings.high new).run store with ⟨a, next⟩
      cases a with
      | settled outcome =>
          cases (run_settle ha (by simp)).symm.trans hrun
          exact .last ha (by simp)
      | failed e =>
          cases (run_settle ha (by simp)).symm.trans hrun
          exact .last ha (by simp)
      | lost e =>
          rcases hmore : (settle settings new (made + 1) left).run next with ⟨⟨more, told⟩, last⟩
          cases (run_settle_of_lost ha hmore).symm.trans hrun
          exact .lost ha (ih hmore)

-- A read that goes well leads to what is planned for the open version.
theorem run_consult_of_read {seen : Option Version}
    (hread : (Store.findOpen new.name : Storing σ (Option Version)).run.run store = pure (.ok seen, after)) :
    (consult high new).run store = (.ofPlan seen (plan high new seen), after) := by
  simp only [consult, StateT.run_bind, hread, pure_bind]
  cases plan high new seen with
  | error e => rfl
  | ok planned =>
      obtain ⟨outcome, writes⟩ := planned
      cases writes <;> rfl

theorem run_consult_of_error {e : Fault}
    (hread : (Store.findOpen new.name : Storing σ (Option Version)).run.run store = pure (.error e, store)) :
    (consult high new).run store = (.ended (.failed e), store) := by
  simp only [consult, StateT.run_bind, hread, pure_bind]
  rfl

theorem run_commit_of_swap {p : Proposal} {result : Except Fault Unit}
    (hswap : (Store.swap new.name p.seen p.writes : Storing σ Unit).run.run store = pure (result, after)) :
    (commit new p).run store = (.ofSwap p.outcome result, after) := by
  simp only [commit, StateT.run_bind, hswap, pure_bind]
  rfl

theorem result_ofSwap (outcome : Outcome) (answer : Except Fault Unit) :
    (Attempt.ofSwap outcome answer).result = answer.map fun _ => outcome := by
  cases answer with
  | ok => rfl
  | error e =>
      rw [Attempt.ofSwap]
      split <;> rfl

-- A swap that is made, or fails for good, is the end.
theorem run_settle_of_swap {p : Proposal} {result : Except Fault Unit} {final : σ}
    (hread : (consult settings.high new).run store = (.swap p, after))
    (hswap : (Store.swap new.name p.seen p.writes : Storing σ Unit).run.run after = pure (result, final))
    (hfinal : ∀ e, result = .error e → e.isRetryable = false) (made left : Nat) :
    (settle settings new made left).run store = (([], result.map fun _ => p.outcome), final) := by
  have hattempt : (attempt settings.high new).run store = (.ofSwap p.outcome result, final) :=
    (run_attempt_swap hread).trans (run_commit_of_swap hswap)
  rw [← result_ofSwap]
  refine run_settle hattempt fun e hlost => ?_
  cases result with
  | ok => cases hlost
  | error f =>
      rw [Attempt.ofSwap, hfinal f rfl] at hlost
      cases hlost

-- A version that is brought in, and then the others.
theorem run_apply_of_settle {rest : List Version} {outcome : Outcome} {final : σ}
    {before waits : List Wait} {result : Except Fault Report}
    (hsettle : (settle settings new 0 settings.retries).run store = ((before, .ok outcome), after))
    (happly : (apply settings rest).run after = ((waits, result), final)) :
    (apply settings (new :: rest)).run store =
      ((before ++ waits, result.map ((new.name, outcome) :: ·)), final) := by
  simp only [apply, StateT.run_bind, hsettle]
  change StateT.run (apply settings rest >>= fun told =>
    pure (before ++ told.1, told.2.map ((new.name, outcome) :: ·))) after = _
  simp only [StateT.run_bind, happly]
  rfl

theorem run_apply_of_error {rest : List Version} {e : Fault} {waits : List Wait}
    (hsettle : (settle settings new 0 settings.retries).run store = ((waits, .error e), after)) :
    (apply settings (new :: rest)).run store = ((waits, .error e), after) := by
  simp only [apply, StateT.run_bind, hsettle]
  rfl

-- What `apply` does, version by version: it is through, or a version fails and the rest is left, or a version
-- is brought in and the rest comes after it.
inductive Applies (settings : Settings) : σ → List Version → List Wait → Except Fault Report → σ → Prop
  | nil (store : σ) : Applies settings store [] [] (.ok []) store
  | failed {store after : σ} {new : Version} {waits : List Wait} {e : Fault}
      (hsettle : (settle settings new 0 settings.retries).run store = ((waits, .error e), after))
      (rest : List Version) : Applies settings store (new :: rest) waits (.error e) after
  | settled {store after final : σ} {new : Version} {rest : List Version} {outcome : Outcome}
      {before waits : List Wait} {result : Except Fault Report}
      (hsettle : (settle settings new 0 settings.retries).run store = ((before, .ok outcome), after))
      (hrest : Applies settings after rest waits result final) :
      Applies settings store (new :: rest) (before ++ waits) (result.map ((new.name, outcome) :: ·)) final

theorem Applies.run {vs : List Version} {waits : List Wait} {result : Except Fault Report}
    (happlies : Applies settings store vs waits result after) :
    (apply settings vs).run store = ((waits, result), after) := by
  induction happlies with
  | nil => rfl
  | failed hsettle => exact run_apply_of_error hsettle
  | settled hsettle _ ih => exact run_apply_of_settle hsettle ih

theorem applies_iff {vs : List Version} {waits : List Wait} {result : Except Fault Report} :
    Applies settings store vs waits result after ↔
      (apply settings vs).run store = ((waits, result), after) := by
  refine ⟨Applies.run, fun hrun => ?_⟩
  induction vs generalizing store waits result with
  | nil =>
      cases hrun
      exact .nil _
  | cons new rest ih =>
      rcases hsettle : (settle settings new 0 settings.retries).run store with ⟨⟨before, outcome⟩, next⟩
      cases outcome with
      | error e =>
          cases (run_apply_of_error hsettle).symm.trans hrun
          exact .failed hsettle rest
      | ok outcome =>
          rcases hmore : (apply settings rest).run next with ⟨⟨more, told⟩, last⟩
          cases (run_apply_of_settle hsettle hmore).symm.trans hrun
          exact .settled hsettle (ih hmore)

-- Versions that are brought in, and then more of them.
theorem run_apply_append {us vs : List Version} {final : σ} {before waits : List Wait} {report : Report}
    {result : Except Fault Report} (hfirst : (apply settings us).run store = ((before, .ok report), after))
    (hrest : (apply settings vs).run after = ((waits, result), final)) :
    (apply settings (us ++ vs)).run store = ((before ++ waits, result.map (report ++ ·)), final) := by
  replace hfirst := applies_iff.mpr hfirst
  generalize htold : (.ok report : Except Fault Report) = told at hfirst
  induction hfirst generalizing report with
  | nil =>
      cases htold
      rw [List.nil_append, hrest]
      cases result <;> rfl
  | failed => cases htold
  | @settled _ _ _ _ _ _ _ _ more hsettle _ ih =>
      cases more with
      | error e => cases htold
      | ok more =>
          cases htold
          rw [List.cons_append, run_apply_of_settle hsettle (ih hrest rfl), List.append_assoc]
          cases result <;> rfl

theorem run_apply_append_of_error {us : List Version} {waits : List Wait} {e : Fault}
    (hfirst : (apply settings us).run store = ((waits, .error e), after)) (vs : List Version) :
    (apply settings (us ++ vs)).run store = ((waits, .error e), after) := by
  replace hfirst := applies_iff.mpr hfirst
  generalize htold : (.error e : Except Fault Report) = told at hfirst
  induction hfirst with
  | nil => cases htold
  | failed hsettle =>
      cases htold
      exact run_apply_of_error hsettle
  | @settled _ _ _ _ _ _ _ _ more hsettle _ ih =>
      cases more with
      | error f =>
          cases htold
          exact run_apply_of_settle hsettle (ih rfl)
      | ok more => cases htold

-- Versions of which each alone changes nothing change nothing one after the other.
theorem run_apply_unchanged {vs : List Version}
    (h : ∀ v ∈ vs, (settle settings v 0 settings.retries).run store = (([], .ok .unchanged), store)) :
    (apply settings vs).run store = (([], .ok (vs.map fun v => (v.name, .unchanged))), store) := by
  induction vs with
  | nil => rfl
  | cons new rest ih =>
      obtain ⟨hnew, hrest⟩ := List.forall_mem_cons.mp h
      exact run_apply_of_settle hnew (ih hrest)

-- If all of them are reported as unchanged, so is each of them alone.
theorem forall_unchanged_of_run_apply {vs : List Version}
    (hsame : ∀ v ∈ vs, ((settle settings v 0 settings.retries).run store).1.2 = .ok .unchanged →
      (settle settings v 0 settings.retries).run store = (([], .ok .unchanged), store))
    (happly : ((apply settings vs).run store).1.2 = .ok (vs.map fun v => (v.name, .unchanged))) :
    ∀ v ∈ vs, ((settle settings v 0 settings.retries).run store).1.2 = .ok .unchanged := by
  rcases hrun : (apply settings vs).run store with ⟨⟨waits, result⟩, after⟩
  rw [hrun] at happly
  have happlies := applies_iff.mpr hrun
  clear hrun
  induction happlies with
  | nil => simp
  | failed => cases happly
  | @settled _ _ _ new rest outcome _ _ result hsettle _ ih =>
      obtain ⟨hnew, hrest⟩ := List.forall_mem_cons.mp hsame
      cases result with
      | error e => cases happly
      | ok report =>
          obtain ⟨hfirst, rfl⟩ := List.cons.inj (Except.ok.inj happly)
          obtain rfl : outcome = .unchanged := (Prod.mk.inj hfirst).2
          have hunchanged := congrArg (·.1.2) hsettle
          cases hsettle.symm.trans (hnew hunchanged)
          exact List.forall_mem_cons.mpr ⟨hunchanged, ih hrest rfl⟩

end

end Sync
end ScraperTimeline
