import ScraperTimeline.Proofs.Timeline.History
import ScraperTimeline.Proofs.Timeline.Memory

namespace ScraperTimeline

theorem Reconciliation.checkNew_of_compiled {high : Instant} {new : Version} (h : new.Compiled high) :
    checkNew high new = .ok () := by
  simp [checkNew, h.isOpen, h.whole]

namespace Reconciliation

variable (high : Instant) (new : Version) (r : Reconciliation)

theorem checkNew_cases : checkNew high new = .ok () ∨
    ∃ reason, checkNew high new = .error (.invalidValidity new.name reason) := by
  rw [checkNew]
  split
  next => exact .inr ⟨_, rfl⟩
  next =>
    split
    next => exact .inr ⟨_, rfl⟩
    next => exact .inl rfl

-- A new version is refused, or dropped, or it comes in at the end, after another one is closed for it at most.
theorem add_cases : (∃ reason, r.add high new = .error (.invalidValidity new.name reason)) ∨
    r.add high new = .ok (r.report new.name .unchanged) ∨
    r.add high new = .ok ((r.insert new).report new.name .inserted) ∨
    ∃ place stop, r.add high new =
      .ok (((r.close place stop).insert new).report new.name (.superseded stop)) := by
  rcases checkNew_cases high new with hcheck | ⟨reason, hcheck⟩
  · simp only [add, hcheck, bind, Except.bind]
    split
    next => exact .inr (.inr (.inl rfl))
    next place _ =>
      split
      next => exact .inr (.inl rfl)
      next =>
        split
        next => exact .inl ⟨_, rfl⟩
        next => exact .inr (.inr (.inr ⟨place, _, rfl⟩))
  · exact .inl ⟨reason, by rw [add, hcheck]; rfl⟩

theorem mem_writes_insert : new ∈ (r.insert new).writes :=
  List.mem_filterMap.mpr ⟨r.versions.length, by simp [insert], by simp [insert]⟩

end Reconciliation

namespace Sync

-- What is told of a version that does not start after the open one.
def overtaken (new current : Version) : Fault :=
  .invalidValidity new.name
    ("new version from " ++ new.start.messageText ++ " does not follow open version from " ++
      current.start.messageText)

-- A plan fails for good, or leaves everything as it is, or has something to write.
theorem plan_cases (high : Instant) (new : Version) (seen : Option Version) :
    (∃ reason, plan high new seen = .error (.invalidValidity new.name reason)) ∨
      plan high new seen = .ok (.unchanged, []) ∨
      ∃ outcome writes, outcome.isChange ∧ writes ≠ [] ∧ plan high new seen = .ok (outcome, writes) := by
  have hplan : plan high new seen = ((Reconciliation.start seen.toList).add high new).map fun r =>
      ((r.outcomes.head?.map (·.2)).getD .unchanged, r.writes) := by
    rw [plan, reconcile, List.foldlM_cons]
    cases (Reconciliation.start seen.toList).add high new <;> rfl
  rw [hplan]
  rcases Reconciliation.add_cases high new (.start seen.toList) with ⟨reason, h⟩ | h | h | ⟨place, stop, h⟩ <;> rw [h]
  · exact .inl ⟨reason, rfl⟩
  · exact .inr (.inl rfl)
  · exact .inr (.inr ⟨.inserted, _, rfl, List.ne_nil_of_mem (Reconciliation.mem_writes_insert new _), rfl⟩)
  · exact .inr (.inr ⟨.superseded stop, _, rfl, List.ne_nil_of_mem (Reconciliation.mem_writes_insert new _), rfl⟩)

variable {high : Instant} {new : Version}

theorem plan_none (h : new.Compiled high) : plan high new none = .ok (.inserted, [new]) := by
  simp only [plan, reconcile, Option.toList, List.foldlM_cons, List.foldlM_nil, Reconciliation.add,
    Reconciliation.checkNew_of_compiled h, Reconciliation.start]
  rfl

theorem plan_some (h : new.Compiled high) {current : Version} (hopen : current.isOpen high)
    (hname : current.name = new.name) :
    plan high new (some current) =
      if current.sameDefinition new then .ok (.unchanged, [])
      else if new.start.secondBefore < current.start then .error (overtaken new current)
      else .ok (.superseded new.start.secondBefore, [current.closedAt new.start.secondBefore, new]) := by
  have hfind : List.findIdx? (fun v => decide (v.name = new.name) && v.isOpen high) [current] =
      some 0 := by
    simp [List.findIdx?_cons, hname, hopen]
  simp only [plan, reconcile, Option.toList, List.foldlM_cons, List.foldlM_nil, Reconciliation.add,
    Reconciliation.checkNew_of_compiled h, Reconciliation.start, bind, Except.bind, hfind]
  by_cases hsame : current.sameDefinition new
  · simp [hsame, pure, Except.pure, Reconciliation.report, Reconciliation.writes]
  · by_cases hlate : new.start.secondBefore < current.start
    · simp [hsame, hlate, overtaken]
    · simp [hsame, hlate, pure, Except.pure, Reconciliation.report, Reconciliation.writes,
        Reconciliation.insert, Reconciliation.close]

-- A plan that puts the new version behind those of a succession.
structure Extends (high : Instant) (vs : List Version) (new : Version) (outcome : Outcome)
    (writes : List Version) : Prop where
  isChange : outcome.isChange
  nonempty : writes ≠ []
  named : ∀ w ∈ writes, w.name = new.name
  precedes : ∀ v ∈ vs, v.Precedes new
  put : writes.foldl (fun h v => h.put v) (History.chain high vs) = History.chain high (vs ++ [new])

-- What a plan does to the history of a succession when its writes are put in: nothing, or the
-- new version comes last.
inductive Planned (high : Instant) (vs : List Version) (new : Version) : Outcome → List Version → Prop
  | unchanged : Planned high vs new .unchanged []
  | changed {outcome : Outcome} {writes : List Version} (h : Extends high vs new outcome writes) :
      Planned high vs new outcome writes

namespace Planned

variable {vs : List Version} {outcome : Outcome} {writes : List Version}

theorem unchanged_of_nil (h : Planned high vs new outcome []) : outcome = .unchanged := by
  cases h with
  | unchanged => rfl
  | changed h => exact absurd rfl h.nonempty

theorem changed_of_ne_nil (h : Planned high vs new outcome writes) (hne : writes ≠ []) :
    Extends high vs new outcome writes := by
  cases h with
  | unchanged => exact absurd rfl hne
  | changed h => exact h

end Planned

theorem planned_of_plan {vs : List Version} (hvs : History.Succession high new.name vs)
    (h : new.Compiled high) {outcome : Outcome} {writes : List Version}
    (hplan : plan high new vs.getLast? = .ok (outcome, writes)) :
    Planned high vs new outcome writes := by
  cases hlast : vs.getLast? with
  | none =>
      rw [hlast, plan_none h] at hplan
      cases hplan
      rw [List.getLast?_eq_none_iff] at hlast
      subst vs
      exact .changed ⟨rfl, by simp, by simp, by simp, History.chain_insert h⟩
  | some current =>
      have hm := List.mem_of_getLast? hlast
      rw [hlast, plan_some h (hvs.compiled _ hm).isOpen (hvs.named _ hm)] at hplan
      split at hplan
      · cases hplan
        exact .unchanged
      · split at hplan
        · cases hplan
        · rename_i hlate
          cases hplan
          have hprec : current.Precedes new := Instant.not_lt.mp hlate
          have hnamed := hvs.named _ hm
          exact .changed ⟨rfl, by simp, by simpa using hnamed, hvs.precedes_of_getLast? hlast hprec,
            History.chain_supersede hvs hlast h hprec⟩

-- Without other writers the open version matches itself, so what is planned is done.
theorem run_attempt_of_plan {vs : List Version} {s : MemoryStore} (hhigh : s.high = high)
    (hhistory : s.history new.name = History.chain high vs) (hvs : History.Succession high new.name vs)
    (hnew : new.Compiled high) (hname : Store.isName new.name)
    (hself : ∀ v ∈ vs, v.sameDefinition v) {outcome : Outcome} {writes : List Version}
    (hplan : plan high new vs.getLast? = .ok (outcome, writes)) :
    (attempt high new).run s =
      (.settled outcome,
        if writes = [] then s else s.setHistory new.name (History.chain high (vs ++ [new]))) := by
  have hopen : s.openOf new.name = vs.getLast? := by
    rw [MemoryStore.openOf, hhistory, hhigh]
    exact History.open?_chain hvs
  have hplanned := planned_of_plan hvs hnew hplan
  have hread := run_consult high new s
  rw [hopen, hplan] at hread
  by_cases hne : writes = []
  · subst hne
    rw [run_attempt_ended hread, if_pos rfl]
  · rw [Finding.ofPlan_of_ne_nil hne] at hread
    have hchanged := hplanned.changed_of_ne_nil hne
    have hmatch : Store.stillMatches (s.openOf new.name) vs.getLast? := by
      rw [hopen]
      exact Store.stillMatches_refl fun o ho => hself o (List.mem_of_getLast? ho)
    rw [run_attempt_swap hread, run_commit_of_stillMatches hname hchanged.named hmatch, if_neg hne,
      hhistory, hchanged.put]

end Sync
end ScraperTimeline
