import ScraperTimeline.Proofs.Timeline.Interleaving
import ScraperTimeline.Proofs.Timeline.Runs

/-!
Reconciliation with everything that is stored, next to syncing name by name. The collection has the
versions of each name in some order, and the store has them in their histories.
-/
namespace ScraperTimeline
open History

/-! ### The open version of a name -/

namespace Reconciliation

variable {high : Instant} {new : Version} {r : Reconciliation}

theorem add_of_none (h : new.Compiled high)
    (hnone : ∀ v ∈ r.versions, ¬(v.name = new.name ∧ v.isOpen high)) :
    r.add high new = .ok ((r.insert new).report new.name .inserted) := by
  have hfind : r.versions.findIdx? (fun v => decide (v.name = new.name) && v.isOpen high) = none := by
    simpa using hnone
  simp only [add, checkNew_of_compiled h, hfind]
  rfl

theorem add_of_some (h : new.Compiled high) {before after : List Version} {o : Version}
    (hversions : r.versions = before ++ o :: after)
    (hbefore : ∀ v ∈ before, ¬(v.name = new.name ∧ v.isOpen high)) (hname : o.name = new.name)
    (hopen : o.isOpen high) :
    r.add high new =
      if o.sameDefinition new then .ok (r.report new.name .unchanged)
      else if new.start.secondBefore < o.start then .error (Sync.overtaken new o)
      else .ok (((r.close before.length new.start.secondBefore).insert new).report new.name
        (.superseded new.start.secondBefore)) := by
  have hfirst : before.findIdx? (fun v => decide (v.name = new.name) && v.isOpen high) = none := by
    simpa using hbefore
  have hfind : r.versions.findIdx? (fun v => decide (v.name = new.name) && v.isOpen high) =
      some before.length := by
    rw [hversions, List.findIdx?_append, hfirst, List.findIdx?_cons]
    simp [hname, hopen]
  have hcurrent : r.versions.getD before.length new = o := by simp [hversions]
  simp only [add, checkNew_of_compiled h, hfind, hcurrent, bind, Except.bind]
  rfl

end Reconciliation

namespace History

variable {high : Instant} {name : String} {vs versions : List Version} {o : Version}

theorem filter_isOpen_chain (h : Succession high name vs) (ho : vs.getLast? = some o) :
    (chain high vs).filter (·.isOpen high) = [o] := by
  have hcontiguous := chain_contiguous h
  obtain ⟨older, rfl⟩ := List.getLast?_eq_some_iff.mp ho
  have hcompiled := h.compiled o (by simp)
  obtain ⟨past, hchain, -⟩ := exists_chain_concat high older o
  rw [hchain, hcompiled.closedAt_high] at hcontiguous ⊢
  have hpast : past.filter (·.isOpen high) = [] := by
    rw [List.filter_eq_nil_iff]
    intro v hv hopen
    have hlast := (hcontiguous.open_iff_last v (by simp [hv])).mp hopen
    obtain rfl : o = v := by simpa using hlast
    have hlt := (List.pairwise_append.mp hcontiguous.ascending).2.2 o hv o (by simp)
    exact Instant.ne_of_lt hlt rfl
  rw [List.filter_append, hpast]
  simp [hcompiled.isOpen]

theorem exists_of_perm_chain (h : Succession high name vs)
    (hperm : (ofName name versions).Perm (chain high vs)) (ho : vs.getLast? = some o) :
    ∃ before after, versions = before ++ o :: after ∧
      ∀ v ∈ before, ¬(v.name = name ∧ v.isOpen high) := by
  have hopen := hperm.filter (·.isOpen high)
  rw [filter_isOpen_chain h ho, List.perm_singleton, ofName, List.filter_filter] at hopen
  obtain ⟨before, after, hversions, hbefore, -⟩ := List.filter_eq_cons_iff.mp hopen
  refine ⟨before, after, hversions, fun v hv => ?_⟩
  simpa [and_comm] using hbefore v hv

theorem not_isOpen_of_perm_nil (hperm : (ofName name versions).Perm (chain high [])) :
    ∀ v ∈ versions, ¬(v.name = name ∧ v.isOpen high) := by
  rintro v hv ⟨hname, -⟩
  have hmem := hperm.subset (mem_ofName.mpr ⟨hv, hname⟩)
  cases hmem

-- Versions are sorted by their starts, of which no two are the same.
theorem sortByStart_of_perm {h sorted : History} (hperm : h.Perm sorted)
    (hs : sorted.Pairwise fun v w => v.start < w.start) : sortByStart h = sorted := by
  have hsort : (sortByStart h).Perm sorted := (List.mergeSort_perm h _).trans hperm
  have hascending : sorted.Pairwise fun v w => v.start ≤ w.start := hs.imp Instant.le_of_lt
  refine hsort.eq_of_pairwise ?_ ?_ hascending
  · intro v w hv hw hvw hwv
    have hfilter := filter_start_of_mem hs hw
    have hv : v ∈ sorted.filter (·.start = w.start) := by
      refine List.mem_filter.mpr ⟨hsort.subset hv, ?_⟩
      simpa using Instant.le_antisymm hvw hwv
    rw [hfilter] at hv
    exact List.mem_singleton.mp hv
  · exact pairwise_sortByStart h

end History

/-! ### One version -/

-- A collection has the versions of each name that its history has, and a history is that of a succession.
structure Mirrored (high : Instant) (s : MemoryStore) (versions : List Version) : Prop where
  high_eq : s.high = high
  history : ∀ name, ∃ vs, Succession high name vs ∧ (∀ v ∈ vs, v.sameDefinition v) ∧
    s.history name = chain high vs ∧ (ofName name versions).Perm (chain high vs)

theorem modify_append_cons {α : Type} (f : α → α) (before after : List α) (a : α) :
    (before ++ a :: after).modify before.length f = before ++ f a :: after := by
  induction before with
  | nil => rfl
  | cons b before ih => simp [List.modify_succ_cons, ih]

theorem Reconciliation.versions_supersede {new o : Version} {before after : List Version} {r : Reconciliation}
    (h : r.versions = before ++ o :: after) (stop : Instant) (name : String) (outcome : Outcome) :
    (((r.close before.length stop).insert new).report name outcome).versions =
      before ++ o.closedAt stop :: after ++ [new] := by
  rw [← modify_append_cons, ← h]
  rfl

theorem Sync.run_attempt_of_error {high : Instant} {new : Version} {s : MemoryStore} {e : Fault}
    (hplan : plan high new (s.openOf new.name) = .error e) :
    (attempt high new).run s = (.failed e, s) := by
  have hread := run_consult high new s
  rw [hplan, Finding.ofPlan] at hread
  exact run_attempt_ended hread

namespace Mirrored

open Sync

variable {high : Instant} {s : MemoryStore} {versions : List Version} {new : Version}

theorem findAll (h : Mirrored high s versions) (name : String) :
    (Store.findAll name : Storing MemoryStore History).run.run s =
      (.ok (sortByStart (ofName name versions)), s) := by
  obtain ⟨vs, hvs, -, hhistory, hperm⟩ := h.history name
  rw [sortByStart_of_perm hperm (chain_ascending high hvs.ordered), ← hhistory]
  rfl

theorem perm_supersede {name : String} {before after past : List Version} {o closed : Version}
    (hperm : (ofName name (before ++ o :: after)).Perm (past ++ [o])) (hname : o.name = name)
    (hclosed : closed.name = name) (hnew : new.name = name) :
    (ofName name (before ++ closed :: after ++ [new])).Perm (past ++ [closed, new]) := by
  simp only [ofName, List.filter_append, List.filter_cons, hname, hclosed, hnew, decide_true, if_true,
    List.filter_nil] at hperm ⊢
  have hrest : (before.filter (·.name = name) ++ after.filter (·.name = name)).Perm past :=
    (List.perm_middle.symm.trans (hperm.trans (List.perm_append_singleton o past))).cons_inv
  calc
    List.Perm (before.filter (·.name = name) ++ closed :: after.filter (·.name = name) ++ [new])
        (closed :: (before.filter (·.name = name) ++ after.filter (·.name = name)) ++ [new]) :=
      List.perm_middle.append_right [new]
    List.Perm _ (closed :: past ++ [new]) := (hrest.cons closed).append_right [new]
    List.Perm _ (past ++ [closed] ++ [new]) := (List.perm_append_singleton closed past).symm.append_right [new]
    _ = past ++ [closed, new] := by simp

theorem extend (h : Mirrored high s versions) {vs versions' : List Version}
    (hvs : Succession high new.name (vs ++ [new])) (hself : ∀ v ∈ vs ++ [new], v.sameDefinition v)
    (hperm : (ofName new.name versions').Perm (chain high (vs ++ [new])))
    (hother : ∀ name, name ≠ new.name → ofName name versions' = ofName name versions) :
    Mirrored high (s.setHistory new.name (chain high (vs ++ [new]))) versions' := by
  refine ⟨h.high_eq, fun name => ?_⟩
  by_cases hname : name = new.name
  · subst hname
    exact ⟨vs ++ [new], hvs, hself, MemoryStore.history_setHistory_self .., hperm⟩
  · rw [MemoryStore.history_setHistory_of_ne hname, hother name hname]
    exact h.history name

-- The open version is closed in its place, and the new one comes last.
theorem supersede {r : Reconciliation} (h : Mirrored high s r.versions) (hnew : new.Compiled high)
    {vs before after : List Version} {o : Version} (hvs : Succession high new.name (vs ++ [new]))
    (hself : ∀ v ∈ vs ++ [new], v.sameDefinition v) (hperm : (ofName new.name r.versions).Perm (chain high vs))
    (hlast : vs.getLast? = some o) (hversions : r.versions = before ++ o :: after) (outcome : Outcome) :
    Mirrored high (s.setHistory new.name (chain high (vs ++ [new])))
      (((r.close before.length new.start.secondBefore).insert new).report new.name outcome).versions := by
  have hmem : o ∈ vs ++ [new] := List.mem_append_left _ (List.mem_of_getLast? hlast)
  have hnamed := hvs.named o hmem
  rw [Reconciliation.versions_supersede hversions]
  refine h.extend hvs hself ?_ fun name hne => ?_
  · obtain ⟨older, rfl⟩ := List.getLast?_eq_some_iff.mp hlast
    obtain ⟨past, hchain, hnext⟩ := exists_chain_concat high older o
    rw [hchain, (hvs.compiled o hmem).closedAt_high, hversions] at hperm
    rw [hnext, hnew.closedAt_high]
    exact perm_supersede hperm hnamed hnamed rfl
  · rw [ofName_concat_of_ne hne, hversions]
    have hne : o.name ≠ name := fun heq => hne (heq ▸ hnamed)
    simp [ofName, hne]

-- What becomes of a new version in the collection becomes of it in the store.
theorem add {r : Reconciliation} (h : Mirrored high s r.versions) (hnew : new.Compiled high)
    (hname : Store.isName new.name) (hself : new.sameDefinition new) :
    match r.add high new with
    | .error e => (attempt high new).run s = (.failed e, s)
    | .ok r' => ∃ outcome after, (attempt high new).run s = (.settled outcome, after) ∧
        r'.outcomes = r.outcomes ++ [(new.name, outcome)] ∧ Mirrored high after r'.versions := by
  obtain ⟨vs, hvs, hselfs, hhistory, hperm⟩ := h.history new.name
  have hall : ∀ v ∈ vs ++ [new], v.sameDefinition v :=
    List.forall_mem_append.mpr ⟨hselfs, by simpa using hself⟩
  have hattempt {outcome : Outcome} {writes : List Version}
      (hplan : plan high new vs.getLast? = .ok (outcome, writes)) :=
    run_attempt_of_plan h.high_eq hhistory hvs hnew hname hselfs hplan
  have hsuccession {outcome : Outcome} {writes : List Version} (hne : writes ≠ [])
      (hplan : plan high new vs.getLast? = .ok (outcome, writes)) : Succession high new.name (vs ++ [new]) :=
    hvs.concat rfl hnew ((planned_of_plan hvs hnew hplan).changed_of_ne_nil hne).precedes
  cases hlast : vs.getLast? with
  | none =>
      have hplan := plan_none hnew
      rw [← hlast] at hplan
      obtain rfl : vs = [] := List.getLast?_eq_none_iff.mp hlast
      rw [Reconciliation.add_of_none hnew (not_isOpen_of_perm_nil hperm)]
      refine ⟨.inserted, _, hattempt hplan, rfl, ?_⟩
      rw [if_neg (by simp)]
      refine h.extend (hsuccession (by simp) hplan) hall ?_ fun name hne => ofName_concat_of_ne hne _
      change (ofName new.name (r.versions ++ [new])).Perm _
      rw [ofName_concat_self, List.perm_nil.mp hperm, List.nil_append, chain, hnew.closedAt_high]
  | some o =>
      have hmem := List.mem_of_getLast? hlast
      have hnamed := hvs.named o hmem
      have hopen := (hvs.compiled o hmem).isOpen
      obtain ⟨before, after, hversions, hbefore⟩ := exists_of_perm_chain hvs hperm hlast
      have hplan := plan_some hnew hopen hnamed
      rw [← hlast] at hplan
      rw [Reconciliation.add_of_some hnew hversions hbefore hnamed hopen]
      by_cases hsame : o.sameDefinition new
      · rw [if_pos hsame] at hplan ⊢
        refine ⟨.unchanged, s, ?_, rfl, h⟩
        rw [hattempt hplan, if_pos rfl]
      · rw [if_neg hsame] at hplan ⊢
        by_cases hlate : new.start.secondBefore < o.start
        · rw [if_pos hlate] at hplan ⊢
          refine run_attempt_of_error ?_
          rw [MemoryStore.openOf, hhistory, h.high_eq, open?_chain hvs]
          exact hplan
        · rw [if_neg hlate] at hplan ⊢
          refine ⟨.superseded new.start.secondBefore, _, hattempt hplan, rfl, ?_⟩
          rw [if_neg (by simp)]
          exact h.supersede hnew (hsuccession (by simp) hplan) hall hperm hlast hversions _

/-! ### A list of versions -/

theorem apply (settings : Settings) (vs : List Version) {r : Reconciliation}
    (h : Mirrored settings.high s r.versions)
    (hvs : ∀ v ∈ vs, v.Compiled settings.high ∧ Store.isName v.name ∧ v.sameDefinition v) :
    match vs.foldlM (Reconciliation.add settings.high) r with
    | .error e => ((Sync.apply settings vs).run s).1 = ([], .error e)
    | .ok r' => ∃ report after, (Sync.apply settings vs).run s = (([], .ok report), after) ∧
        r'.outcomes = r.outcomes ++ report ∧ Mirrored settings.high after r'.versions := by
  induction vs generalizing r s with
  | nil => exact ⟨[], s, rfl, by simp, h⟩
  | cons new rest ih =>
      obtain ⟨⟨hnew, hname, hself⟩, hrest⟩ := List.forall_mem_cons.mp hvs
      have hadd := h.add hnew hname hself
      rw [List.foldlM_cons]
      cases hr : r.add settings.high new with
      | error e =>
          rw [hr] at hadd
          have hsettle : (settle settings new 0 settings.retries).run s = _ := run_settle hadd (by simp)
          exact congrArg Prod.fst (run_apply_of_error hsettle)
      | ok next =>
          rw [hr] at hadd
          obtain ⟨outcome, store, hattempt, houtcomes, hnext⟩ := hadd
          have hsettle : (settle settings new 0 settings.retries).run s = _ :=
            run_settle hattempt (by simp)
          have hmore := ih hnext hrest
          change match rest.foldlM (Reconciliation.add settings.high) next with
            | .error e => _
            | .ok r' => _
          cases hfold : rest.foldlM (Reconciliation.add settings.high) next with
          | error e =>
              rw [hfold] at hmore
              have hstopped : (Sync.apply settings rest).run store =
                  (([], .error e), ((Sync.apply settings rest).run store).2) := Prod.ext hmore rfl
              rw [run_apply_of_settle hsettle hstopped]
              rfl
          | ok final =>
              rw [hfold] at hmore
              obtain ⟨report, after, happly, hreport, hafter⟩ := hmore
              refine ⟨(new.name, outcome) :: report, after, run_apply_of_settle hsettle happly, ?_, hafter⟩
              rw [hreport, houtcomes, List.append_assoc, List.singleton_append]

end Mirrored

/-! ### What is stored -/

-- All versions of all names.
def MemoryStore.versions (s : MemoryStore) : List Version :=
  (Fields.keys s.histories).flatMap s.history

theorem MemoryStore.ofName_versions {s : MemoryStore} (hkeys : (Fields.keys s.histories).Nodup)
    (hnamed : ∀ name, ∀ v ∈ s.history name, v.name = name) (name : String) :
    ofName name s.versions = s.history name := by
  have hone (keys : List String) (hkeys : keys.Nodup) :
      ofName name (keys.flatMap s.history) = if name ∈ keys then s.history name else [] := by
    induction keys with
    | nil => rfl
    | cons key rest ih =>
        obtain ⟨hnew, hrest⟩ := List.nodup_cons.mp hkeys
        rw [List.flatMap_cons, ofName, List.filter_append, ← ofName, ← ofName, ih hrest]
        by_cases hname : name = key
        · subst hname
          have hall : ofName name (s.history name) = s.history name := by
            simpa [ofName] using hnamed name
          simp [hall, hnew]
        · have hnone : ofName name (s.history key) = [] := by
            rw [ofName, List.filter_eq_nil_iff]
            intro v hv
            simpa [hnamed key v hv] using Ne.symm hname
          simp [hnone, hname]
  rw [versions, hone _ hkeys]
  split
  next => rfl
  next hnot => rw [history, Fields.lookup_eq_none_iff.mpr hnot, Option.getD_none]

namespace Sync

variable {ι : Type} {high : Instant} {log : List (Decision ι)} {s t : Sharing ι MemoryStore}

theorem Sound.named (hs : Sound high s log) (name : String) :
    ∀ v ∈ s.store.history name, v.name = name := by
  intro v hv
  rw [hs.history] at hv
  obtain ⟨w, hw, heq⟩ := exists_of_mem_chain hv
  rw [heq]
  exact (hs.succession name).named w hw

theorem Sound.mirrored (hs : Sound high s log) (hkeys : (Fields.keys s.store.histories).Nodup)
    {existing : List Version} (hexisting : existing.Perm s.store.versions)
    (hself : ∀ v ∈ existing, v.sameDefinition v) : Mirrored high s.store existing := by
  refine ⟨hs.high_eq, fun name => ⟨acknowledged name log, hs.succession name, ?_, hs.history name, ?_⟩⟩
  · intro v hv
    obtain ⟨stop, hstop⟩ := exists_mem_chain high hv
    rw [← hs.history, ← MemoryStore.ofName_versions hkeys hs.named] at hstop
    -- A body says the same whenever its version ends.
    have hclosed := hself (v.closedAt stop) (hexisting.mem_iff.mpr (mem_ofName.mp hstop).1)
    exact hclosed
  · rw [← hs.history, ← MemoryStore.ofName_versions hkeys hs.named]
    exact hexisting.filter _

theorem nodup_keys_of_step [DecidableEq ι] {ds : List (Decision ι)} (hs : Sound high s log)
    (hstep : Sharing.Step s ds t) (hkeys : (Fields.keys s.store.histories).Nodup) :
    (Fields.keys t.store.histories).Nodup := by
  cases hs.stepped hstep with
  | undecided => exact hkeys
  | kept => exact hkeys
  | @taken _ _ new => exact Fields.nodup_keys_put new.name _ hkeys

theorem nodup_keys_of_run [DecidableEq ι] {more : List (Decision ι)} (hs : Sound high s log)
    (hrun : Sharing.Run s more t) (hkeys : (Fields.keys s.store.histories).Nodup) :
    (Fields.keys t.store.histories).Nodup := by
  induction hrun with
  | refl => exact hkeys
  | step hrun hstep ih => exact nodup_keys_of_step (hs.run hrun) hstep ih

-- Without other writers, syncing name by name is reconciliation with all that is stored: it fails with the
-- same fault, or it gives the same outcomes, and each history has what the collection has of its name.
theorem apply_agrees_with_reconcile [DecidableEq ι] {retries backoff : ι → Nat}
    (hrun : Sharing.Run (.fresh high retries backoff) log s) (settings : Settings)
    (hhigh : settings.high = high) (vs existing : List Version)
    (hvs : ∀ v ∈ vs, v.Compiled high ∧ Store.isName v.name)
    (hexisting : existing.Perm s.store.versions)
    (hbodies : ∀ v ∈ vs ++ existing, v.body.keyed ∧ v.body.nanFree) :
    match reconcile high vs existing with
    | .error e => ((apply settings vs).run s.store).1 = ([], .error e)
    | .ok r => ∃ after, (apply settings vs).run s.store = (([], .ok r.outcomes), after) ∧
        ∀ name, (Store.findAll name : Storing MemoryStore History).run.run after =
          (.ok (sortByStart (ofName name r.versions)), after) := by
  subst hhigh
  have hsound := (sound_fresh settings.high retries backoff).run hrun
  have hkeys : (Fields.keys s.store.histories).Nodup :=
    nodup_keys_of_run (sound_fresh settings.high retries backoff) hrun List.nodup_nil
  have hself : ∀ v ∈ vs ++ existing, v.sameDefinition v := fun v hv =>
    Version.sameDefinition_refl (hbodies v hv).1 (hbodies v hv).2
  have hmirrored : Mirrored settings.high s.store (Reconciliation.start existing).versions :=
    hsound.mirrored hkeys hexisting fun v hv => hself v (List.mem_append_right vs hv)
  have happly := hmirrored.apply settings vs fun v hv =>
    ⟨(hvs v hv).1, (hvs v hv).2, hself v (List.mem_append_left existing hv)⟩
  rw [reconcile]
  cases hfold : vs.foldlM (Reconciliation.add settings.high) (Reconciliation.start existing) with
  | error e =>
      rw [hfold] at happly
      exact happly
  | ok r =>
      rw [hfold] at happly
      obtain ⟨report, after, hrun, hreport, hafter⟩ := happly
      obtain rfl : report = r.outcomes := hreport.symm
      exact ⟨after, hrun, hafter.findAll⟩

-- A version closes the one that is stored, a repetition of it is dropped, and another name is new.
theorem apply_agrees_with_reconcile_three_versions :
    let version (name : String) (second : Int) (body : Tree) : Version :=
      .ofBody name ⟨second, 0⟩ ⟨9, 0⟩ body
    let vs := [version "axis" 2 (.bool true), version "axis" 3 (.bool true), version "rate" 2 .null]
    ∃ (s : Sharing Unit MemoryStore) (after : MemoryStore),
      Sharing.Run (.fresh ⟨9, 0⟩ (fun _ => 0) (fun _ => 0)) [⟨(), version "axis" 1 .null, .ok .inserted⟩] s ∧
      (apply ⟨⟨9, 0⟩, 0, 0⟩ vs).run s.store =
        (([], .ok [("axis", .superseded ⟨1, 0⟩), ("axis", .unchanged), ("rate", .inserted)]), after) ∧
      (Store.findAll "axis" : Storing MemoryStore History).run.run after =
        (.ok [(version "axis" 1 .null).closedAt ⟨1, 0⟩, version "axis" 2 (.bool true)], after) := by
  intro version vs
  have hfirst : (version "axis" 1 .null).Compiled ⟨9, 0⟩ := ⟨rfl, rfl, .inl (by decide)⟩
  have hinsert := run_attempt_of_plan (s := .empty ⟨9, 0⟩) rfl rfl .nil hfirst (by decide) (by simp)
    (plan_none hfirst)
  rw [if_neg (by simp), List.nil_append] at hinsert
  let settings : Settings := ⟨⟨9, 0⟩, 0, 0⟩
  let begun : Sharing Unit MemoryStore :=
    (Sharing.fresh ⟨9, 0⟩ (fun _ => 0) (fun _ => 0)).advance () ⟨settings, [version "axis" 1 .null], 0, none⟩
      (.empty ⟨9, 0⟩)
  have hbegun : Sharing.Run (.fresh ⟨9, 0⟩ (fun _ => 0) (fun _ => 0)) [] begun :=
    .single (.start () _ rfl (List.forall_mem_singleton.mpr hfirst))
  have hsettle : (settle settings (version "axis" 1 .null) 0 0).run begun.store = _ :=
    run_settle hinsert (by simp)
  have hrun := hbegun.trans (Sharing.run_of_settle 0 (begun.advance_clients_self () _ _) rfl hsettle)
  have hvs : ∀ v ∈ vs, v.Compiled ⟨9, 0⟩ ∧ Store.isName v.name := by
    have hwhole (name : String) (second : Int) (body : Tree) (hbefore : second < 9) :
        (version name second body).Compiled ⟨9, 0⟩ := ⟨rfl, rfl, .inl hbefore⟩
    simpa [vs] using ⟨⟨hwhole _ _ _ (by decide), by decide⟩, ⟨hwhole _ _ _ (by decide), by decide⟩,
      hwhole _ _ _ (by decide), by decide⟩
  have hagrees := apply_agrees_with_reconcile hrun settings rfl vs [version "axis" 1 .null] hvs
    (.refl _) (by decide)
  obtain ⟨after, happly, hhistory⟩ := hagrees
  have hsorted : sortByStart [(version "axis" 1 .null).closedAt ⟨1, 0⟩, version "axis" 2 (.bool true)] =
      [(version "axis" 1 .null).closedAt ⟨1, 0⟩, version "axis" 2 (.bool true)] :=
    sortByStart_of_ascending (by decide)
  refine ⟨_, after, hrun, happly, (hhistory "axis").trans ?_⟩
  exact congrArg (fun h => (Except.ok h, after)) hsorted

end Sync
end ScraperTimeline
