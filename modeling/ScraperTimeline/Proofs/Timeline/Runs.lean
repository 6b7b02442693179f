import ScraperTimeline.Proofs.Normal.NormalForm
import ScraperTimeline.Proofs.Timeline.Changes
import ScraperTimeline.Timeline.Compile

namespace ScraperTimeline

open History

-- What one run brings in: open versions of distinct names, all from the start of the run.
structure Batch (high run : Instant) (vs : List Version) : Prop where
  start_eq : ∀ v ∈ vs, v.start = run
  stop_eq : ∀ v ∈ vs, v.stop = high
  storable : ∀ v ∈ vs, Store.isName v.name
  keyed : ∀ v ∈ vs, v.body.keyed
  nanFree : ∀ v ∈ vs, v.body.nanFree
  distinct : vs.Pairwise fun v w => v.name ≠ w.name

-- Versions that can come in one after the other, whatever their names.
structure Feed (high : Instant) (vs : List Version) : Prop where
  compiled : ∀ v ∈ vs, v.Compiled high
  storable : ∀ v ∈ vs, Store.isName v.name
  keyed : ∀ v ∈ vs, v.body.keyed
  nanFree : ∀ v ∈ vs, v.body.nanFree
  ordered : vs.Pairwise fun v w => v.name = w.name → v.Precedes w

def ofName (name : String) (vs : List Version) : List Version := vs.filter (·.name = name)

variable {high : Instant} {vs : List Version} {new : Version}

theorem mem_ofName {name : String} {v : Version} : v ∈ ofName name vs ↔ v ∈ vs ∧ v.name = name := by
  simp [ofName]

theorem ofName_concat_self (vs : List Version) (new : Version) :
    ofName new.name (vs ++ [new]) = ofName new.name vs ++ [new] := by
  simp [ofName]

theorem ofName_concat_of_ne {name : String} (h : name ≠ new.name) (vs : List Version) :
    ofName name (vs ++ [new]) = ofName name vs := by
  simp [ofName, h.symm]

namespace Feed

theorem of_append_left {more : List Version} (h : Feed high (vs ++ more)) : Feed high vs :=
  ⟨fun v hv => h.compiled v (by simp [hv]), fun v hv => h.storable v (by simp [hv]),
    fun v hv => h.keyed v (by simp [hv]), fun v hv => h.nanFree v (by simp [hv]),
    (List.pairwise_append.mp h.ordered).1⟩

theorem succession (h : Feed high vs) (name : String) : Succession high name (ofName name vs) := by
  refine ⟨?_, ?_, ?_⟩
  · intro v hv
    exact (mem_ofName.mp hv).2
  · intro v hv
    exact h.compiled v (mem_ofName.mp hv).1
  · have hsub : (ofName name vs).Pairwise fun v w => v.name = w.name → v.Precedes w :=
      h.ordered.sublist List.filter_sublist
    refine hsub.imp_of_mem ?_
    intro v w hv hw hprec
    rw [mem_ofName] at hv hw
    exact hprec (hv.2.trans hw.2.symm)

end Feed

-- Every history has the changes among what came in so far.
structure Recorded (high : Instant) (s : MemoryStore) (seen : List Version) : Prop where
  high_eq : s.high = high
  history : ∀ name, s.history name = chain high (changes (ofName name seen))

namespace Recorded

open Sync

variable {settings : Settings} {seen : List Version} {s : MemoryStore}

theorem concat_of_repeats (hs : Recorded high s seen) (hsame : repeats (ofName new.name seen) new) :
    Recorded high s (seen ++ [new]) := by
  refine ⟨hs.high_eq, fun name => ?_⟩
  rw [hs.history]
  by_cases hname : name = new.name
  · rw [hname, ofName_concat_self, changes_concat, if_pos hsame]
  · rw [ofName_concat_of_ne hname]

theorem concat_of_not_repeats (hs : Recorded high s seen)
    (hsame : ¬repeats (ofName new.name seen) new) :
    Recorded high
      (s.setHistory new.name (chain high (changes (ofName new.name seen) ++ [new]))) (seen ++ [new]) := by
  refine ⟨hs.high_eq, fun name => ?_⟩
  by_cases hname : name = new.name
  · rw [hname, MemoryStore.history_setHistory_self, ofName_concat_self, changes_concat, if_neg hsame]
  · rw [MemoryStore.history_setHistory_of_ne hname, hs.history, ofName_concat_of_ne hname]

-- A version that comes in without other writers is either a repetition or a change.
theorem settle (hs : Recorded settings.high s seen) (hfeed : Feed settings.high (seen ++ [new]))
    (left : Nat) :
    ∃ outcome after, (settle settings new 0 left).run s = (([], .ok outcome), after) ∧
      Recorded settings.high after (seen ++ [new]) := by
  have hsuccession := hfeed.succession new.name
  rw [ofName_concat_self] at hsuccession
  have hsub := changes_sublist (ofName new.name seen)
  have hkeyed : ∀ v ∈ ofName new.name seen, v.body.keyed := fun v hv =>
    hfeed.keyed v (List.mem_append_left _ (mem_ofName.mp hv).1)
  have hself : ∀ v ∈ changes (ofName new.name seen), v.sameDefinition v := by
    intro v hv
    have hv := hsub.subset hv
    exact Version.sameDefinition_refl (hkeyed v hv)
      (hfeed.nanFree v (List.mem_append_left _ (mem_ofName.mp hv).1))
  have hchanges : Succession settings.high new.name (changes (ofName new.name seen) ++ [new]) :=
    hsuccession.sublist (hsub.append_right [new])
  obtain ⟨outcome, writes, hplan, hwrites⟩ := exists_plan hchanges
  rw [repeats_changes hkeyed] at hwrites
  have hattempt := run_attempt_of_plan hs.high_eq (hs.history new.name)
    (hsuccession.sublist (hsub.trans (List.sublist_append_left _ _)))
    (hfeed.compiled new (by simp)) (hfeed.storable new (by simp)) hself hplan
  refine ⟨outcome, _, run_settle hattempt (by simp), ?_⟩
  by_cases hsame : repeats (ofName new.name seen) new
  · rw [if_pos (hwrites.mpr hsame)]
    exact hs.concat_of_repeats hsame
  · rw [if_neg (mt hwrites.mp hsame)]
    exact hs.concat_of_not_repeats hsame

theorem apply (hs : Recorded settings.high s seen) (hfeed : Feed settings.high (seen ++ vs)) :
    ∃ report after, (apply settings vs).run s = (([], .ok report), after) ∧
      Recorded settings.high after (seen ++ vs) := by
  induction vs generalizing seen s with
  | nil =>
      rw [List.append_nil]
      exact ⟨[], s, rfl, hs⟩
  | cons new rest ih =>
      rw [List.append_cons] at hfeed ⊢
      obtain ⟨outcome, store, hsettle, hstore⟩ := hs.settle hfeed.of_append_left settings.retries
      obtain ⟨report, after, happly, hafter⟩ := ih hstore hfeed
      exact ⟨(new.name, outcome) :: report, after, run_apply_of_settle hsettle happly, hafter⟩

end Recorded

namespace Sync

section
variable {σ : Type} [Store σ]

-- Runs one after the other, each with what it brings in.
def applyRuns (settings : Settings) (batches : List (List Version)) : StateM σ (List (Except Fault Report)) :=
  batches.mapM fun vs => return (← apply settings vs).2

end

variable {settings : Settings}

theorem run_applyRuns (batches : List (List Version)) {s : MemoryStore} {seen : List Version}
    (hs : Recorded settings.high s seen) (hfeed : Feed settings.high (seen ++ batches.flatten)) :
    ∃ reports after, (applyRuns settings batches).run s = (List.map .ok reports, after) ∧
      reports.length = batches.length ∧ Recorded settings.high after (seen ++ batches.flatten) := by
  induction batches generalizing s seen with
  | nil =>
      refine ⟨[], s, rfl, rfl, ?_⟩
      simpa using hs
  | cons vs rest ih =>
      rw [List.flatten_cons, ← List.append_assoc] at hfeed ⊢
      obtain ⟨report, store, happly, hstore⟩ := hs.apply hfeed.of_append_left
      obtain ⟨reports, after, hrest, hlen, hafter⟩ := ih hstore hfeed
      refine ⟨report :: reports, after, ?_, by simp [hlen], hafter⟩
      rw [applyRuns] at hrest ⊢
      simp only [List.mapM_cons, StateT.run_bind, happly]
      change StateT.run (do
        let results ← rest.mapM fun vs => return (← Sync.apply settings vs).2
        return .ok report :: results) store = _
      simp only [StateT.run_bind, hrest]
      rfl

end Sync

theorem feed_of_batches {runs : List (Instant × List Version)}
    (hruns : (runs.map (·.1)).Pairwise (· < ·)) (hwhole : ∀ run ∈ runs, run.1.isWhole ∧ run.1 < high)
    (hbatches : ∀ run ∈ runs, Batch high run.1 run.2) : Feed high (runs.map (·.2)).flatten := by
  have hmem : ∀ v ∈ (runs.map (·.2)).flatten, ∃ run ∈ runs, v ∈ run.2 := by
    intro v hv
    obtain ⟨vs, hvs, hv⟩ := List.mem_flatten.mp hv
    obtain ⟨run, hrun, rfl⟩ := List.mem_map.mp hvs
    exact ⟨run, hrun, hv⟩
  have hcompiled : ∀ run ∈ runs, ∀ v ∈ run.2, v.Compiled high := by
    intro run hrun v hv
    have hstart := (hbatches run hrun).start_eq v hv
    refine ⟨(hbatches run hrun).stop_eq v hv, ?_, ?_⟩
    · rw [hstart]
      exact (hwhole run hrun).1
    · rw [hstart]
      exact (hwhole run hrun).2
  refine ⟨?_, ?_, ?_, ?_, ?_⟩
  · intro v hv
    obtain ⟨run, hrun, hv⟩ := hmem v hv
    exact hcompiled run hrun v hv
  · intro v hv
    obtain ⟨run, hrun, hv⟩ := hmem v hv
    exact (hbatches run hrun).storable v hv
  · intro v hv
    obtain ⟨run, hrun, hv⟩ := hmem v hv
    exact (hbatches run hrun).keyed v hv
  · intro v hv
    obtain ⟨run, hrun, hv⟩ := hmem v hv
    exact (hbatches run hrun).nanFree v hv
  · rw [List.pairwise_flatten, List.pairwise_map]
    constructor
    · intro vs hvs
      obtain ⟨run, hrun, rfl⟩ := List.mem_map.mp hvs
      exact (hbatches run hrun).distinct.imp fun hne he => absurd he hne
    · rw [List.pairwise_map] at hruns
      refine hruns.imp_of_mem ?_
      intro run later hrun hlater hlt v hv w hw hname
      apply (hcompiled run hrun v hv).precedes_of_lt (hcompiled later hlater w hw)
      rw [(hbatches run hrun).start_eq v hv, (hbatches later hlater).start_eq w hw]
      exact hlt

-- Definitions are fields of a mapping inside the tree.
theorem definitions_eq (effective : Tree) :
    Timeline.definitions effective = [] ∨ ∃ fields, effective = .map fields ∧
      ("dataDefs", .map (Timeline.definitions effective)) ∈ fields := by
  cases effective with
  | map fields =>
      cases hfind : fields.lookup "dataDefs" with
      | none => exact .inl (by simp [Timeline.definitions, Tree.field?, hfind])
      | some t =>
          cases t with
          | map defs =>
              have hdefs : Timeline.definitions (.map fields) = defs := by
                simp [Timeline.definitions, Tree.field?, Tree.fields?, hfind]
              rw [hdefs]
              exact .inr ⟨fields, rfl, Fields.mem_of_lookup hfind⟩
          | _ => exact .inl (by simp [Timeline.definitions, Tree.field?, Tree.fields?, hfind])
  | _ => exact .inl rfl

theorem keyed_definitions {effective : Tree} (h : effective.keyed) :
    (Fields.keys (Timeline.definitions effective)).Nodup ∧
      ∀ field ∈ Timeline.definitions effective, field.2.keyed := by
  rcases definitions_eq effective with hnil | ⟨fields, rfl, hmem⟩
  · simp [hnil, Fields.keys]
  · exact Tree.keyed_map_iff.mp ((Tree.keyed_map_iff.mp h).2 _ hmem)

theorem nanFree_of_mem_definitions {effective : Tree} (h : effective.nanFree) :
    ∀ field ∈ Timeline.definitions effective, field.2.nanFree := by
  rcases definitions_eq effective with hnil | ⟨fields, rfl, hmem⟩
  · simp [hnil]
  · exact Tree.nanFree_map_iff.mp (Tree.nanFree_map_iff.mp h _ hmem)

theorem isDefinitions_definitions {done : List Normal.Pass} {effective : Tree}
    (h : Normal.IsDefs done effective) : Normal.IsDefinitions done (.map (Timeline.definitions effective)) := by
  rcases definitions_eq effective with hnil | ⟨fields, rfl, hmem⟩
  · rw [hnil]
    exact ⟨nofun, nofun⟩
  · exact h.isDefinitions hmem

-- A definition is two levels below the whole tree.
theorem depth_of_mem_definitions {effective : Tree} {n : Nat} (h : effective.depth ≤ n + 2) :
    ∀ field ∈ Timeline.definitions effective, field.2.depth ≤ n := by
  rcases definitions_eq effective with hnil | ⟨fields, rfl, hmem⟩
  · simp [hnil]
  · exact Tree.depth_map_le_iff.mp (Tree.depth_map_le_iff.mp h _ hmem)

-- What a run compiles is a batch when the names can be stored and nothing in the tree is a NaN.
theorem batch_of_compile {run : Instant} {effective : Tree}
    (hcompile : Timeline.compile high run effective = .ok vs) (hwhole : run.isWhole)
    (hkeyed : effective.keyed) (hnan : effective.nanFree)
    (hnames : ∀ name ∈ Fields.keys (Timeline.definitions effective), Store.isName name) :
    Batch high run vs := by
  have hstart : run.wholeSecond = run := Instant.wholeSecond_of_isWhole hwhole
  obtain ⟨hkeys, hbodies⟩ := keyed_definitions hkeyed
  have hbodiesNan := nanFree_of_mem_definitions hnan
  simp only [Timeline.compile, hstart] at hcompile
  split at hcompile
  · cases hcompile
    refine ⟨?_, ?_, ?_, ?_, ?_, ?_⟩
    · intro v hv
      obtain ⟨field, -, rfl⟩ := List.mem_map.mp hv
      rfl
    · intro v hv
      obtain ⟨field, -, rfl⟩ := List.mem_map.mp hv
      rfl
    · intro v hv
      obtain ⟨field, hfield, rfl⟩ := List.mem_map.mp hv
      exact hnames field.1 (Fields.mem_keys hfield)
    · intro v hv
      obtain ⟨field, hfield, rfl⟩ := List.mem_map.mp hv
      exact hbodies field hfield
    · intro v hv
      obtain ⟨field, hfield, rfl⟩ := List.mem_map.mp hv
      exact hbodiesNan field hfield
    · rw [List.pairwise_map]
      exact List.pairwise_map.mp hkeys
  · cases hcompile

/-! ### Other names -/

namespace Sync

variable {settings : Settings} {name : String}

theorem history_run_attempt_of_ne (high : Instant) (hne : new.name ≠ name) (s : MemoryStore) :
    ((attempt high new).run s).2.history name = s.history name := by
  have hread := run_consult high new s
  cases hfound : Finding.ofPlan (s.openOf new.name) (plan high new (s.openOf new.name)) with
  | ended a =>
      rw [hfound] at hread
      rw [run_attempt_ended hread]
  | swap p =>
      rw [hfound] at hread
      rw [run_attempt_swap hread]
      exact MemoryStore.history_run_swap_of_ne hne.symm p.seen p.writes s

theorem history_of_settles {made left : Nat} {s after : MemoryStore} {waits : List Wait}
    {result : Except Fault Outcome} (hsettles : Settles settings new made left s waits result after)
    (hne : new.name ≠ name) : after.history name = s.history name := by
  induction hsettles with
  | @last s _ _ _ _ ha =>
      have hattempt := history_run_attempt_of_ne settings.high hne s
      rwa [ha] at hattempt
  | @lost s _ _ _ _ _ _ _ ha _ ih =>
      have hattempt := history_run_attempt_of_ne settings.high hne s
      rw [ha] at hattempt
      exact ih.trans hattempt

-- Versions of other names leave a history as it is, whatever becomes of them.
theorem history_of_applies {s after : MemoryStore} {waits : List Wait} {result : Except Fault Report}
    (happlies : Applies settings s vs waits result after) (hne : ∀ v ∈ vs, v.name ≠ name) :
    after.history name = s.history name := by
  induction happlies with
  | nil => rfl
  | failed hsettle => exact history_of_settles (settles_iff.mpr hsettle) (hne _ List.mem_cons_self)
  | settled hsettle _ ih =>
      obtain ⟨hnew, hrest⟩ := List.forall_mem_cons.mp hne
      exact (ih hrest).trans (history_of_settles (settles_iff.mpr hsettle) hnew)

-- Runs without other writers all go well and leave in each history the changes of its name, in
-- order. What does not name a history changes nothing of it.
theorem stored_history_is_changes (settings : Settings) (runs : List (Instant × List Version))
    (hruns : (runs.map (·.1)).Pairwise (· < ·))
    (hwhole : ∀ run ∈ runs, run.1.isWhole ∧ run.1 < settings.high)
    (hbatches : ∀ run ∈ runs, Batch settings.high run.1 run.2) :
    ∃ reports after,
      (applyRuns settings (runs.map (·.2))).run (MemoryStore.empty settings.high) =
        (List.map .ok reports, after) ∧
      reports.length = runs.length ∧
      (∀ name, (Store.findAll name : Storing MemoryStore History).run.run after =
        (.ok (chain settings.high (changes (ofName name (runs.map (·.2)).flatten))), after)) ∧
      ∀ name, ∀ vs : List Version, (∀ v ∈ vs, v.name ≠ name) →
        ((apply settings vs).run after).2.history name = after.history name := by
  have hfeed : Feed settings.high ([] ++ (runs.map (·.2)).flatten) :=
    feed_of_batches hruns hwhole hbatches
  have hempty : Recorded settings.high (.empty settings.high) [] := ⟨rfl, fun _ => rfl⟩
  obtain ⟨reports, after, hrun, hlen, hafter⟩ := run_applyRuns (runs.map (·.2)) hempty hfeed
  refine ⟨reports, after, hrun, by simpa using hlen, ?_, ?_⟩
  · intro name
    have hhistory := hafter.history name
    rw [List.nil_append] at hhistory
    rw [← hhistory]
    rfl
  · intro name vs hne
    exact history_of_applies (applies_iff.mpr rfl) hne

-- A repetition is dropped, and a change closes what was there.
theorem stored_history_is_changes_three_runs :
    let version (second : Int) (body : Tree) : Version := .ofBody "axis" ⟨second, 0⟩ ⟨9, 0⟩ body
    let runs : List (Instant × List Version) :=
      [(⟨1, 0⟩, [version 1 (.bool true)]), (⟨2, 0⟩, [version 2 (.bool true)]), (⟨3, 0⟩, [version 3 .null])]
    ∃ reports after,
      (applyRuns ⟨⟨9, 0⟩, 0, 0⟩ (runs.map (·.2))).run (MemoryStore.empty ⟨9, 0⟩) =
        (List.map .ok reports, after) ∧
      (Store.findAll "axis" : Storing MemoryStore History).run.run after =
        (.ok [(version 1 (.bool true)).closedAt ⟨2, 0⟩, version 3 .null], after) := by
  intro version runs
  have hbatch : ∀ run ∈ runs, Batch ⟨9, 0⟩ run.1 run.2 := by
    intro run hrun
    simp only [runs, List.mem_cons, List.not_mem_nil, or_false] at hrun
    rcases hrun with rfl | rfl | rfl <;>
      exact ⟨by decide, by decide, by decide, by decide, by decide, by simp⟩
  obtain ⟨reports, after, hrun, -, hhistory, -⟩ :=
    stored_history_is_changes ⟨⟨9, 0⟩, 0, 0⟩ runs (by decide) (by decide) hbatch
  exact ⟨reports, after, hrun, hhistory "axis"⟩

end Sync
end ScraperTimeline
