import ScraperTimeline.Proofs.Timeline.Interleaving

namespace ScraperTimeline.Sync

variable {ι : Type} {high : Instant} {log : List (Decision ι)}

-- The retries were used up by other writers.
def Decision.givenUp (d : Decision ι) : Bool :=
  match d.result with
  | .error (.concurrentModification _) => true
  | _ => false

-- The versions of decisions, one by one, each settled before the next one is read for.
def replay (settings : ι → Settings) (ds : List (Decision ι)) :
    StateM MemoryStore (List (Except Fault Outcome)) :=
  ds.mapM fun d => return (← settle (settings d.client) d.version 0 (settings d.client).retries).2

-- The decisions that count.
def decided (ds : List (Decision ι)) : List (Decision ι) := ds.filter (!·.givenUp)

theorem decided_append (past more : List (Decision ι)) :
    decided (past ++ more) = decided past ++ decided more :=
  List.filter_append ..

section
variable {settings : ι → Settings} {s t : Sharing ι MemoryStore} {ds : List (Decision ι)}

theorem run_replay_append (past more : List (Decision ι)) (store : MemoryStore) :
    (replay settings (past ++ more)).run store =
      (((replay settings past).run store).1 ++
        ((replay settings more).run ((replay settings past).run store).2).1,
        ((replay settings more).run ((replay settings past).run store).2).2) := by
  rw [replay, List.mapM_append]
  rfl

theorem run_replay_of_attempt (hhigh : ∀ i, (settings i).high = high) (i : ι) {new : Version}
    {a : Attempt} {store after : MemoryStore} (ha : (attempt high new).run store = (a, after))
    (hlost : ∀ e, a ≠ .lost e) :
    (replay settings [⟨i, new, a.result⟩]).run store = ([a.result], after) := by
  rw [← hhigh i] at ha
  have hsettle : (settle (settings i) new 0 (settings i).retries).run store = _ := run_settle ha hlost
  rw [replay, List.mapM_cons, List.mapM_nil]
  simp only [StateT.run_bind, hsettle]
  rfl

-- A call that decides does to the store what settling the version alone would do at that moment,
-- and every other call leaves it as it is.
theorem run_replay_of_step [DecidableEq ι] (hhigh : ∀ i, (settings i).high = high)
    (hs : Sound high s log) (hstep : Sharing.Step s ds t) :
    (replay settings (decided ds)).run s.store = ((decided ds).map (·.result), t.store) := by
  cases hs.stepped hstep with
  | undecided _ hlost =>
      have hnone : decided ds = [] :=
        List.filter_eq_nil_iff.mpr fun d hd => by simp [Decision.givenUp, hlost d hd]
      rw [hnone]
      rfl
  | @kept i _ new a _ hattempt hkept =>
      have hlost : ∀ e, a ≠ .lost e := by
        rcases hkept with rfl | ⟨e, rfl⟩ <;> simp
      by_cases hup : Decision.givenUp ⟨i, new, a.result⟩
      · simp only [decided, List.filter_cons, hup]
        rfl
      · simp only [decided, List.filter_cons, hup]
        exact run_replay_of_attempt hhigh i hattempt hlost
  | taken _ _ _ _ hattempt => exact run_replay_of_attempt hhigh _ hattempt (by simp)

variable (settings) in
theorem run_replay_of_run [DecidableEq ι] (hhigh : ∀ i, (settings i).high = high)
    (hs : Sound high s log) (hrun : Sharing.Run s ds t) :
    (replay settings (decided ds)).run s.store = ((decided ds).map (·.result), t.store) := by
  induction hrun with
  | refl => rfl
  | step hrun hstep ih =>
      have hlast := run_replay_of_step hhigh (hs.run hrun) hstep
      rw [decided_append, run_replay_append, ih, hlast, List.map_append]

end

-- Syncs that share a store do what they would do one after the other, in the order of the calls that
-- decided. Those that were given up do nothing.
theorem shared_syncs_linearizable [DecidableEq ι] {retries backoff : ι → Nat} {s : Sharing ι MemoryStore}
    (hrun : Sharing.Run (.fresh high retries backoff) log s) :
    (replay (fun i => ⟨high, retries i, backoff i⟩) (decided log)).run (.empty high) =
      ((decided log).map (·.result), s.store) :=
  run_replay_of_run (fun i => ⟨high, retries i, backoff i⟩) (fun _ => rfl) (sound_fresh high retries backoff) hrun

-- A race ends as if the one that lost had come second.
theorem shared_syncs_linearizable_race :
    let version (second : Int) (body : Tree) : Version := .ofBody "axis" ⟨second, 0⟩ ⟨9, 0⟩ body
    ∃ t : Sharing Bool MemoryStore,
      t.store.history "axis" = [(version 1 .null).closedAt ⟨1, 0⟩, version 2 (.bool true)] ∧
      (replay (fun _ => ⟨⟨9, 0⟩, 1, 0⟩) [⟨false, version 1 .null, .ok .inserted⟩,
          ⟨true, version 2 (.bool true), .ok (.superseded ⟨1, 0⟩)⟩]).run (.empty ⟨9, 0⟩) =
        ([.ok .inserted, .ok (.superseded ⟨1, 0⟩)], t.store) := by
  intro version
  obtain ⟨s, t, hpast, hmore, -, ht⟩ := exists_race
  exact ⟨t, ht, shared_syncs_linearizable (hpast.trans hmore)⟩

end ScraperTimeline.Sync
