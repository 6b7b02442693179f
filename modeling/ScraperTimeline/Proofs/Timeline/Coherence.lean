import ScraperTimeline.Proofs.Timeline.Interleaving

namespace ScraperTimeline.Sync

open History Sharing

variable {ι : Type} [DecidableEq ι] {high : Instant} {retries backoff : ι → Nat}
  {s t : Sharing ι MemoryStore} {past more : List (Decision ι)}

-- Clients that share a store leave every history without gaps and overlaps. Each version that was
-- acknowledged stays in it once, and from one state to a later one an end moves only from the high
-- date to a date before it.
theorem shared_histories_coherent (hpast : Run (fresh high retries backoff) past s)
    (hmore : Run s more t) (name : String) :
    (t.store.history name).Contiguous high ∧
      (∀ v ∈ acknowledged name (past ++ more), ∃ stop, (t.store.history name).Keeps v stop) ∧
      ∀ w ∈ s.store.history name, ∃ stop, (t.store.history name).Keeps w stop ∧
        (stop = w.stop ∨ w.stop = high ∧ stop < high) := by
  have hs := (sound_fresh high retries backoff).run hpast
  have ht := hs.run hmore
  rw [List.nil_append] at hs ht
  have hsuccession := ht.succession name
  have hcontiguous := chain_contiguous hsuccession
  rw [hs.history, ht.history]
  refine ⟨hcontiguous, ?_, ?_⟩
  · intro v hv
    obtain ⟨stop, hstop⟩ := exists_mem_chain high hv
    exact ⟨stop, filter_start_of_mem hcontiguous.ascending hstop⟩
  · intro w hw
    rw [acknowledged_append] at hsuccession hcontiguous ⊢
    obtain ⟨stop, hstop, hmoved⟩ := exists_mem_chain_append hsuccession hw
    exact ⟨stop, filter_start_of_mem hcontiguous.ascending hstop, hmoved⟩

-- After a race the version that came first is kept, closed, and the other one is open.
theorem shared_histories_coherent_race :
    let version (second : Int) (body : Tree) : Version := .ofBody "axis" ⟨second, 0⟩ ⟨9, 0⟩ body
    ∃ s t : Sharing Bool MemoryStore,
      s.store.history "axis" = [version 1 .null] ∧
      t.store.history "axis" = [(version 1 .null).closedAt ⟨1, 0⟩, version 2 (.bool true)] ∧
      (t.store.history "axis").Contiguous ⟨9, 0⟩ ∧
      (∃ stop, (t.store.history "axis").Keeps (version 2 (.bool true)) stop) ∧
      ∃ stop, (t.store.history "axis").Keeps (version 1 .null) stop ∧
        (stop = ⟨9, 0⟩ ∨ (⟨9, 0⟩ : Instant) = ⟨9, 0⟩ ∧ stop < ⟨9, 0⟩) := by
  intro version
  obtain ⟨s, t, hpast, hmore, hs, ht⟩ := exists_race
  obtain ⟨hcontiguous, hkept, hmoved⟩ := shared_histories_coherent hpast hmore "axis"
  refine ⟨s, t, hs, ht, hcontiguous, hkept _ ?_, hmoved _ ?_⟩
  · simp [acknowledged, Decision.isChange, Outcome.isChange, Version.ofBody, version]
  · rw [hs]
    exact List.mem_singleton_self _

end ScraperTimeline.Sync
