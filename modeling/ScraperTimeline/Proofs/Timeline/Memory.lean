import ScraperTimeline.Proofs.Effect
import ScraperTimeline.Proofs.Timeline.Sync
import ScraperTimeline.Timeline.MemoryStore
import ScraperTimeline.Tree.Fields

namespace ScraperTimeline

namespace MemoryStore

variable {name : String}

def openOf (name : String) (s : MemoryStore) : Option Version := (s.history name).open? s.high

@[simp] theorem history_empty (high : Instant) (name : String) : (empty high).history name = [] := rfl

@[simp] theorem high_setHistory (name : String) (h : History) (s : MemoryStore) :
    (s.setHistory name h).high = s.high := rfl

@[simp] theorem history_setHistory_self (name : String) (h : History) (s : MemoryStore) :
    (s.setHistory name h).history name = h := by
  simp [setHistory, history]

theorem history_setHistory_of_ne {other : String} (hne : other ≠ name) (h : History) (s : MemoryStore) :
    (s.setHistory name h).history other = s.history other := by
  simp [setHistory, history, Fields.lookup_put_of_ne hne]

theorem run_put {v : Version} (hname : Store.isName v.name) (s : MemoryStore) :
    (Store.put v : Storing MemoryStore Unit).run.run s =
      (.ok (), s.setHistory v.name ((s.history v.name).put v)) := by
  change (put v).run.run s = _
  rw [put, run_bind_of_ok (run_lift_of_ok (Store.checkName_of_isName hname) s)]
  rfl

-- A swap as one step: what it answers, and the store after it.
theorem run_swap {writes : List Version} (hname : Store.isName name)
    (hnamed : ∀ w ∈ writes, w.name = name) (seen : Option Version) (s : MemoryStore) :
    (Store.swap name seen writes : Storing MemoryStore Unit).run.run s =
      pure (if Store.stillMatches (s.openOf name) seen then
          (.ok (), s.setHistory name (writes.foldl (fun h v => h.put v) (s.history name)))
        else (.error (.concurrentModification name), s)) := by
  simp only [Store.swap, swap, Store.checkName_of_isName hname, Store.checkWrites_of_forall hnamed]
  change StateT.run (ExceptT.run (do
    let h ← (liftM (Store.swapped s.high name seen writes (s.history name)) :
      Storing MemoryStore History)
    set (s.setHistory name h))) s = _
  by_cases hmatch : Store.stillMatches (s.openOf name) seen
  · rw [if_pos hmatch, Store.swapped, ← openOf, if_pos hmatch]
    rfl
  · rw [if_neg hmatch, Store.swapped, ← openOf, if_neg hmatch]
    rfl

theorem run_swap_of_not_isName (hname : Store.isName name = false) (seen : Option Version)
    (writes : List Version) (s : MemoryStore) :
    (Store.swap name seen writes : Storing MemoryStore Unit).run.run s =
      pure (.error (.storeFailed ("invalid data def name '" ++ name ++ "'")), s) := by
  have hcheck : Store.checkName name =
      .error (.storeFailed ("invalid data def name '" ++ name ++ "'")) := by
    simp [Store.checkName, hname]
  simp only [Store.swap, swap, hcheck]
  rfl

theorem run_swap_of_stray {writes : List Version} (hname : Store.isName name)
    (hstray : ¬∀ w ∈ writes, w.name = name) (seen : Option Version) (s : MemoryStore) :
    ∃ e, (Store.swap name seen writes : Storing MemoryStore Unit).run.run s = pure (.error e, s) := by
  cases hfind : writes.find? (·.name ≠ name) with
  | none => exact absurd (by simpa using hfind) hstray
  | some stray =>
      simp only [Store.swap, swap, Store.checkName_of_isName hname, Store.checkWrites, hfind]
      exact ⟨_, rfl⟩

-- A swap touches no other name.
theorem history_run_swap_of_ne {other : String} (hne : other ≠ name) (seen : Option Version)
    (writes : List Version) (s : MemoryStore) :
    ((Store.swap name seen writes : Storing MemoryStore Unit).run.run s).2.history other =
      s.history other := by
  cases hname : Store.isName name with
  | false =>
      rw [run_swap_of_not_isName hname]
      rfl
  | true =>
      by_cases hnamed : ∀ w ∈ writes, w.name = name
      · rw [run_swap hname hnamed]
        by_cases hmatch : Store.stillMatches (s.openOf name) seen
        · rw [if_pos hmatch]
          exact history_setHistory_of_ne hne _ s
        · rw [if_neg hmatch]
          rfl
      · obtain ⟨e, hswap⟩ := run_swap_of_stray hname hnamed seen s
        rw [hswap]
        rfl

end MemoryStore

namespace Sync

variable {high : Instant} {new : Version}

theorem run_consult (high : Instant) (new : Version) (s : MemoryStore) :
    (consult high new).run s =
      (Finding.ofPlan (s.openOf new.name) (plan high new (s.openOf new.name)), s) :=
  run_consult_of_read rfl

variable {p : Proposal} {s : MemoryStore}

-- The three ways in which a swap can end: the name cannot be stored, the open version is another
-- one, or the writes are put in.
theorem run_commit_of_not_isName (hname : Store.isName new.name = false) :
    (commit new p).run s =
      (.failed (.storeFailed ("invalid data def name '" ++ new.name ++ "'")), s) := by
  simp only [commit, StateT.run_bind, MemoryStore.run_swap_of_not_isName hname, pure_bind]
  rfl

theorem run_commit_of_not_stillMatches (hname : Store.isName new.name)
    (hnamed : ∀ w ∈ p.writes, w.name = new.name)
    (hmatch : Store.stillMatches (s.openOf new.name) p.seen = false) :
    (commit new p).run s = (.lost (.concurrentModification new.name), s) := by
  simp only [commit, StateT.run_bind, MemoryStore.run_swap hname hnamed, pure_bind, hmatch]
  rfl

theorem run_commit_of_stillMatches (hname : Store.isName new.name)
    (hnamed : ∀ w ∈ p.writes, w.name = new.name)
    (hmatch : Store.stillMatches (s.openOf new.name) p.seen) :
    (commit new p).run s =
      (.settled p.outcome,
        s.setHistory new.name (p.writes.foldl (fun h v => h.put v) (s.history new.name))) := by
  simp only [commit, StateT.run_bind, MemoryStore.run_swap hname hnamed, pure_bind, hmatch, if_true]
  rfl

end Sync
end ScraperTimeline
