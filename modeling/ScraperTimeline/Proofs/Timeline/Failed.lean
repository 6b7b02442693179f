import ScraperTimeline.Proofs.Timeline.Interchange

/-!
Calls that fail. They leave a store as it was, with the lock that another writer holds, so a sync that fails
leaves the store as it was after the versions before the one that it failed at.
-/
namespace ScraperTimeline

/-! ### Operations on any store -/

section
variable {σ α β : Type} {x : Storing σ α} {f : α → Storing σ β}

-- What fails has changed nothing.
def Atomic (x : Storing σ α) : Prop := ∀ s s' e, x.run.run s = (.error e, s') → s' = s

-- What changes nothing in any case.
def Still (x : Storing σ α) : Prop := ∀ s, (x.run.run s).2 = s

theorem Still.atomic (hx : Still x) : Atomic x := by
  intro s s' e h
  rw [← hx s, h]

theorem Still.lift (r : Except Fault α) : Still (liftM r : Storing σ α) := by
  intro s
  cases r <;> rfl

theorem Still.bind (hx : Still x) (hf : ∀ a, Still (f a)) : Still (x >>= f) := by
  intro s
  have hs := hx s
  rcases hrun : x.run.run s with ⟨e | a, s₁⟩
  · rw [run_bind_of_error hrun, ← hs, hrun]
  · rw [run_bind_of_ok hrun, hf a s₁, ← hs, hrun]

-- What is only read or checked before does not count.
theorem Still.bind_atomic (hx : Still x) (hf : ∀ a, Atomic (f a)) : Atomic (x >>= f) := by
  intro s s' e h
  have hs := hx s
  rcases hrun : x.run.run s with ⟨e' | a, s₁⟩
  · rw [run_bind_of_error hrun] at h
    cases h
    rw [← hs, hrun]
  · rw [run_bind_of_ok hrun] at h
    rw [hrun] at hs
    exact (hf a s₁ s' e h).trans hs

theorem Atomic.map (hx : Atomic x) (g : α → β) : Atomic (x >>= fun a => pure (g a)) := by
  intro s s' e h
  rcases hrun : x.run.run s with ⟨e' | a, s₁⟩
  · rw [run_bind_of_error hrun] at h
    cases h
    exact hx _ _ _ hrun
  · rw [run_bind_of_ok hrun] at h
    cases h

end

-- A store whose reads change nothing, and whose changes are made as a whole or not at all.
structure Store.Careful (σ : Type) [Store σ] : Prop where
  names : Still (Store.names : Storing σ (List String))
  findAll : ∀ name, Still (Store.findAll name : Storing σ History)
  findOpen : ∀ name, Still (Store.findOpen name : Storing σ (Option Version))
  put : ∀ v, Atomic (Store.put v : Storing σ Unit)
  swap : ∀ name expected writes, Atomic (Store.swap name expected writes : Storing σ Unit)

theorem Store.Careful.call {σ : Type} [Store σ] (hσ : Store.Careful σ) (c : Call) :
    Atomic (c.run : Storing σ Answer) := by
  cases c with
  | names => exact hσ.names.atomic.map _
  | findAll name => exact (hσ.findAll name).atomic.map _
  | findOpen name => exact (hσ.findOpen name).atomic.map _
  | findActive name t => exact ((hσ.findAll name).atomic.map _).map _
  | put v => exact (hσ.put v).map _
  | swap name expected writes => exact (hσ.swap name expected writes).map _

/-! ### The store in memory -/

theorem MemoryStore.careful : Store.Careful MemoryStore where
  names _ := rfl
  findAll _ _ := rfl
  findOpen _ _ := rfl
  put v := (Still.lift _).bind_atomic fun _ s s' e h => by cases h
  swap name expected writes := by
    refine (Still.lift _).bind_atomic fun _ => (Still.lift _).bind_atomic fun _ => ?_
    refine Still.bind_atomic (fun _ => rfl) fun s => ?_
    exact (Still.lift _).bind_atomic fun h s s' e hset => by cases hset

/-! ### The store of files -/

namespace FileStore

variable {s s' : FileStore} {name : String} {e : Fault} {x : Storing FileStore Unit}

-- The lock is made where there was none and where the history has room, or nothing is made.
theorem lock_cases (s : FileStore) (name : String) :
    (∃ e, (lock name).run.run s = (.error e, s)) ∨
      (s.Unlocked name ∧ (lockFile name).utf8ByteSize ≤ Files.longestName ∧
        (lock name).run.run s = (.ok (), s.held name)) := by
  rcases Files.create_cases (lockFile name) s.dir "" s.files with ⟨e, hcreate⟩ | ⟨hroom, hlock, -⟩
  · left
    rw [lock, run_get_bind, hcreate]
    cases e <;> exact ⟨_, rfl⟩
  · obtain ⟨hdir, hfit⟩ := Files.directory_of_room hroom
    exact .inr ⟨⟨hdir, hlock⟩, hfit, run_lock ⟨hdir, hlock⟩ hfit⟩

-- A lock that is held keeps everyone out and stays.
theorem run_locked_of_held {entry : Entry} (hlock : s.files.at? (lockFile name :: s.dir) = some entry)
    (x : Storing FileStore Unit) :
    (locked name x).run.run s = (.error (.concurrentModification name), s) := by
  have hcreate : (Files.create (lockFile name :: s.dir) "").run.run s.files = (.error .alreadyThere, s.files) := by
    rw [Files.create, run_get_bind, hlock]
    rfl
  have hrefused : (lock name).run.run s = (.error (.concurrentModification name), s) := by
    rw [lock, run_get_bind, hcreate]
    rfl
  rw [locked, run_bind_of_error hrefused]

-- What leaves the store as it was with the lock leaves it as it was.
theorem eq_of_run_locked_error
    (hx : s.Unlocked name → (lockFile name).utf8ByteSize ≤ Files.longestName →
      ∀ e s₁, x.run.run (s.held name) = (.error e, s₁) → s₁ = s.held name)
    (h : (locked name x).run.run s = (.error e, s')) : s' = s := by
  rcases lock_cases s name with ⟨e', hlock⟩ | ⟨hs, hfit, hlock⟩
  · rw [locked, run_bind_of_error hlock] at h
    cases h
    rfl
  rcases hrun : x.run.run (s.held name) with ⟨e' | _, s₁⟩
  · obtain rfl := hx hs hfit e' s₁ hrun
    rw [run_locked hs hfit hrun rfl (Files.at?_set_self ..), hs.erase_held] at h
    cases h
    rfl
  · rw [locked, run_bind_of_ok hlock, run_bind_of_ok (run_tryCatch_of_ok hrun)] at h
    cases h

-- There is no directory in the place of a history that was read.
theorem at?_ne_directory_of_readHistory {before : History} (hread : s.readHistory name = .ok before) :
    s.files.at? (historyFile name :: s.dir) ≠ some .directory := by
  intro hplace
  rw [readHistory, Files.read, hplace] at hread
  cases hread

theorem eq_of_run_writeHistory_error {before h : History} (hdir : s.files.at? s.dir = some .directory)
    (hfit : (lockFile name).utf8ByteSize ≤ Files.longestName) (hread : s.readHistory name = .ok before)
    (hwrite : (writeHistory name h).run.run s = (.error e, s')) : s' = s := by
  have hsize : (historyFile name).utf8ByteSize ≤ Files.longestName := by
    have hjson : ".json".utf8ByteSize = 5 := rfl
    rw [utf8ByteSize_lockFile] at hfit
    rwa [historyFile, String.utf8ByteSize_append, hjson]
  rcases hreplace : (Files.replace (historyFile name :: s.dir) h.toJson).run.run s.files with ⟨failure | _, files⟩
  · cases (run_writeHistory_of_replace hreplace).symm.trans hwrite
    have hplace := at?_ne_directory_of_readHistory hread
    rw [Files.eq_of_run_replace_error hdir hsize hplace hreplace]
  · cases (run_writeHistory_of_replace hreplace).symm.trans hwrite

-- A history is read, changed and written, or nothing is.
theorem eq_of_run_change_error {f : History → Except Fault History}
    (hx : x.run.run (s.held name) = (history name >>= fun before =>
      liftM (f before) >>= writeHistory name : Storing FileStore Unit).run.run (s.held name))
    (h : (locked name x).run.run s = (.error e, s')) : s' = s := by
  refine eq_of_run_locked_error (fun hs hfit e s₁ hfailed => ?_) h
  rw [hx] at hfailed
  cases hname : Store.isName name with
  | false =>
      rw [run_bind_of_error (run_history_of_not_isName hname)] at hfailed
      cases hfailed
      rfl
  | true =>
      rw [run_rewrite hname] at hfailed
      cases hread : (s.held name).readHistory name with
      | error reason =>
          rw [hread] at hfailed
          cases hfailed
          rfl
      | ok before =>
          rw [hread] at hfailed
          dsimp only at hfailed
          cases hf : f before with
          | error reason =>
              rw [hf] at hfailed
              cases hfailed
              rfl
          | ok h =>
              rw [hf] at hfailed
              exact eq_of_run_writeHistory_error hs.held_at?_dir hfit hread hfailed

theorem still_history (name : String) : Still (history name) :=
  (Still.lift _).bind fun _ => Still.bind (fun _ => rfl) fun _ => Still.lift _

theorem still_names : Still names := by
  refine Still.bind (fun _ => rfl) fun s => ?_
  split
  all_goals exact fun _ => rfl

theorem atomic_put (v : Version) : Atomic (put v) := by
  refine (Still.lift _).bind_atomic fun _ s s' e h => ?_
  refine eq_of_run_change_error (f := fun h => .ok (h.put v)) ?_ h
  refine congrArg (fun x : Storing FileStore Unit => x.run.run (s.held v.name)) ?_
  exact bind_congr fun before => (pure_bind (before.put v) (writeHistory v.name)).symm

theorem atomic_swap (name : String) (expected : Option Version) (writes : List Version) :
    Atomic (swap name expected writes) := by
  refine (Still.lift _).bind_atomic fun _ => (Still.lift _).bind_atomic fun _ s s' e h => ?_
  refine eq_of_run_change_error (f := Store.swapped s.high name expected writes) ?_ h
  rfl

theorem careful : Store.Careful FileStore where
  names := still_names
  findAll name := (still_history name).bind fun _ _ => rfl
  findOpen name := (still_history name).bind fun _ => Still.bind (fun _ => rfl) fun _ _ => rfl
  put := atomic_put
  swap := atomic_swap

end FileStore

/-! ### Syncs -/

namespace Sync

section
variable {σ : Type} [Store σ] {settings : Settings} {high : Instant} {new : Version} {s s' : σ} {e : Fault}

theorem still_consult (hσ : Store.Careful σ) (high : Instant) (new : Version) (s : σ) :
    ((consult high new).run s).2 = s := by
  have hread := hσ.findOpen new.name s
  rcases hrun : (Store.findOpen new.name : Storing σ (Option Version)).run.run s with ⟨e | seen, s₁⟩
  · rw [hrun] at hread
    obtain rfl : s₁ = s := hread
    rw [run_consult_of_error hrun]
  · rw [hrun] at hread
    obtain rfl : s₁ = s := hread
    rw [run_consult_of_read hrun]

-- An attempt changes the store only where it settles.
theorem eq_of_run_attempt (hσ : Store.Careful σ) {a : Attempt} (ha : ∀ outcome, a ≠ .settled outcome)
    (h : (attempt high new).run s = (a, s')) : s' = s := by
  have hstill := still_consult hσ high new s
  rcases hconsult : (consult high new).run s with ⟨ended | p, s₁⟩
  · rw [hconsult] at hstill
    obtain rfl : s₁ = s := hstill
    cases (run_attempt_ended hconsult).symm.trans h
    rfl
  · rw [hconsult] at hstill
    obtain rfl : s₁ = s := hstill
    rw [run_attempt_swap hconsult] at h
    rcases hswap : (Store.swap new.name p.seen p.writes : Storing σ Unit).run.run s₁ with ⟨e | _, s₂⟩
    · rw [run_commit_of_swap hswap] at h
      cases h
      exact hσ.swap _ _ _ _ _ _ hswap
    · rw [run_commit_of_swap hswap] at h
      cases h
      exact (ha _ rfl).elim

-- Each lost attempt leaves the store to the next one as it was.
theorem eq_of_run_settle_error (hσ : Store.Careful σ) {made left : Nat} {waits : List Wait}
    (h : (settle settings new made left).run s = ((waits, .error e), s')) : s' = s := by
  replace h := settles_iff.mpr h
  generalize hresult : (.error e : Except Fault Outcome) = result at h
  induction h with
  | @last _ _ _ _ a ha =>
      cases a with
      | settled outcome => cases hresult
      | failed reason => exact eq_of_run_attempt hσ (by simp) ha
      | lost reason => exact eq_of_run_attempt hσ (by simp) ha
  | lost ha _ ih =>
      obtain rfl := eq_of_run_attempt hσ (by simp) ha
      exact ih hresult

-- The versions before one have been brought in, it alone has failed, and the store is as it was before it.
def StoppedAt (settings : Settings) (vs : List Version) (s : σ) (e : Fault) (s' : σ) : Prop :=
  ∃ before new rest, vs = before ++ new :: rest ∧
    (∃ waits report, (apply settings before).run s = ((waits, .ok report), s')) ∧
    ∃ waits, (settle settings new 0 settings.retries).run s' = ((waits, .error e), s')

theorem stoppedAt_of_run_apply (hσ : Store.Careful σ) {vs : List Version} {waits : List Wait}
    (h : (apply settings vs).run s = ((waits, .error e), s')) : StoppedAt settings vs s e s' := by
  replace h := applies_iff.mpr h
  generalize htold : (.error e : Except Fault Report) = told at h
  induction h with
  | nil => cases htold
  | @failed _ _ new _ _ hsettle rest =>
      cases htold
      obtain rfl := eq_of_run_settle_error hσ hsettle
      exact ⟨[], new, rest, rfl, ⟨[], [], rfl⟩, _, hsettle⟩
  | @settled _ _ _ new _ _ _ _ result hsettle _ ih =>
      cases result with
      | ok report => cases htold
      | error reason =>
          cases htold
          obtain ⟨before, failed, after, rfl, ⟨waits, report, hbefore⟩, hfailed⟩ := ih rfl
          exact ⟨new :: before, failed, after, rfl, ⟨_, _, run_apply_of_settle hsettle hbefore⟩, hfailed⟩

end

end Sync

/-! ### Both stores -/

-- Whatever fails leaves both stores as they were, and a lock keeps its name from being written and stays. A sync
-- stops at the version that it fails at.
theorem failed_calls_change_nothing :
    (∀ (c : Call) (m m' : MemoryStore) (e : Fault), c.run.run.run m = (.error e, m') → m' = m) ∧
      (∀ (c : Call) (f f' : FileStore) (e : Fault), c.run.run.run f = (.error e, f') → f' = f) ∧
      (∀ (f : FileStore) (name : String) (lock : Entry), Store.isName name →
        f.files.at? (FileStore.lockFile name :: f.dir) = some lock →
        (∀ v : Version, v.name = name →
          (Store.put v : Storing FileStore Unit).run.run f = (.error (.concurrentModification name), f)) ∧
        ∀ expected writes, (∀ w ∈ writes, w.name = name) →
          (Store.swap name expected writes : Storing FileStore Unit).run.run f =
            (.error (.concurrentModification name), f)) ∧
      (∀ (settings : Sync.Settings) (vs : List Version) (m m' : MemoryStore) (waits : List Sync.Wait) (e : Fault),
        (Sync.apply settings vs).run m = ((waits, .error e), m') → Sync.StoppedAt settings vs m e m') ∧
      ∀ (settings : Sync.Settings) (vs : List Version) (f f' : FileStore) (waits : List Sync.Wait) (e : Fault),
        (Sync.apply settings vs).run f = ((waits, .error e), f') → Sync.StoppedAt settings vs f e f' := by
  refine ⟨MemoryStore.careful.call, FileStore.careful.call, ?_, ?_, ?_⟩
  · intro f name lock hname hlock
    refine ⟨?_, fun expected writes hnamed => ?_⟩
    · rintro v rfl
      exact (run_bind_of_ok (run_lift_of_ok (Store.checkName_of_isName hname) f)).trans
        (FileStore.run_locked_of_held hlock _)
    · exact (run_bind_of_ok (run_lift_of_ok (Store.checkName_of_isName hname) f)).trans
        ((run_bind_of_ok (run_lift_of_ok (Store.checkWrites_of_forall hnamed) f)).trans
          (FileStore.run_locked_of_held hlock _))
  · exact fun _ _ _ _ _ _ => Sync.stoppedAt_of_run_apply MemoryStore.careful
  · exact fun _ _ _ _ _ _ => Sync.stoppedAt_of_run_apply FileStore.careful

-- Another writer holds the lock, and the second version of a sync has no name.
theorem failed_calls_change_nothing_locked :
    let new : Version := .ofBody "axis" ⟨1, 0⟩ ⟨9, 0⟩ .null
    let nameless : Version := .ofBody "" ⟨1, 0⟩ ⟨9, 0⟩ .null
    let settings : Sync.Settings := ⟨⟨9, 0⟩, 0, 0⟩
    let m : MemoryStore := .empty ⟨9, 0⟩
    let f : FileStore := ⟨["store"], ⟨9, 0⟩, ⟨[(["store"], .directory)], []⟩⟩
    let locked : FileStore := f.held "axis"
    ((Call.put nameless).run.run.run m).2 = m ∧ ((Call.put new).run.run.run locked).2 = locked ∧
      (Store.swap "axis" none [new] : Storing FileStore Unit).run.run locked =
        (.error (.concurrentModification "axis"), locked) ∧
      (∃ e m', Sync.StoppedAt settings [new, nameless] m e m') ∧
      ∃ e f', Sync.StoppedAt settings [new, nameless] f e f' := by
  intro new nameless settings m f locked
  obtain ⟨hmemory, hfiles, hlocked, hsync, hsync'⟩ := failed_calls_change_nothing
  have hrefused := hlocked locked "axis" (.file (some "")) (by decide) rfl
  refine ⟨hmemory (.put nameless) m _ (.storeFailed "invalid data def name ''") rfl,
    hfiles (.put new) locked _ (.concurrentModification "axis") ?_,
    hrefused.2 none [new] (by simp [new, Version.ofBody]), ?_, ?_⟩
  · rw [Call.run, run_bind_of_error (hrefused.1 new rfl)]
  · have hfailed : ((Sync.apply settings [new, nameless]).run m).1.2 =
        .error (.storeFailed "invalid data def name ''") := by decide +kernel
    exact ⟨_, _, hsync settings _ m _ _ _ (Prod.ext (Prod.ext rfl hfailed) rfl)⟩
  · have hfailed : ((Sync.apply settings [new, nameless]).run f).1.2 =
        .error (.storeFailed "invalid data def name ''") := by decide +kernel
    exact ⟨_, _, hsync' settings _ f _ _ _ (Prod.ext (Prod.ext rfl hfailed) rfl)⟩

end ScraperTimeline
