import ScraperTimeline.Proofs.Files.Basic
import ScraperTimeline.Proofs.Timeline.Record
import ScraperTimeline.Proofs.Timeline.Sync
import ScraperTimeline.Timeline.FileStore

/-!
Histories in files. What changes a history writes the file of its name and leaves every other place as it
is, or it fails and leaves all of them.
-/
namespace ScraperTimeline.FileStore

variable {s s' : FileStore} {name other : String} {h : History} {text : String}

-- The file that is written before it takes the place of a history.
def besideFile (name : String) : String := historyFile name ++ ".tmp"

-- The places that have to do with a name.
def places (s : FileStore) (name : String) : List Path :=
  [historyFile name :: s.dir, besideFile name :: s.dir, lockFile name :: s.dir]

theorem dir_notMem_places (s : FileStore) (name : String) : s.dir ∉ s.places name := by
  have hne (file : String) : s.dir ≠ file :: s.dir := fun heq => by simpa using congrArg List.length heq
  simp only [places, List.mem_cons, List.not_mem_nil, or_false, not_or]
  exact ⟨hne _, hne _, hne _⟩

-- Two names have no place in common.
theorem disjoint_places (s : FileStore) (hne : other ≠ name) : ∀ p ∈ s.places other, p ∉ s.places name := by
  have hlast {file file' : String} (h : file.toList.getLast? ≠ file'.toList.getLast?) : file ≠ file' :=
    fun heq => h (by rw [heq])
  have hhistory : historyFile other ≠ historyFile name ∧ historyFile other ≠ besideFile name ∧
      historyFile other ≠ lockFile name :=
    ⟨by simpa [historyFile] using hne, hlast (by simp [historyFile, besideFile]),
      hlast (by simp [historyFile, lockFile])⟩
  have hbeside : besideFile other ≠ historyFile name ∧ besideFile other ≠ besideFile name ∧
      besideFile other ≠ lockFile name :=
    ⟨hlast (by simp [historyFile, besideFile]), by simpa [historyFile, besideFile] using hne,
      hlast (by simp [historyFile, besideFile, lockFile])⟩
  have hlock : lockFile other ≠ historyFile name ∧ lockFile other ≠ besideFile name ∧
      lockFile other ≠ lockFile name :=
    ⟨hlast (by simp [historyFile, lockFile]), hlast (by simp [historyFile, besideFile, lockFile]),
      by simpa [lockFile] using hne⟩
  simp [places, hhistory, hbeside, hlock]

-- The directory of the store is there, and no other writer is at a name.
structure Unlocked (s : FileStore) (name : String) : Prop where
  dir : s.files.at? s.dir = some .directory
  lock : s.files.at? (lockFile name :: s.dir) = none

-- Nothing is in the way of the files of a name, and no other writer is at it.
structure Free (s : FileStore) (name : String) : Prop where
  dir : s.files.at? s.dir = some .directory
  history : s.files.at? (historyFile name :: s.dir) ≠ some .directory
  beside : s.files.at? (besideFile name :: s.dir) = none
  lock : s.files.at? (lockFile name :: s.dir) = none

theorem Free.unlocked (hs : s.Free name) : s.Unlocked name := ⟨hs.dir, hs.lock⟩

-- The history of a name can be written.
structure Writable (s : FileStore) (name : String) : Prop extends s.Free name where
  short : (besideFile name).utf8ByteSize ≤ Files.longestName

-- What a change of a history does to the store.
structure Wrote (s : FileStore) (name : String) (h : History) (s' : FileStore) : Prop where
  dir : s'.dir = s.dir
  high : s'.high = s.high
  history : s'.files.at? (historyFile name :: s.dir) = some (.file (some h.toJson))
  beside : s'.files.at? (besideFile name :: s.dir) = none
  lock : s'.files.at? (lockFile name :: s.dir) = none
  others : ∀ p, p ∉ s.places name → s'.files.at? p = s.files.at? p
  listed : s.files.Listed s.dir → s'.files.Listed s.dir

-- The store while the lock of a name is held.
def held (s : FileStore) (name : String) : FileStore :=
  { s with files := s.files.set (lockFile name :: s.dir) (.file (some "")) }

theorem utf8ByteSize_besideFile (name : String) : (besideFile name).utf8ByteSize = name.utf8ByteSize + 9 := by
  have hjson : ".json".utf8ByteSize = 5 := rfl
  have htmp : ".tmp".utf8ByteSize = 4 := rfl
  simp only [besideFile, historyFile, String.utf8ByteSize_append]
  omega

theorem utf8ByteSize_lockFile (name : String) : (lockFile name).utf8ByteSize = name.utf8ByteSize + 5 := by
  have hlock : ".lock".utf8ByteSize = 5 := rfl
  rw [lockFile, String.utf8ByteSize_append, hlock]

theorem run_lock (hs : s.Unlocked name) (hfit : (lockFile name).utf8ByteSize ≤ Files.longestName) :
    (lock name).run.run s = (.ok (), s.held name) := by
  rw [lock, run_get_bind, Files.run_create hs.dir hfit hs.lock]
  rfl

theorem run_lock_of_long (hs : s.Unlocked name) (hlong : Files.longestName < (lockFile name).utf8ByteSize) :
    (lock name).run.run s = (.error FileFault.nameTooLong.toFault, s) := by
  rw [lock, run_get_bind, Files.run_create_of_long hs.dir hlong hs.lock]
  rfl

-- What the files answer to a write is what the store answers.
theorem run_writeHistory_of_replace {result : Except FileFault Unit} {files : Files}
    (hrun : (Files.replace (historyFile name :: s.dir) h.toJson).run.run s.files = (result, files)) :
    (writeHistory name h).run.run s = (result.mapError FileFault.toFault, { s with files }) := by
  rw [writeHistory, run_get_bind, filing, run_get_bind, hrun]
  cases result <;> rfl

theorem run_writeHistory (hdir : s.files.at? s.dir = some .directory)
    (hshort : (besideFile name).utf8ByteSize ≤ Files.longestName)
    (hbeside : s.files.at? (besideFile name :: s.dir) ≠ some .directory)
    (hhistory : s.files.at? (historyFile name :: s.dir) ≠ some .directory) (h : History) :
    ∃ files, (writeHistory name h).run.run s = (.ok (), { s with files }) ∧
      files.at? (historyFile name :: s.dir) = some (.file (some h.toJson)) ∧
      files.at? (besideFile name :: s.dir) = none ∧
      (∀ q, q ≠ historyFile name :: s.dir → q ≠ besideFile name :: s.dir →
        files.at? q = s.files.at? q) ∧
      (s.files.Listed s.dir → files.Listed s.dir) := by
  obtain ⟨files, hrun, hfile⟩ := Files.run_replace hdir hshort hbeside hhistory h.toJson
  exact ⟨files, run_writeHistory_of_replace hrun, hfile⟩

theorem run_writeHistory_of_long (hdir : s.files.at? s.dir = some .directory)
    (hlong : Files.longestName < (besideFile name).utf8ByteSize)
    (hbeside : s.files.at? (besideFile name :: s.dir) = none) (h : History) :
    (writeHistory name h).run.run s = (.error FileFault.nameTooLong.toFault, s) :=
  run_writeHistory_of_replace (Files.run_replace_of_long hdir hlong hbeside h.toJson)

theorem run_unlock {old : Option String} (h : s.files.at? (lockFile name :: s.dir) = some (.file old)) :
    (unlock name).run.run s = (.ok (), { s with files := s.files.erase (lockFile name :: s.dir) }) := by
  change (Except.ok (), { s with files := ((Files.remove (lockFile name :: s.dir)).run.run s.files).2 }) = _
  rw [Files.run_remove h]

-- The lock is taken away again, however it goes.
theorem run_locked {x : Storing FileStore Unit} {result : Except Fault Unit} {s₁ : FileStore}
    (hs : s.Unlocked name) (hfit : (lockFile name).utf8ByteSize ≤ Files.longestName)
    (hx : x.run.run (s.held name) = (result, s₁)) (hdir : s₁.dir = s.dir)
    (hlock : s₁.files.at? (lockFile name :: s.dir) = some (.file (some ""))) :
    (locked name x).run.run s =
      (result, { s₁ with files := s₁.files.erase (lockFile name :: s.dir) }) := by
  rw [← hdir] at hlock ⊢
  rw [locked, run_bind_of_ok (run_lock hs hfit)]
  cases result with
  | ok => rw [run_bind_of_ok (run_tryCatch_of_ok hx), run_unlock hlock]
  | error e =>
      have hfailed : (unlock name >>= fun _ => throw e : Storing FileStore Unit).run.run s₁ =
          (.error e, { s₁ with files := s₁.files.erase (lockFile name :: s₁.dir) }) :=
        run_bind_of_ok (run_unlock hlock)
      rw [run_bind_of_error ((run_tryCatch_of_error hx).trans hfailed)]

/-! ### Reading -/

-- What is told of a history that is no list of versions.
def unreadable (name : String) : Fault :=
  .storeFailed ("unreadable history for '" ++ name ++ "': " ++ Fault.unreadable)

theorem readHistory_of_file (h : s.files.at? (historyFile name :: s.dir) = some (.file (some text))) :
    s.readHistory name = (History.ofJson? text).elim (.error (unreadable name)) .ok := by
  rw [readHistory, Files.read_of_at? h]
  rfl

theorem readHistory_of_missing (hdir : s.files.at? s.dir = some .directory)
    (hshort : (historyFile name).utf8ByteSize ≤ Files.longestName)
    (h : s.files.at? (historyFile name :: s.dir) = none) : s.readHistory name = .ok [] := by
  rw [readHistory, Files.read_of_missing hdir hshort h]

theorem eq_nil_of_readHistory (hmissing : s.files.at? (historyFile name :: s.dir) = none)
    (hread : s.readHistory name = .ok h) : h = [] := by
  rw [readHistory, Files.read, hmissing] at hread
  dsimp only at hread
  generalize s.files.absence (historyFile name :: s.dir) = reason at hread
  cases reason <;> cases hread
  rfl

-- A history is read from its own place.
theorem readHistory_congr (hdir : s'.dir = s.dir) (hroot : s.files.at? s.dir = some .directory)
    (hroot' : s'.files.at? s.dir = some .directory)
    (h : s'.files.at? (historyFile name :: s.dir) = s.files.at? (historyFile name :: s.dir)) :
    s'.readHistory name = s.readHistory name := by
  have habsence : s'.files.absence (historyFile name :: s.dir) = s.files.absence (historyFile name :: s.dir) := by
    rw [Files.absence, Files.absence, Files.room, Files.room, hroot, hroot']
  rw [readHistory, readHistory, hdir, Files.read, Files.read, h, habsence]

theorem run_history {result : Except Fault History} (hname : Store.isName name)
    (hread : s.readHistory name = result) : (history name).run.run s = (result, s) := by
  rw [history, run_bind_of_ok (run_lift_of_ok (Store.checkName_of_isName hname) s), run_get_bind, hread]
  cases result <;> rfl

theorem findAll_eq (name : String) :
    (Store.findAll name : Storing FileStore History) = history name >>= fun h => pure h.sortByStart := rfl

theorem findOpen_eq (name : String) :
    (Store.findOpen name : Storing FileStore (Option Version)) =
      history name >>= fun h => get >>= fun s => pure (h.open? s.high) := rfl

theorem run_findAll (hname : Store.isName name) (hread : s.readHistory name = .ok h) :
    (Store.findAll name : Storing FileStore History).run.run s = (.ok h.sortByStart, s) := by
  rw [findAll_eq, run_bind_of_ok (run_history hname hread)]
  rfl

theorem run_findAll_of_error {e : Fault} (hname : Store.isName name) (hread : s.readHistory name = .error e) :
    (Store.findAll name : Storing FileStore History).run.run s = (.error e, s) := by
  rw [findAll_eq, run_bind_of_error (run_history hname hread)]

theorem run_findOpen (hname : Store.isName name) (hread : s.readHistory name = .ok h) :
    (Store.findOpen name : Storing FileStore (Option Version)).run.run s = (.ok (h.open? s.high), s) := by
  rw [findOpen_eq, run_bind_of_ok (run_history hname hread), run_get_bind]
  rfl

theorem run_findOpen_of_error {e : Fault} (hname : Store.isName name) (hread : s.readHistory name = .error e) :
    (Store.findOpen name : Storing FileStore (Option Version)).run.run s = (.error e, s) := by
  rw [findOpen_eq, run_bind_of_error (run_history hname hread)]

-- What is told of a name that cannot be stored.
def unnamable (name : String) : Fault := .storeFailed ("invalid data def name '" ++ name ++ "'")

theorem checkName_of_not_isName (hname : Store.isName name = false) :
    Store.checkName name = .error (unnamable name) := by
  simp [Store.checkName, hname, unnamable]

theorem run_history_of_not_isName (hname : Store.isName name = false) :
    (history name).run.run s = (.error (unnamable name), s) := by
  rw [history, run_bind_of_error (run_lift_of_error (checkName_of_not_isName hname) s)]

theorem run_findAll_of_not_isName (hname : Store.isName name = false) :
    (Store.findAll name : Storing FileStore History).run.run s = (.error (unnamable name), s) := by
  rw [findAll_eq, run_bind_of_error (run_history_of_not_isName hname)]

theorem run_findOpen_of_not_isName (hname : Store.isName name = false) :
    (Store.findOpen name : Storing FileStore (Option Version)).run.run s = (.error (unnamable name), s) := by
  rw [findOpen_eq, run_bind_of_error (run_history_of_not_isName hname)]

/-! ### New stores -/

-- A store in a directory with nothing in it.
structure Empty (s : FileStore) : Prop where
  dir : s.files.at? s.dir = some .directory
  children : s.files.children s.dir = []

namespace Empty

theorem missing (hs : s.Empty) (file : String) : s.files.at? (file :: s.dir) = none :=
  Files.at?_of_children_nil hs.children

theorem free (hs : s.Empty) (name : String) : s.Free name :=
  ⟨hs.dir, by simp [hs.missing], hs.missing _, hs.missing _⟩

theorem listed (hs : s.Empty) : s.files.Listed s.dir := by
  rw [Files.Listed, hs.children]
  exact .nil

theorem writable (hs : s.Empty) (hshort : (besideFile name).utf8ByteSize ≤ Files.longestName) :
    s.Writable name :=
  ⟨hs.free name, hshort⟩

theorem readHistory (hs : s.Empty) (hshort : (besideFile name).utf8ByteSize ≤ Files.longestName) :
    s.readHistory name = .ok [] := by
  rw [besideFile, String.utf8ByteSize_append] at hshort
  exact readHistory_of_missing hs.dir (by omega) (hs.missing _)

end Empty

/-! ### Changes -/

-- What becomes of a history that is read, changed and written.
inductive Changed (s : FileStore) (name : String) (f : History → Except Fault History) :
    Except Fault Unit → FileStore → Prop
  | wrote {before h : History} {s' : FileStore} (hread : s.readHistory name = .ok before)
      (hf : f before = .ok h) (hw : Wrote s name h s') : Changed s name f (.ok ()) s'
  | refused {before : History} {e : Fault} (hread : s.readHistory name = .ok before)
      (hf : f before = .error e) : Changed s name f (.error e) s
  | unreadable {e : Fault} (hread : s.readHistory name = .error e) : Changed s name f (.error e) s
  | long (hlong : Files.longestName < (besideFile name).utf8ByteSize) :
      Changed s name f (.error FileFault.nameTooLong.toFault) s

theorem historyFile_ne_lockFile (s : FileStore) (name : String) :
    historyFile name :: s.dir ≠ lockFile name :: s.dir := by
  intro heq
  have hlast := congrArg (fun file : String => file.toList.getLast?) (List.cons.inj heq).1
  simp [historyFile, lockFile] at hlast

theorem besideFile_ne_lockFile (s : FileStore) (name : String) :
    besideFile name :: s.dir ≠ lockFile name :: s.dir := by
  intro heq
  have hlast := congrArg (fun file : String => file.toList.getLast?) (List.cons.inj heq).1
  simp [historyFile, besideFile, lockFile] at hlast

namespace Unlocked

theorem held_at?_dir (hs : s.Unlocked name) : (s.held name).files.at? s.dir = some .directory := by
  have hdir := s.dir_notMem_places name
  simp only [places, List.mem_cons, List.not_mem_nil, or_false, not_or] at hdir
  exact (Files.at?_set_of_ne hdir.2.2 _ s.files).trans hs.dir

theorem readHistory_held (hs : s.Unlocked name) : (s.held name).readHistory name = s.readHistory name :=
  readHistory_congr rfl hs.dir hs.held_at?_dir (Files.at?_set_of_ne (s.historyFile_ne_lockFile name) _ s.files)

theorem erase_held (hs : s.Unlocked name) :
    { s.held name with files := (s.held name).files.erase (lockFile name :: s.dir) } = s := by
  rw [held, Files.erase_set_self hs.lock]

end Unlocked

-- A history is written under its lock if it has room.
theorem Free.run_writeHistory_held (hs : s.Free name) (h : History) :
    (∃ files, (writeHistory name h).run.run (s.held name) = (.ok (), { s.held name with files }) ∧
      files.at? (lockFile name :: s.dir) = some (.file (some "")) ∧
      Wrote s name h { s with files := files.erase (lockFile name :: s.dir) }) ∨
    (Files.longestName < (besideFile name).utf8ByteSize ∧
      (writeHistory name h).run.run (s.held name) =
        (.error FileFault.nameTooLong.toFault, s.held name)) := by
  have hfile := s.historyFile_ne_lockFile name
  have hbeside := s.besideFile_ne_lockFile name
  have hkept {p : Path} (hp : p ≠ lockFile name :: s.dir) : (s.held name).files.at? p = s.files.at? p :=
    Files.at?_set_of_ne hp _ s.files
  by_cases hshort : (besideFile name).utf8ByteSize ≤ Files.longestName
  · obtain ⟨files, hrun, hwritten, hgone, hothers, hlisted⟩ := @run_writeHistory (s.held name) name
      hs.unlocked.held_at?_dir hshort (by rw [show (s.held name).dir = s.dir from rfl, hkept hbeside, hs.beside]; simp)
      (by rw [show (s.held name).dir = s.dir from rfl, hkept hfile]; exact hs.history) h
    have hlock : files.at? (lockFile name :: s.dir) = some (.file (some "")) := by
      rw [hothers _ hfile.symm hbeside.symm]
      exact Files.at?_set_self ..
    refine .inl ⟨files, hrun, hlock, rfl, rfl, ?_, ?_, ?_, fun p hp => ?_, fun h => ?_⟩
    · exact (Files.at?_erase_of_ne hfile files).trans hwritten
    · exact (Files.at?_erase_of_ne hbeside files).trans hgone
    · exact Files.at?_erase_self ..
    · simp only [places, List.mem_cons, List.not_mem_nil, or_false, not_or] at hp
      exact (Files.at?_erase_of_ne hp.2.2 files).trans ((hothers p hp.1 hp.2.1).trans (hkept hp.2.2))
    · exact (hlisted (h.set ..)).erase _
  · have hlong := Nat.lt_of_not_le hshort
    exact .inr ⟨hlong, @run_writeHistory_of_long (s.held name) name hs.unlocked.held_at?_dir hlong
      ((hkept hbeside).trans hs.beside) h⟩

-- A history is written if it was read and its change was not refused.
theorem run_rewrite (hname : Store.isName name) (f : History → Except Fault History) (s : FileStore) :
    (history name >>= fun before => liftM (f before) >>= writeHistory name : Storing FileStore Unit).run.run s =
      match s.readHistory name with
      | .error e => (.error e, s)
      | .ok before =>
        match f before with
        | .error e => (.error e, s)
        | .ok h => (writeHistory name h).run.run s := by
  have hhistory := run_history hname (Eq.refl (s.readHistory name))
  cases hread : s.readHistory name with
  | error e =>
      rw [hread] at hhistory
      exact run_bind_of_error hhistory
  | ok before =>
      rw [hread] at hhistory
      rw [run_bind_of_ok hhistory]
      dsimp only
      cases hf : f before with
      | error e => exact run_bind_of_error (run_lift_of_error rfl s)
      | ok h => exact run_bind_of_ok (run_lift_of_ok rfl s)

theorem run_change {f : History → Except Fault History} {x : Storing FileStore Unit} (hs : s.Free name)
    (hname : Store.isName name)
    (hx : x.run.run (s.held name) = (history name >>= fun before =>
      liftM (f before) >>= writeHistory name : Storing FileStore Unit).run.run (s.held name)) :
    ∃ result s', (locked name x).run.run s = (result, s') ∧ Changed s name f result s' := by
  by_cases hfit : (lockFile name).utf8ByteSize ≤ Files.longestName
  -- What fails under the lock leaves the store as it was with the lock.
  · have hkept {e : Fault} (hfailed : x.run.run (s.held name) = (.error e, s.held name)) :
        (locked name x).run.run s = (.error e, s) := by
      rw [run_locked hs.unlocked hfit hfailed rfl (Files.at?_set_self ..)]
      exact congrArg (Prod.mk _) hs.unlocked.erase_held
    rw [run_rewrite hname, hs.unlocked.readHistory_held] at hx
    cases hread : s.readHistory name with
    | error e =>
        rw [hread] at hx
        exact ⟨_, _, hkept hx, .unreadable hread⟩
    | ok before =>
        rw [hread] at hx
        cases hf : f before with
        | error e =>
            simp only [hf] at hx
            exact ⟨_, _, hkept hx, .refused hread hf⟩
        | ok h =>
            simp only [hf] at hx
            rcases hs.run_writeHistory_held h with ⟨files, hrun, hlock, hwrote⟩ | ⟨hlong, hrun⟩
            · exact ⟨_, _, run_locked hs.unlocked hfit (hx.trans hrun) rfl hlock, .wrote hread hf hwrote⟩
            · exact ⟨_, _, hkept (hx.trans hrun), .long hlong⟩
  · have hlong := Nat.lt_of_not_le hfit
    refine ⟨_, _, run_bind_of_error (run_lock_of_long hs.unlocked hlong), .long ?_⟩
    rw [utf8ByteSize_lockFile] at hlong
    rw [utf8ByteSize_besideFile]
    omega

theorem run_put {v : Version} (hs : s.Free v.name) (hname : Store.isName v.name) :
    ∃ result s', (Store.put v : Storing FileStore Unit).run.run s = (result, s') ∧
      Changed s v.name (fun h => .ok (h.put v)) result s' := by
  change ∃ result s', (put v).run.run s = (result, s') ∧ _
  rw [put, run_bind_of_ok (run_lift_of_ok (Store.checkName_of_isName hname) s)]
  refine run_change hs hname (congrArg (fun x : Storing FileStore Unit => x.run.run (s.held v.name)) ?_)
  exact bind_congr fun before => (pure_bind (before.put v) (writeHistory v.name)).symm

theorem run_swap {writes : List Version} (hs : s.Free name) (hname : Store.isName name)
    (hnamed : ∀ w ∈ writes, w.name = name) (expected : Option Version) :
    ∃ result s', (Store.swap name expected writes : Storing FileStore Unit).run.run s = (result, s') ∧
      Changed s name (Store.swapped s.high name expected writes) result s' := by
  change ∃ result s', (swap name expected writes).run.run s = (result, s') ∧ _
  rw [swap, run_bind_of_ok (run_lift_of_ok (Store.checkName_of_isName hname) s),
    run_bind_of_ok (run_lift_of_ok (Store.checkWrites_of_forall hnamed) s)]
  exact run_change hs hname rfl

theorem run_swap_of_not_isName (hname : Store.isName name = false) (expected : Option Version)
    (writes : List Version) :
    (Store.swap name expected writes : Storing FileStore Unit).run.run s = (.error (unnamable name), s) := by
  change (swap name expected writes).run.run s = _
  rw [swap, run_bind_of_error (run_lift_of_error (checkName_of_not_isName hname) s)]

theorem run_swap_of_swapped {expected : Option Version} {writes : List Version} {before : History}
    (hs : s.Writable name) (hname : Store.isName name) (hnamed : ∀ w ∈ writes, w.name = name)
    (hread : s.readHistory name = .ok before) (hswap : Store.swapped s.high name expected writes before = .ok h) :
    ∃ s', (Store.swap name expected writes : Storing FileStore Unit).run.run s = (.ok (), s') ∧
      Wrote s name h s' := by
  obtain ⟨result, s', hrun, hchanged⟩ := run_swap hs.toFree hname hnamed expected
  refine ⟨s', ?_⟩
  cases hchanged with
  | @wrote before' h' _ hread' hf hw =>
      rw [hread] at hread'
      cases hread'
      rw [hswap] at hf
      cases hf
      exact ⟨hrun, hw⟩
  | refused hread' hf =>
      rw [hread] at hread'
      cases hread'
      rw [hswap] at hf
      cases hf
  | unreadable hread' =>
      rw [hread] at hread'
      cases hread'
  | long hlong => exact absurd hs.short (Nat.not_le.mpr hlong)

-- Where there are histories and nothing else, nothing is in the way of any file.
theorem free_of_entries (hdir : s.files.at? s.dir = some .directory)
    (hentries : ∀ file, s.files.at? (file :: s.dir) ≠ none → ∃ name, file = historyFile name)
    (hfile : s.files.at? (historyFile name :: s.dir) ≠ some .directory) : s.Free name := by
  have hnothing {file : String} (h : file.toList.getLast? ≠ some 'n') : s.files.at? (file :: s.dir) = none := by
    by_contra hsome
    obtain ⟨other, rfl⟩ := hentries file hsome
    exact h (by simp [historyFile])
  exact ⟨hdir, hfile, hnothing (by simp [besideFile]), hnothing (by simp [lockFile])⟩

namespace Wrote

theorem at?_dir (hw : Wrote s name h s') : s'.files.at? s.dir = s.files.at? s.dir :=
  hw.others _ (s.dir_notMem_places name)

theorem at?_historyFile_of_ne (hw : Wrote s name h s') (hne : other ≠ name) :
    s'.files.at? (historyFile other :: s.dir) = s.files.at? (historyFile other :: s.dir) :=
  hw.others _ (s.disjoint_places hne _ (by simp [places]))

-- Nothing but the history is new.
theorem of_at?_ne_none {file : String} (hw : Wrote s name h s') (hsome : s'.files.at? (file :: s.dir) ≠ none) :
    file = historyFile name ∨ s.files.at? (file :: s.dir) ≠ none := by
  by_cases hplace : file :: s.dir ∈ s.places name
  · simp only [places, List.mem_cons, List.cons.injEq, and_true, List.not_mem_nil, or_false] at hplace
    rcases hplace with rfl | rfl | rfl
    · exact .inl rfl
    · exact (hsome hw.beside).elim
    · exact (hsome hw.lock).elim
  · rw [hw.others _ hplace] at hsome
    exact .inr hsome

-- The other names can be written and read as before.
theorem free (hw : Wrote s name h s') (hne : other ≠ name) (hs : s.Free other) : s'.Free other := by
  have hplaces := s.disjoint_places hne
  simp only [places, List.forall_mem_cons] at hplaces
  obtain ⟨hhistory, hbeside, hlock, -⟩ := hplaces
  refine ⟨?_, ?_, ?_, ?_⟩ <;> rw [hw.dir]
  · rw [hw.at?_dir, hs.dir]
  · rw [hw.others _ hhistory]
    exact hs.history
  · rw [hw.others _ hbeside, hs.beside]
  · rw [hw.others _ hlock, hs.lock]

theorem free_self (hw : Wrote s name h s') (hs : s.Free name) : s'.Free name := by
  refine ⟨?_, ?_, ?_, ?_⟩ <;> rw [hw.dir]
  · rw [hw.at?_dir, hs.dir]
  · rw [hw.history]
    simp
  · exact hw.beside
  · exact hw.lock

theorem writable (hw : Wrote s name h s') (hne : other ≠ name) (hs : s.Writable other) : s'.Writable other :=
  ⟨hw.free hne hs.toFree, hs.short⟩

theorem writable_self (hw : Wrote s name h s') (hs : s.Writable name) : s'.Writable name :=
  ⟨hw.free_self hs.toFree, hs.short⟩

theorem readHistory_of_ne (hw : Wrote s name h s') (hs : s.files.at? s.dir = some .directory)
    (hne : other ≠ name) : s'.readHistory other = s.readHistory other := by
  refine readHistory_congr hw.dir hs ?_ (hw.at?_historyFile_of_ne hne)
  rw [hw.at?_dir, hs]

-- What was written is read back.
theorem readHistory_self (hw : Wrote s name h s') (hdated : ∀ v ∈ h, v.Dated) :
    s'.readHistory name = (h.mapM Version.reread?).elim (.error (unreadable name)) .ok := by
  have hfile := hw.history
  rw [← hw.dir] at hfile
  rw [readHistory_of_file hfile, History.ofJson?_toJson hdated]

end Wrote

end ScraperTimeline.FileStore
