import ScraperTimeline.Proofs.Timeline.Interchange
import ScraperTimeline.Proofs.Timeline.Undisturbed

/-!
What a run will tell, told without writing. What comes of a version depends on the history of its name
alone, and what is written for the versions before it is in other places.
-/
namespace ScraperTimeline

open FileStore Sync

variable {high : Instant} {name other : String} {new : Version} {vs : List Version} {s s' : FileStore}
  {settings : Settings}

namespace Sync

-- What comes of a version if the swap goes well.
def Finding.result : Finding → Except Fault Outcome
  | .ended a => a.result
  | .swap p => .ok p.outcome

end Sync

namespace FileStore

-- What the history of its name says of a version.
def outlook (high : Instant) (s : FileStore) (new : Version) : Except Fault Outcome :=
  (Finding.ofRead high new (s.openOf new.name)).result

theorem outlook_eq (high : Instant) (s : FileStore) (new : Version) :
    s.outlook high new = (s.openOf new.name).bind fun seen => (plan high new seen).map Prod.fst := by
  rw [outlook]
  cases hopen : s.openOf new.name with
  | error e => rfl
  | ok seen =>
      rw [Finding.ofRead]
      change _ = (plan high new seen).map Prod.fst
      cases plan high new seen with
      | error e => rfl
      | ok planned =>
          obtain ⟨outcome, writes⟩ := planned
          cases writes <;> rfl

-- What the histories say of versions, up to the first that fails.
def prospect (high : Instant) (s : FileStore) (vs : List Version) : Except Fault Report :=
  vs.mapM fun new => (s.outlook high new).map (new.name, ·)

section
variable {rest : List Version}

theorem prospect_cons_of_ok {outcome : Outcome} (h : s.outlook high new = .ok outcome) :
    s.prospect high (new :: rest) = (s.prospect high rest).map ((new.name, outcome) :: ·) := by
  rw [prospect, List.mapM_cons, h, prospect]
  cases rest.mapM fun new => (s.outlook high new).map (new.name, ·) <;> rfl

theorem prospect_cons_of_error {e : Fault} (h : s.outlook high new = .error e) :
    s.prospect high (new :: rest) = .error e := by
  rw [prospect, List.mapM_cons, h]
  rfl

end

theorem prospect_congr (h : ∀ v ∈ vs, s'.openOf v.name = s.openOf v.name) :
    s'.prospect high vs = s.prospect high vs := by
  induction vs with
  | nil => rfl
  | cons new rest ih =>
      obtain ⟨hnew, hrest⟩ := List.forall_mem_cons.mp h
      have houtlook : s'.outlook high new = s.outlook high new := by rw [outlook, outlook, hnew]
      cases hnext : s.outlook high new with
      | error e => rw [prospect_cons_of_error hnext, prospect_cons_of_error (houtlook.trans hnext)]
      | ok outcome => rw [prospect_cons_of_ok hnext, prospect_cons_of_ok (houtlook.trans hnext), ih hrest]

end FileStore

/-! ### The run that writes nothing -/

namespace Sync

theorem run_foresee_one (high : Instant) (new : Version) (s : FileStore) :
    (do
      let (outcome, _) ← plan high new (← Store.findOpen new.name)
      return (new.name, outcome) : Storing FileStore (String × Outcome)).run.run s =
        ((s.outlook high new).map (new.name, ·), s) := by
  have hread := s.run_findOpen_openOf new.name
  rw [outlook_eq]
  cases hopen : s.openOf new.name with
  | error e =>
      rw [hopen] at hread
      exact run_bind_of_error hread
  | ok seen =>
      rw [hopen] at hread
      rw [run_bind_of_ok hread]
      change _ = (((plan high new seen).map Prod.fst).map (new.name, ·), s)
      cases hplan : plan high new seen with
      | error e => exact run_bind_of_error (run_lift_of_error rfl s)
      | ok planned => exact run_bind_of_ok (run_lift_of_ok rfl s)

theorem run_foresee (high : Instant) (vs : List Version) (s : FileStore) :
    (foresee high vs : Storing FileStore Report).run.run s = (s.prospect high vs, s) := by
  induction vs with
  | nil => rfl
  | cons new rest ih =>
      have hnew := run_foresee_one high new s
      rw [foresee, List.mapM_cons]
      cases houtlook : s.outlook high new with
      | error e =>
          rw [houtlook] at hnew
          rw [prospect_cons_of_error houtlook]
          exact run_bind_of_error hnew
      | ok outcome =>
          rw [houtlook] at hnew
          rw [prospect_cons_of_ok houtlook, run_bind_of_ok hnew]
          cases hrest : s.prospect high rest with
          | error e =>
              rw [hrest] at ih
              exact run_bind_of_error ih
          | ok report =>
              rw [hrest] at ih
              exact run_bind_of_ok ih

end Sync

/-! ### The run that writes -/

namespace FileStore

-- The same store but for the places of a name.
structure Apart (s : FileStore) (name : String) (s' : FileStore) : Prop where
  dir : s'.dir = s.dir
  high : s'.high = s.high
  others : ∀ p, p ∉ s.places name → s'.files.at? p = s.files.at? p

theorem Apart.refl (s : FileStore) (name : String) : s.Apart name s := ⟨rfl, rfl, fun _ _ => rfl⟩

theorem Apart.at?_dir (h : s.Apart name s') : s'.files.at? s.dir = s.files.at? s.dir :=
  h.others _ (s.dir_notMem_places name)

theorem Apart.unlocked (h : s.Apart name s') (hne : other ≠ name) (hs : s.Unlocked other) :
    s'.Unlocked other := by
  refine ⟨?_, ?_⟩ <;> rw [h.dir]
  · rw [h.at?_dir, hs.dir]
  · rw [h.others _ (s.disjoint_places hne _ (by simp [places])), hs.lock]

theorem Apart.openOf_eq (h : s.Apart name s') (hs : s.files.at? s.dir = some .directory)
    (hne : other ≠ name) : s'.openOf other = s.openOf other :=
  openOf_congr h.high (readHistory_congr h.dir hs (h.at?_dir.trans hs)
    (h.others _ (s.disjoint_places hne _ (by simp [places]))))

-- A history that is written under its lock, or is not because the files fail.
theorem exists_run_writeHistory_held (hs : s.Unlocked name) (h : History) :
    ∃ result files, (writeHistory name h).run.run (s.held name) = (result, { s.held name with files }) ∧
      (result = .ok () ∨ FilesFailed result) ∧
      ∀ q, q ≠ historyFile name :: s.dir → q ≠ besideFile name :: s.dir →
        files.at? q = (s.held name).files.at? q := by
  have hdir : (s.held name).files.at? (s.held name).dir = some .directory := hs.held_at?_dir
  obtain ⟨result, files, hrun, hkept⟩ :=
    Files.exists_run_replace_of_directory hdir (historyFile name) h.toJson
  refine ⟨result.mapError FileFault.toFault, files, ?_, ?_, hkept⟩
  · rw [writeHistory, run_get_bind, filing, run_get_bind, hrun]
    cases result <;> rfl
  · cases result with
    | ok => exact .inl rfl
    | error e => exact .inr ⟨e, rfl⟩

-- A swap that was planned for what was read is made, or the files fail.
theorem exists_run_swap_proposed {p : Proposal} {before : History} (hs : s.Unlocked new.name)
    (hp : Proposed high s new p before) :
    ∃ result s', (Store.swap new.name p.seen p.writes : Storing FileStore Unit).run.run s = (result, s') ∧
      s.Apart new.name s' ∧ (result = .ok () ∨ FilesFailed result) := by
  change ∃ result s', (swap new.name p.seen p.writes).run.run s = (result, s') ∧ _
  rw [swap, run_bind_of_ok (run_lift_of_ok (Store.checkName_of_isName hp.isName) s),
    run_bind_of_ok (run_lift_of_ok (Store.checkWrites_of_forall hp.made.named) s)]
  by_cases hfit : (lockFile new.name).utf8ByteSize ≤ Files.longestName
  · have hhistory : (history new.name).run.run (s.held new.name) = (.ok before, s.held new.name) :=
      run_history hp.isName (hs.readHistory_held.trans hp.read)
    obtain ⟨result, files, hwrite, hresult, hkept⟩ :=
      exists_run_writeHistory_held hs (p.writes.foldl (fun h v => h.put v) before)
    have hbody : (history new.name >>= fun before =>
        liftM (Store.swapped s.high new.name p.seen p.writes before) >>= writeHistory new.name :
          Storing FileStore Unit).run.run (s.held new.name) = (result, { s.held new.name with files }) := by
      rw [run_bind_of_ok hhistory, run_bind_of_ok (run_lift_of_ok hp.swapped _), hwrite]
    have hlock : files.at? (lockFile new.name :: s.dir) = some (.file (some "")) := by
      rw [hkept _ (s.historyFile_ne_lockFile new.name).symm (s.besideFile_ne_lockFile new.name).symm]
      exact Files.at?_set_self ..
    refine ⟨result, _, run_locked hs hfit hbody rfl hlock, ⟨rfl, rfl, fun q hq => ?_⟩, hresult⟩
    simp only [places, List.mem_cons, List.not_mem_nil, or_false, not_or] at hq
    refine (Files.at?_erase_of_ne hq.2.2 files).trans ((hkept q hq.1 hq.2.1).trans ?_)
    exact Files.at?_set_of_ne hq.2.2 _ s.files
  · have hlong := run_lock_of_long hs (Nat.lt_of_not_le hfit)
    exact ⟨_, s, run_bind_of_error hlong, .refl s _, .inr ⟨.nameTooLong, rfl⟩⟩

end FileStore

namespace Sync

variable (settings) in
-- A version alone comes to what the history of its name says, unless the files fail.
theorem run_settle_unlocked (hs : s.Unlocked new.name) (left : Nat) :
    ∃ result s', (settle settings new 0 left).run s = (([], result), s') ∧ s.Apart new.name s' ∧
      (result = s.outlook settings.high new ∨ FilesFailed result) := by
  have hconsult := run_consult_openOf settings.high new s
  rw [outlook]
  cases hfound : Finding.ofRead settings.high new (s.openOf new.name) with
  | ended a => exact ⟨_, s, run_settle_ended hfound left, .refl s _, .inl rfl⟩
  | swap p =>
      obtain ⟨before, hp⟩ := Finding.exists_proposed hfound
      rw [hfound] at hconsult
      obtain ⟨result, s', hrun, hapart, hresult⟩ := exists_run_swap_proposed hs hp
      rcases hresult with rfl | ⟨e, rfl⟩
      · exact ⟨_, s', run_settle_of_swap hconsult hrun (by simp) 0 left, hapart, .inl rfl⟩
      · refine ⟨_, s', run_settle_of_swap hconsult hrun (fun f hf => ?_) 0 left, hapart, .inr ⟨e, rfl⟩⟩
        cases hf
        rfl

variable (settings) in
-- Versions of different names, one after another, come to what the histories said of them at first.
theorem run_apply_unlocked (hs : ∀ v ∈ vs, s.Unlocked v.name)
    (hdistinct : vs.Pairwise fun v w => v.name ≠ w.name) :
    ∃ result s', (apply settings vs).run s = (([], result), s') ∧
      (result = s.prospect settings.high vs ∨ FilesFailed result) := by
  induction vs generalizing s with
  | nil => exact ⟨_, s, rfl, .inl rfl⟩
  | cons new rest ih =>
      obtain ⟨hnew, hrest⟩ := List.forall_mem_cons.mp hs
      obtain ⟨hne, hdistinct⟩ := List.pairwise_cons.mp hdistinct
      obtain ⟨told, next, hsettle, hapart, houtlook⟩ :=
        run_settle_unlocked settings hnew settings.retries
      rcases houtlook with rfl | ⟨e, rfl⟩
      · obtain ⟨result, after, happly, hresult⟩ := ih (s := next)
          (fun v hv => hapart.unlocked (hne v hv).symm (hrest v hv)) hdistinct
        have hprospect : next.prospect settings.high rest = s.prospect settings.high rest :=
          prospect_congr fun v hv => hapart.openOf_eq hnew.dir (hne v hv).symm
        rw [hprospect] at hresult
        cases houtlook : s.outlook settings.high new with
        | error e =>
            rw [houtlook] at hsettle
            exact ⟨_, next, run_apply_of_error hsettle, .inl (prospect_cons_of_error houtlook).symm⟩
        | ok outcome =>
            rw [houtlook] at hsettle
            refine ⟨_, after, run_apply_of_settle hsettle happly, ?_⟩
            rw [prospect_cons_of_ok houtlook]
            rcases hresult with rfl | ⟨e, rfl⟩
            · exact .inl rfl
            · exact .inr ⟨e, rfl⟩
      · exact ⟨_, next, run_apply_of_error hsettle, .inr ⟨e, rfl⟩⟩

end Sync

end ScraperTimeline
