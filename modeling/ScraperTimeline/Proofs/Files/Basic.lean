import ScraperTimeline.Files.Basic
import ScraperTimeline.Proofs.Effect

/-!
What is at a place after a change of the files.
-/
namespace ScraperTimeline.Files

variable {fs fs' : Files} {p q : Path} {e : Entry} {name text : String} {dir : Path}

theorem lookup_filter_of_ne (h : q ≠ p) (entries : List (Path × Entry)) :
    (entries.filter (·.1 ≠ p)).lookup q = entries.lookup q := by
  induction entries with
  | nil => rfl
  | cons entry rest ih =>
      obtain ⟨place, e⟩ := entry
      by_cases hplace : place = p
      · subst hplace
        have hne : (q == place) = false := by simpa using h
        simp [List.lookup_cons, hne, ← ih]
      · simp only [ne_eq, hplace, not_false_eq_true, decide_true, List.filter_cons_of_pos,
          List.lookup_cons]
        rw [← ih]

theorem lookup_filter_self (p : Path) (entries : List (Path × Entry)) :
    (entries.filter (·.1 ≠ p)).lookup p = none := by
  rw [List.lookup_eq_none_iff]
  intro entry hentry
  have hne : entry.1 ≠ p := by simpa using (List.mem_filter.mp hentry).2
  simpa using Ne.symm hne

@[simp] theorem at?_set_self (name : String) (dir : Path) (e : Entry) (fs : Files) :
    (fs.set (name :: dir) e).at? (name :: dir) = some e := by
  simp [at?, set]

theorem at?_set_of_ne (h : q ≠ p) (e : Entry) (fs : Files) : (fs.set p e).at? q = fs.at? q := by
  have hne : (q == p) = false := by simpa using h
  rw [at?, at?, set, List.lookup_cons, hne]
  rw [lookup_filter_of_ne h]

@[simp] theorem at?_erase_self (name : String) (dir : Path) (fs : Files) :
    (fs.erase (name :: dir)).at? (name :: dir) = none := by
  rw [at?, if_neg (by simp), erase, lookup_filter_self]

theorem at?_erase_of_ne (h : q ≠ p) (fs : Files) : (fs.erase p).at? q = fs.at? q := by
  rw [at?, at?, erase, lookup_filter_of_ne h]

-- There is nothing below a directory that has no entries.
theorem at?_of_children_nil (h : fs.children dir = []) : fs.at? (name :: dir) = none := by
  rw [at?, if_neg (by simp), List.lookup_eq_none_iff]
  rintro ⟨place, e⟩ hentry
  rw [bne_iff_ne]
  rintro rfl
  simpa using List.filterMap_eq_nil_iff.mp h _ hentry

-- What is made where nothing was and taken away again leaves nothing behind.
theorem erase_set_self (h : fs.at? (name :: dir) = none) (e : Entry) :
    (fs.set (name :: dir) e).erase (name :: dir) = fs := by
  have hkept : fs.entries.filter (·.1 ≠ name :: dir) = fs.entries := by
    rw [List.filter_eq_self]
    rw [at?, if_neg (by simp), List.lookup_eq_none_iff] at h
    intro entry hentry
    simpa using (bne_iff_ne.mp (h entry hentry)).symm
  obtain ⟨entries, current⟩ := fs
  simp only [erase, set, List.filter_cons, ne_eq, not_true, decide_false, Bool.false_eq_true, if_false,
    List.filter_filter, Bool.and_self, Files.mk.injEq, and_true]
  exact hkept

/-! ### Entries of a directory -/

theorem children_erase (name : String) (dir : Path) (fs : Files) :
    (fs.erase (name :: dir)).children dir = (fs.children dir).filter (·.1 ≠ name) := by
  rw [children, children, erase, List.filterMap_filter, List.filter_filterMap]
  congr 1
  funext ⟨p, e⟩
  cases p with
  | nil => simp
  | cons file place => by_cases hplace : place = dir <;> simp [hplace, Option.filter]

theorem children_set (name : String) (dir : Path) (e : Entry) (fs : Files) :
    (fs.set (name :: dir) e).children dir = (name, e) :: (fs.children dir).filter (·.1 ≠ name) := by
  rw [← children_erase]
  simp [children, set, erase]

theorem mem_children_iff : name ∈ (fs.children dir).map (·.1) ↔ fs.at? (name :: dir) ≠ none := by
  rw [at?, if_neg (by simp), ← Option.isSome_iff_ne_none, List.lookup_isSome_iff]
  simp only [children, List.mem_map, List.mem_filterMap]
  constructor
  · rintro ⟨child, ⟨⟨p, e⟩, hentry, hplace⟩, rfl⟩
    refine ⟨(p, e), hentry, ?_⟩
    cases p with
    | nil => cases hplace
    | cons file place =>
        dsimp only at hplace
        split at hplace
        · cases hplace
          simp_all
        · cases hplace
  · rintro ⟨⟨p, e⟩, hentry, hplace⟩
    obtain rfl : name :: dir = p := by simpa using hplace
    exact ⟨(name, e), ⟨_, hentry, by simp⟩, rfl⟩

-- No name is twice in a directory.
def Listed (fs : Files) (dir : Path) : Prop := ((fs.children dir).map (·.1)).Nodup

theorem Listed.erase (h : fs.Listed dir) (name : String) : (fs.erase (name :: dir)).Listed dir := by
  rw [Listed, children_erase]
  exact h.sublist (List.filter_sublist.map _)

theorem Listed.set (h : fs.Listed dir) (name : String) (e : Entry) :
    (fs.set (name :: dir) e).Listed dir := by
  rw [Listed, children_set, List.map_cons, List.nodup_cons]
  refine ⟨?_, h.sublist (List.filter_sublist.map _)⟩
  simp

theorem read_of_at? (h : fs.at? p = some (.file (some text))) : fs.read p = .ok text := by
  rw [read, h]

-- A place in a directory that is there, with a name that is not too long.
theorem room_of_directory (hdir : fs.at? dir = some .directory) (hname : name.utf8ByteSize ≤ longestName) :
    fs.room (name :: dir) = .ok () := by
  rw [room, hdir]
  exact if_neg (Nat.not_lt.mpr hname)

theorem read_of_missing (hdir : fs.at? dir = some .directory) (hname : name.utf8ByteSize ≤ longestName)
    (h : fs.at? (name :: dir) = none) : fs.read (name :: dir) = .error .notFound := by
  rw [read, h, absence, room_of_directory hdir hname]

/-! ### Operations -/

-- A place in a directory that is there, with a name that is too long.
theorem room_of_long (hdir : fs.at? dir = some .directory) (hname : longestName < name.utf8ByteSize) :
    fs.room (name :: dir) = .error .nameTooLong := by
  rw [room, hdir]
  exact if_pos hname

theorem run_create_of_long (hdir : fs.at? dir = some .directory) (hname : longestName < name.utf8ByteSize)
    (h : fs.at? (name :: dir) = none) :
    (create (name :: dir) text).run.run fs = (.error .nameTooLong, fs) := by
  rw [create, run_get_bind, h]
  dsimp only
  rw [run_get_bind, room_of_long hdir hname]
  rfl

theorem run_ensure (h : fs.at? p = some .directory) : (ensure p).run.run fs = (.ok (), fs) := by
  cases p with
  | nil => rfl
  | cons name dir =>
      rw [ensure, run_get_bind, h]
      rfl

theorem run_create (hdir : fs.at? dir = some .directory) (hname : name.utf8ByteSize ≤ longestName)
    (h : fs.at? (name :: dir) = none) :
    (create (name :: dir) text).run.run fs = (.ok (), fs.set (name :: dir) (.file (some text))) := by
  rw [create, run_get_bind, h]
  dsimp only
  rw [run_get_bind, room_of_directory hdir hname]
  rfl

theorem run_remove {old : Option String} (h : fs.at? p = some (.file old)) :
    (remove p).run.run fs = (.ok (), fs.erase p) := by
  rw [remove, run_get_bind, h]
  rfl

-- A file that is there is overwritten, another one is made if there is room.
theorem run_write (hdir : fs.at? dir = some .directory) (hname : name.utf8ByteSize ≤ longestName)
    (h : fs.at? (name :: dir) ≠ some .directory) :
    (write (name :: dir) text).run.run fs = (.ok (), fs.set (name :: dir) (.file (some text))) := by
  rw [write, run_get_bind]
  cases hat : fs.at? (name :: dir) with
  | none =>
      dsimp only
      rw [run_get_bind, room_of_directory hdir hname]
      rfl
  | some e =>
      cases e with
      | directory => exact (h hat).elim
      | file old => rfl

theorem run_rename {source : Path} {old : Option String} (hdir : fs.at? dir = some .directory)
    (hname : name.utf8ByteSize ≤ longestName) (hsource : fs.at? source = some (.file old))
    (h : fs.at? (name :: dir) ≠ some .directory) :
    (rename source (name :: dir)).run.run fs =
      (.ok (), (fs.erase source).set (name :: dir) (.file old)) := by
  rw [rename, run_get_bind, run_get_bind, hsource]
  cases hat : fs.at? (name :: dir) with
  | none =>
      dsimp only
      rw [run_get_bind, room_of_directory hdir hname]
      rfl
  | some e =>
      cases e with
      | directory => exact (h hat).elim
      | file old => rfl

theorem place_ne_beside (name : String) (dir : Path) : name :: dir ≠ (name ++ ".tmp") :: dir := by
  intro heq
  have hbytes := congrArg String.utf8ByteSize (List.cons.inj heq).1
  rw [String.utf8ByteSize_append] at hbytes
  simp at hbytes

-- A file that is written as a whole is there, the one beside it no more, and nothing else has changed.
theorem run_replace (hdir : fs.at? dir = some .directory)
    (hname : (name ++ ".tmp").utf8ByteSize ≤ longestName)
    (hbeside : fs.at? ((name ++ ".tmp") :: dir) ≠ some .directory)
    (h : fs.at? (name :: dir) ≠ some .directory) (text : String) :
    ∃ fs', (replace (name :: dir) text).run.run fs = (.ok (), fs') ∧
      fs'.at? (name :: dir) = some (.file (some text)) ∧ fs'.at? ((name ++ ".tmp") :: dir) = none ∧
      (∀ q, q ≠ name :: dir → q ≠ (name ++ ".tmp") :: dir → fs'.at? q = fs.at? q) ∧
      (fs.Listed dir → fs'.Listed dir) := by
  have hne := place_ne_beside name dir
  have hfit : name.utf8ByteSize ≤ longestName := by
    rw [String.utf8ByteSize_append] at hname
    omega
  have hwrite : (write _ text).run.run fs = _ := run_write hdir hname hbeside
  have hkeep : ∀ q, q ≠ (name ++ ".tmp") :: dir →
      (fs.set ((name ++ ".tmp") :: dir) (.file (some text))).at? q = fs.at? q :=
    fun q hq => at?_set_of_ne hq _ fs
  have hdirs : dir ≠ (name ++ ".tmp") :: dir := (List.cons_ne_self _ _).symm
  have hrename : (rename ((name ++ ".tmp") :: dir) (name :: dir)).run.run
      (fs.set ((name ++ ".tmp") :: dir) (.file (some text))) = _ :=
    run_rename ((hkeep dir hdirs).trans hdir) hfit (at?_set_self ..) (by rwa [hkeep _ hne])
  have hrun : (replace (name :: dir) text).run.run fs = _ :=
    (run_bind_of_ok (run_ensure hdir)).trans ((run_bind_of_ok hwrite).trans hrename)
  refine ⟨_, hrun, at?_set_self .., ?_, fun q hq hq' => ?_, fun hlisted => ((hlisted.set ..).erase _).set ..⟩
  · rw [at?_set_of_ne hne.symm, at?_erase_self]
  · rw [at?_set_of_ne hq, at?_erase_of_ne hq', hkeep q hq']

theorem run_replace_of_long (hdir : fs.at? dir = some .directory)
    (hname : longestName < (name ++ ".tmp").utf8ByteSize) (h : fs.at? ((name ++ ".tmp") :: dir) = none)
    (text : String) : (replace (name :: dir) text).run.run fs = (.error .nameTooLong, fs) := by
  have hwrite : (write ((name ++ ".tmp") :: dir) text).run.run fs = (.error .nameTooLong, fs) := by
    rw [write, run_get_bind, h]
    dsimp only
    rw [run_get_bind, room_of_long hdir hname]
    rfl
  exact (run_bind_of_ok (run_ensure hdir)).trans (run_bind_of_error hwrite)

/-! ### Ways in which operations end -/

-- An operation on one place or two that fails has changed nothing.
theorem create_cases (name : String) (dir : Path) (text : String) (fs : Files) :
    (∃ e, (create (name :: dir) text).run.run fs = (.error e, fs)) ∨
      (fs.room (name :: dir) = .ok () ∧ fs.at? (name :: dir) = none ∧
        (create (name :: dir) text).run.run fs = (.ok (), fs.set (name :: dir) (.file (some text)))) := by
  rw [create, run_get_bind]
  cases hat : fs.at? (name :: dir) with
  | some e => exact .inl ⟨_, rfl⟩
  | none =>
      dsimp only
      rw [run_get_bind]
      cases hroom : fs.room (name :: dir) with
      | error e => exact .inl ⟨e, run_bind_of_error (run_lift_of_error rfl fs)⟩
      | ok => exact .inr ⟨rfl, rfl, run_bind_of_ok (run_lift_of_ok rfl fs)⟩

theorem write_cases (p : Path) (text : String) (fs : Files) :
    (∃ e, (write p text).run.run fs = (.error e, fs)) ∨
      (fs.at? p ≠ some .directory ∧ (write p text).run.run fs = (.ok (), fs.set p (.file (some text)))) := by
  rw [write, run_get_bind]
  cases hat : fs.at? p with
  | none =>
      dsimp only
      rw [run_get_bind]
      cases hroom : fs.room p with
      | error e => exact .inl ⟨e, run_bind_of_error (run_lift_of_error rfl fs)⟩
      | ok => exact .inr ⟨by simp, run_bind_of_ok (run_lift_of_ok rfl fs)⟩
  | some e =>
      cases e with
      | directory => exact .inl ⟨_, rfl⟩
      | file old => exact .inr ⟨by simp, rfl⟩

theorem rename_cases (source target : Path) (fs : Files) :
    (∃ e, (rename source target).run.run fs = (.error e, fs)) ∨
      ∃ e, fs.at? source = some e ∧ fs.at? target ≠ some .directory ∧
        (rename source target).run.run fs = (.ok (), (fs.erase source).set target e) := by
  rw [rename, run_get_bind, run_get_bind]
  cases hsource : fs.at? source with
  | none => exact .inl ⟨_, rfl⟩
  | some e =>
      cases htarget : fs.at? target with
      | none =>
          dsimp only
          rw [run_get_bind]
          cases hroom : fs.room target with
          | error e => exact .inl ⟨e, run_bind_of_error (run_lift_of_error rfl fs)⟩
          | ok => exact .inr ⟨e, rfl, by simp, run_bind_of_ok (run_lift_of_ok rfl fs)⟩
      | some old =>
          cases old with
          | directory => exact .inl ⟨_, rfl⟩
          | file text => exact .inr ⟨e, rfl, by simp, rfl⟩

-- Writing a file as a whole has to do with its place and the one beside it, also where it fails.
theorem exists_run_replace_of_directory (hdir : fs.at? dir = some .directory) (name text : String) :
    ∃ result fs', (replace (name :: dir) text).run.run fs = (result, fs') ∧
      ∀ q, q ≠ name :: dir → q ≠ (name ++ ".tmp") :: dir → fs'.at? q = fs.at? q := by
  rw [replace, run_bind_of_ok (run_ensure hdir)]
  rcases write_cases ((name ++ ".tmp") :: dir) text fs with ⟨e, hwrite⟩ | ⟨-, hwrite⟩
  · exact ⟨_, _, run_bind_of_error hwrite, fun _ _ _ => rfl⟩
  rw [run_bind_of_ok hwrite]
  rcases rename_cases ((name ++ ".tmp") :: dir) (name :: dir) (fs.set _ (.file (some text)))
    with ⟨e, hrename⟩ | ⟨moved, -, -, hrename⟩
  · exact ⟨_, _, hrename, fun q _ hq' => at?_set_of_ne hq' _ fs⟩
  · refine ⟨_, _, hrename, fun q hq hq' => ?_⟩
    rw [at?_set_of_ne hq, at?_erase_of_ne hq', at?_set_of_ne hq']

-- What was written as a whole is there.
theorem at?_of_run_replace (h : (replace (name :: dir) text).run.run fs = (.ok (), fs')) :
    fs'.at? (name :: dir) = some (.file (some text)) := by
  obtain ⟨_, fs₁, -, h⟩ := exists_of_run_bind h
  obtain ⟨_, fs₂, hwrite, h⟩ := exists_of_run_bind h
  rcases write_cases ((name ++ ".tmp") :: dir) text fs₁ with ⟨e, hfailed⟩ | ⟨-, hwritten⟩
  · cases hfailed.symm.trans hwrite
  cases hwritten.symm.trans hwrite
  rcases rename_cases ((name ++ ".tmp") :: dir) (name :: dir) (fs₁.set _ (.file (some text)))
    with ⟨e, hfailed⟩ | ⟨moved, hmoved, -, hrename⟩
  · cases hfailed.symm.trans h
  cases hrename.symm.trans h
  rw [at?_set_self] at hmoved ⊢
  exact hmoved.symm

-- There is room for an entry only in a directory.
theorem directory_of_room (h : fs.room (name :: dir) = .ok ()) :
    fs.at? dir = some .directory ∧ name.utf8ByteSize ≤ longestName := by
  rw [room] at h
  split at h
  next hdir =>
    refine ⟨hdir, ?_⟩
    split at h
    next => cases h
    next hname => exact Nat.le_of_not_lt hname
  next => cases h
  next =>
    obtain ⟨_, -, h⟩ := exists_of_bind h
    cases h

-- A file whose place can be written is replaced, or nothing has changed.
theorem eq_of_run_replace_error {failure : FileFault} (hdir : fs.at? dir = some .directory)
    (hname : name.utf8ByteSize ≤ longestName) (hplace : fs.at? (name :: dir) ≠ some .directory)
    (h : (replace (name :: dir) text).run.run fs = (.error failure, fs')) : fs' = fs := by
  have hne := place_ne_beside name dir
  have hdirs : dir ≠ (name ++ ".tmp") :: dir := (List.cons_ne_self _ _).symm
  rw [replace, run_bind_of_ok (run_ensure hdir)] at h
  rcases write_cases ((name ++ ".tmp") :: dir) text fs with ⟨e, hwrite⟩ | ⟨-, hwrite⟩
  · cases (run_bind_of_error hwrite).symm.trans h
    rfl
  -- The file beside it is there now, so nothing keeps it from its place.
  · rw [run_bind_of_ok hwrite] at h
    have hrename : (rename ((name ++ ".tmp") :: dir) (name :: dir)).run.run
        (fs.set ((name ++ ".tmp") :: dir) (.file (some text))) = _ :=
      run_rename ((at?_set_of_ne hdirs _ fs).trans hdir) hname (at?_set_self ..)
        (by rwa [at?_set_of_ne hne])
    cases hrename.symm.trans h

end ScraperTimeline.Files
