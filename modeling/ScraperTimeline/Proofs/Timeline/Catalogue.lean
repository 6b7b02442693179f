import ScraperTimeline.Proofs.Timeline.Chained
import ScraperTimeline.Proofs.Timeline.Failed
import ScraperTimeline.Proofs.Timeline.Undisturbed

/-!
The names that a store tells. They are those whose history has been changed, and a swap without versions is a
change: it makes a history with nothing in it, whose name is told from then on.
-/
namespace ScraperTimeline

/-! ### Changes -/

-- What has been put into the histories of names, one list for each change.
abbrev Changes := String → List Version → Prop

namespace Changes

variable {changes : Changes} {name other : String} {writes : List Version}

def none : Changes := fun _ _ => False

def add (changes : Changes) (name : String) (writes : List Version) : Changes :=
  fun other ws => changes other ws ∨ other = name ∧ ws = writes

-- The name has been changed.
def Named (changes : Changes) (name : String) : Prop := ∃ writes, changes name writes

-- A version has been put in for the name.
def Filled (changes : Changes) (name : String) : Prop := ∃ writes, writes ≠ [] ∧ changes name writes

theorem named_add : (changes.add name writes).Named other ↔ changes.Named other ∨ other = name := by
  simp [Named, add, exists_or]

theorem filled_add_self : (changes.add name writes).Filled name ↔ changes.Filled name ∨ writes ≠ [] := by
  simp [Filled, add, and_or_left, exists_or]

theorem filled_add_of_ne (hne : other ≠ name) :
    (changes.add name writes).Filled other ↔ changes.Filled other := by
  simp [Filled, add, hne]

theorem Filled.named (h : changes.Filled name) : changes.Named name := by
  obtain ⟨writes, -, hwrites⟩ := h
  exact ⟨writes, hwrites⟩

end Changes

-- What a call puts into the history of which name, if it does.
def Call.change? : Call → Option (String × List Version)
  | .put v => some (v.name, [v])
  | .swap name _ writes => some (name, writes)
  | _ => none

-- The changes among calls and what was answered to them. A call that failed is none.
def Changes.told (told : List (Call × Except Fault Answer)) : Changes := fun name writes =>
  ∃ c answer, (c, .ok answer) ∈ told ∧ c.change? = some (name, writes)

namespace Changes

variable {told : List (Call × Except Fault Answer)} {c : Call} {name : String} {writes : List Version}

theorem told_nil : Changes.told [] = Changes.none := by
  funext name writes
  simp [Changes.told, Changes.none]

theorem told_concat_iff {a : Except Fault Answer} : Changes.told (told ++ [(c, a)]) name writes ↔
    Changes.told told name writes ∨ (∃ answer, a = .ok answer) ∧ c.change? = some (name, writes) := by
  constructor
  · rintro ⟨d, answer, hmem, hchange⟩
    rcases List.mem_append.mp hmem with hmem | hmem
    · exact .inl ⟨d, answer, hmem, hchange⟩
    · cases List.mem_singleton.mp hmem
      exact .inr ⟨⟨answer, rfl⟩, hchange⟩
  · rintro (⟨d, answer, hmem, hchange⟩ | ⟨⟨answer, rfl⟩, hchange⟩)
    · exact ⟨d, answer, List.mem_append_left _ hmem, hchange⟩
    · exact ⟨c, answer, List.mem_append_right _ (List.mem_singleton_self _), hchange⟩

theorem told_concat_of_error (c : Call) (e : Fault) : Changes.told (told ++ [(c, .error e)]) = Changes.told told := by
  funext name writes
  simp [told_concat_iff]

theorem told_concat_of_read (hc : c.change? = .none) (a : Except Fault Answer) :
    Changes.told (told ++ [(c, a)]) = Changes.told told := by
  funext name writes
  simp [told_concat_iff, hc]

theorem told_concat_of_ok (hc : c.change? = some (name, writes)) (answer : Answer) :
    Changes.told (told ++ [(c, .ok answer)]) = (Changes.told told).add name writes := by
  funext other ws
  simp [told_concat_iff, hc, add, eq_comm]

end Changes

/-! ### What a store tells of changes -/

section
variable {σ : Type} [Store σ] {changes : Changes} {s : σ}

-- The names are told that have been changed, each once and in order, and those have versions for which some
-- have been put in.
structure Store.Lists (changes : Changes) (s : σ) : Prop where
  names : ∃ names, (Store.names : Storing σ (List String)).run.run s = (.ok names, s) ∧
    names.Pairwise (· < ·) ∧ ∀ name, name ∈ names ↔ changes.Named name
  found : ∀ name h s', (Store.findAll name : Storing σ History).run.run s = (.ok h, s') →
    (h ≠ [] ↔ changes.Filled name)

-- The names are told, each once and in order, of which versions are found.
def Store.ListsStored (s : σ) : Prop :=
  ∃ names, (Store.names : Storing σ (List String)).run.run s = (.ok names, s) ∧
    names.Pairwise (· < ·) ∧
    ∀ name, name ∈ names ↔ ∃ h, h ≠ [] ∧ (Store.findAll name : Storing σ History).run.run s = (.ok h, s)

-- The history of a name can be read.
def Store.Found (s : σ) (name : String) : Prop :=
  ∃ h, (Store.findAll name : Storing σ History).run.run s = (.ok h, s)

-- A name that has been changed without a version, or with one that cannot be read, is what makes the difference.
theorem Store.Lists.listsStored_iff (hs : Store.Lists changes s) :
    Store.ListsStored s ↔ ∀ name, changes.Named name → changes.Filled name ∧ Store.Found s name := by
  obtain ⟨names, hnames, hsorted, hmem⟩ := hs.names
  constructor
  · rintro ⟨names', hnames', -, hmem'⟩ name hname
    cases hnames.symm.trans hnames'
    obtain ⟨h, hne, hread⟩ := (hmem' name).mp ((hmem name).mpr hname)
    exact ⟨(hs.found name h s hread).mp hne, h, hread⟩
  · refine fun hall => ⟨names, hnames, hsorted, fun name => (hmem name).trans ⟨fun hname => ?_, ?_⟩⟩
    · obtain ⟨hfilled, h, hread⟩ := hall name hname
      exact ⟨h, (hs.found name h s hread).mpr hfilled, hread⟩
    · rintro ⟨h, hne, hread⟩
      exact ((hs.found name h s hread).mp hne).named

theorem Store.Careful.read (hσ : Store.Careful σ) {c : Call} (hc : c.change? = .none) :
    Still (c.run : Storing σ Answer) := by
  cases c with
  | names => exact hσ.names.bind fun _ _ => rfl
  | findAll name => exact (hσ.findAll name).bind fun _ _ => rfl
  | findOpen name => exact (hσ.findOpen name).bind fun _ _ => rfl
  | findActive name t => exact ((hσ.findAll name).bind fun _ _ => rfl).bind fun _ _ => rfl
  | put v => cases hc
  | swap name expected writes => cases hc

-- A change that goes well is one of two calls.
theorem put_or_swap_of_change? {c : Call} {name : String} {writes : List Version} {answer : Answer} {s' : σ}
    (hc : c.change? = some (name, writes)) (hcall : c.run.run.run s = (.ok answer, s')) :
    (∃ v : Version, v.name = name ∧ [v] = writes ∧ (Store.put v : Storing σ Unit).run.run s = (.ok (), s')) ∨
      ∃ expected, (Store.swap name expected writes : Storing σ Unit).run.run s = (.ok (), s') := by
  cases c with
  | names => cases hc
  | findAll name => cases hc
  | findOpen name => cases hc
  | findActive name t => cases hc
  | put v =>
      cases hc
      obtain ⟨_, _, hput, hdone⟩ := exists_of_run_bind hcall
      cases hdone
      exact .inl ⟨v, rfl, rfl, hput⟩
  | swap name expected writes =>
      cases hc
      obtain ⟨_, _, hswap, hdone⟩ := exists_of_run_bind hcall
      cases hdone
      exact .inr ⟨expected, hswap⟩

-- What every change keeps that goes well is kept by any number of calls.
theorem told_answers (hσ : Store.Careful σ) {I : Changes → σ → Prop}
    (hchange : ∀ {changes : Changes} {s s' : σ} {c : Call} {name : String} {writes : List Version} {answer : Answer},
      I changes s → c.change? = some (name, writes) → c.run.run.run s = (.ok answer, s') →
        I (changes.add name writes) s')
    (hI : I .none s) (calls : List Call) :
    I (.told (calls.zip ((answers calls).run s).1)) ((answers calls).run s).2 := by
  -- The induction is on the calls that are left, after others that were told.
  have hrun : ∀ told : List (Call × Except Fault Answer), I (.told told) s →
      I (.told (told ++ calls.zip ((answers calls).run s).1)) ((answers calls).run s).2 := by
    clear hI
    induction calls generalizing s with
    | nil =>
        intro told hI
        rw [List.zip_nil_left, List.append_nil]
        exact hI
    | cons c rest ih =>
        intro told hI
        rw [run_answers_cons, List.zip_cons_cons, ← List.singleton_append, ← List.append_assoc]
        refine ih _ ?_
        rcases hcall : c.run.run.run s with ⟨e | answer, s'⟩
        · obtain rfl := hσ.call c _ _ _ hcall
          rwa [Changes.told_concat_of_error]
        · cases hc : c.change? with
          | none =>
              have hsame := hσ.read hc s
              rw [hcall] at hsame
              obtain rfl : s' = s := hsame
              rwa [Changes.told_concat_of_read hc]
          | some change =>
              rw [Changes.told_concat_of_ok hc]
              exact hchange hI hc hcall
  exact hrun [] (by rwa [Changes.told_nil])

end

theorem Store.pairwise_sortNames {names : List String} (h : names.Nodup) :
    (sortNames names).Pairwise (· < ·) := by
  have hnodup : (sortNames names).Nodup := (List.mergeSort_perm names _).nodup_iff.mpr h
  refine ((ordered_sortNames names).and hnodup).imp fun {a b} ⟨hle, hne⟩ => ?_
  rw [← String.not_le]
  exact fun hge => hne (String.le_antisymm hle hge)

theorem Store.mem_sortNames {names : List String} {name : String} : name ∈ sortNames names ↔ name ∈ names :=
  (List.mergeSort_perm names _).mem_iff

theorem Store.isName_of_checkName {name : String} (h : checkName name = .ok ()) : isName name := by
  rw [checkName] at h
  split at h
  next hname => exact hname
  next => cases h

theorem History.foldl_put_ne_nil_iff {writes : List Version} {h : History} :
    writes.foldl (fun h v => h.put v) h ≠ [] ↔ h ≠ [] ∨ writes ≠ [] := by
  by_cases hne : writes = []
  · simp [hne]
  · simp [hne, foldl_put_ne_nil hne]

/-! ### The store in memory -/

namespace MemoryStore

variable {m m' : MemoryStore} {changes : Changes} {c : Call} {name : String} {writes : List Version}

-- A change that goes well puts its versions in.
theorem run_of_change? {answer : Answer} (hc : c.change? = some (name, writes))
    (hcall : c.run.run.run m = (.ok answer, m')) :
    m' = m.setHistory name (writes.foldl (fun h v => h.put v) (m.history name)) := by
  rcases put_or_swap_of_change? hc hcall with ⟨v, rfl, rfl, hput⟩ | ⟨expected, hswap⟩
  · obtain ⟨_, _, hname, -⟩ := exists_of_run_bind (show (put v).run.run m = _ from hput)
    have hname := Store.isName_of_checkName (eq_ok_of_run_lift hname)
    cases (run_put hname m).symm.trans hput
    rfl
  · obtain ⟨_, _, hname, hrest⟩ := exists_of_run_bind (show (swap name expected writes).run.run m = _ from hswap)
    obtain ⟨_, _, hnamed, -⟩ := exists_of_run_bind hrest
    have hname := Store.isName_of_checkName (eq_ok_of_run_lift hname)
    have hnamed := Store.forall_of_checkWrites (eq_ok_of_run_lift hnamed)
    rw [run_swap hname hnamed] at hswap
    split at hswap
    · cases hswap
      rfl
    · cases hswap

-- Each changed name has an entry, with versions if some have been put in.
structure Catalogue (changes : Changes) (m : MemoryStore) : Prop where
  nodup : (Fields.keys m.histories).Nodup
  entry : ∀ name, name ∈ Fields.keys m.histories ↔ changes.Named name
  history : ∀ name, m.history name ≠ [] ↔ changes.Filled name

namespace Catalogue

theorem empty (high : Instant) : Catalogue .none (.empty high) := by
  refine ⟨.nil, fun name => ?_, fun name => ?_⟩ <;>
    simp [MemoryStore.empty, MemoryStore.history, Fields.keys, Changes.none, Changes.Named, Changes.Filled]

theorem change {answer : Answer} (hm : Catalogue changes m) (hc : c.change? = some (name, writes))
    (hcall : c.run.run.run m = (.ok answer, m')) : Catalogue (changes.add name writes) m' := by
  obtain rfl := run_of_change? hc hcall
  refine ⟨Fields.nodup_keys_put _ _ hm.nodup, fun other => ?_, fun other => ?_⟩
  · rw [Changes.named_add, ← hm.entry]
    exact Fields.mem_keys_put
  · by_cases hother : other = name
    · subst hother
      rw [history_setHistory_self, Changes.filled_add_self, History.foldl_put_ne_nil_iff, hm.history]
    · rw [history_setHistory_of_ne hother, Changes.filled_add_of_ne hother, hm.history]

theorem lists (hm : Catalogue changes m) : Store.Lists changes m := by
  refine ⟨⟨_, rfl, Store.pairwise_sortNames hm.nodup, fun name => Store.mem_sortNames.trans (hm.entry name)⟩, ?_⟩
  rintro name h s' hread
  cases hread
  exact hm.history name

end Catalogue

end MemoryStore

/-! ### The store of files -/

theorem History.length_of_ofJson? {h before : History} (hread : ofJson? h.toJson = some before) :
    before.length = h.length := by
  rw [ofJson?, toJson, Json.read?_toPrettyJson, Json.ofTree, Json.ofItems_eq] at hread
  have hlength := (forall₂_of_mapM hread).length_eq
  simpa using hlength.symm

theorem History.sortByStart_ne_nil_iff {h : History} : sortByStart h ≠ [] ↔ h ≠ [] := by
  rw [ne_eq, ne_eq, ← List.length_eq_zero_iff, sortByStart, List.length_mergeSort, List.length_eq_zero_iff]

namespace FileStore

variable {f f' : FileStore} {changes : Changes} {c : Call} {name : String} {writes : List Version} {h before : History}

-- A change that goes well writes the history that was there with its versions put in.
theorem wrote_of_change? {answer : Answer} (hf : f.Free name) (hc : c.change? = some (name, writes))
    (hcall : c.run.run.run f = (.ok answer, f')) :
    Store.isName name ∧ ∃ before, f.readHistory name = .ok before ∧
      Wrote f name (writes.foldl (fun h v => h.put v) before) f' := by
  have hwrote {g : History → Except Fault History} (hchanged : Changed f name g (.ok ()) f')
      (hg : ∀ before h, g before = .ok h → h = writes.foldl (fun h v => h.put v) before) :
      ∃ before, f.readHistory name = .ok before ∧
        Wrote f name (writes.foldl (fun h v => h.put v) before) f' := by
    cases hchanged with
    | @wrote before h _ hread hh hw => exact ⟨before, hread, hg before h hh ▸ hw⟩
  rcases put_or_swap_of_change? hc hcall with ⟨v, rfl, rfl, hput⟩ | ⟨expected, hswap⟩
  · obtain ⟨_, _, hname, -⟩ := exists_of_run_bind (show (put v).run.run f = _ from hput)
    have hname := Store.isName_of_checkName (eq_ok_of_run_lift hname)
    obtain ⟨result, f'', hrun, hchanged⟩ := run_put hf hname
    cases hrun.symm.trans hput
    exact ⟨hname, hwrote hchanged fun before h hh => (Except.ok.inj hh).symm⟩
  · obtain ⟨_, _, hname, hrest⟩ := exists_of_run_bind (show (swap name expected writes).run.run f = _ from hswap)
    obtain ⟨_, _, hnamed, -⟩ := exists_of_run_bind hrest
    have hname := Store.isName_of_checkName (eq_ok_of_run_lift hname)
    have hnamed := Store.forall_of_checkWrites (eq_ok_of_run_lift hnamed)
    obtain ⟨result, f'', hrun, hchanged⟩ := run_swap hf hname hnamed expected
    cases hrun.symm.trans hswap
    refine ⟨hname, hwrote hchanged fun before h hh => ?_⟩
    rw [Store.swapped] at hh
    split at hh
    · exact (Except.ok.inj hh).symm
    · cases hh

-- All versions of the changes come back when they have been stored.
def Readable (changes : Changes) : Prop := ∀ name writes, changes name writes → ∀ w ∈ writes, w.Legible

-- Each changed name has a file, with versions if some have been put in, and there are no other files.
structure Catalogue (changes : Changes) (f : FileStore) : Prop where
  dir : f.files.at? f.dir = some .directory
  listed : f.files.Listed f.dir
  entries : ∀ file, f.files.at? (file :: f.dir) ≠ none → ∃ name, changes.Named name ∧ file = historyFile name
  named : ∀ name, changes.Named name → Store.isName name
  history : ∀ name, changes.Named name → ∃ h : History,
    f.files.at? (historyFile name :: f.dir) = some (.file (some h.toJson)) ∧
      (h ≠ [] ↔ changes.Filled name) ∧ (Readable changes → ∀ v ∈ h, v.Legible)

namespace Catalogue

theorem empty (hf : f.Empty) : Catalogue .none f := by
  refine ⟨hf.dir, hf.listed, fun file h => (h (hf.missing file)).elim, ?_, ?_⟩
  · rintro name ⟨_, ⟨⟩⟩
  · rintro name ⟨_, ⟨⟩⟩

theorem missing (hf : Catalogue changes f) (hname : ¬changes.Named name) :
    f.files.at? (historyFile name :: f.dir) = none := by
  by_contra hsome
  obtain ⟨other, hother, hfile⟩ := hf.entries _ hsome
  rw [historyFile_inj hfile] at hname
  exact hname hother

theorem free (hf : Catalogue changes f) (name : String) : f.Free name := by
  refine free_of_entries hf.dir (fun file hsome => ?_) ?_
  · obtain ⟨other, -, hother⟩ := hf.entries file hsome
    exact ⟨other, hother⟩
  by_cases hname : changes.Named name
  · obtain ⟨h, hfile, -⟩ := hf.history name hname
    simp [hfile]
  · simp [hf.missing hname]

-- What is read has as many versions as were written.
theorem of_readHistory (hf : Catalogue changes f) (hread : f.readHistory name = .ok before) :
    (before ≠ [] ↔ changes.Filled name) ∧ (Readable changes → ∀ v ∈ before, v.Legible) := by
  by_cases hname : changes.Named name
  · obtain ⟨h, hfile, hfilled, hlegible⟩ := hf.history name hname
    rw [readHistory_of_file hfile] at hread
    cases hjson : History.ofJson? h.toJson with
    | none =>
        rw [hjson] at hread
        cases hread
    | some before' =>
        rw [hjson] at hread
        cases hread
        refine ⟨?_, fun hall => ?_⟩
        · rw [← hfilled, ne_eq, ne_eq, ← List.length_eq_zero_iff, ← List.length_eq_zero_iff,
            History.length_of_ofJson? hjson]
        · rw [History.ofJson?_toJson fun v hv => (hlegible hall v hv).dated] at hjson
          obtain ⟨before', hbefore, hlegible', -⟩ := History.exists_reread (hlegible hall)
          cases hbefore.symm.trans hjson
          exact hlegible'
  · have hnone := hf.missing hname
    obtain rfl := eq_nil_of_readHistory hnone hread
    exact ⟨by simpa using fun hfilled => hname hfilled.named, by simp⟩

theorem change {answer : Answer} (hf : Catalogue changes f) (hc : c.change? = some (name, writes))
    (hcall : c.run.run.run f = (.ok answer, f')) : Catalogue (changes.add name writes) f' := by
  obtain ⟨hname, before, hread, hw⟩ := wrote_of_change? (hf.free name) hc hcall
  obtain ⟨hfilled, hlegible⟩ := hf.of_readHistory hread
  refine ⟨?_, ?_, fun file hsome => ?_, fun other hother => ?_, fun other hother => ?_⟩
  · rw [hw.dir, hw.at?_dir, hf.dir]
  · rw [hw.dir]
    exact hw.listed hf.listed
  · rw [hw.dir] at hsome
    rcases hw.of_at?_ne_none hsome with rfl | hsome
    · exact ⟨name, Changes.named_add.mpr (.inr rfl), rfl⟩
    · obtain ⟨other, hother, rfl⟩ := hf.entries file hsome
      exact ⟨other, Changes.named_add.mpr (.inl hother), rfl⟩
  · rcases Changes.named_add.mp hother with hother | rfl
    · exact hf.named other hother
    · exact hname
  · have hbefore : Readable (changes.add name writes) → Readable changes ∧ ∀ w ∈ writes, w.Legible :=
      fun hall => ⟨fun n ws h => hall n ws (.inl h), hall name writes (.inr ⟨rfl, rfl⟩)⟩
    rw [hw.dir]
    by_cases hsame : other = name
    · subst hsame
      refine ⟨_, hw.history, ?_, fun hall v hv => ?_⟩
      · rw [Changes.filled_add_self, History.foldl_put_ne_nil_iff, hfilled]
      · obtain ⟨hall, hwrites⟩ := hbefore hall
        exact (History.mem_of_mem_foldl_put hv).elim (hwrites v) (hlegible hall v)
    · obtain ⟨h, hfile, hfilled, hlegible⟩ :=
        hf.history other ((Changes.named_add.mp hother).resolve_right hsame)
      refine ⟨h, ?_, ?_, fun hall => hlegible (hbefore hall).1⟩
      · rw [hw.at?_historyFile_of_ne hsame, hfile]
      · rw [Changes.filled_add_of_ne hsame, hfilled]

theorem lists (hf : Catalogue changes f) : Store.Lists changes f := by
  have hfiles : ∀ file ∈ (f.files.children f.dir).map (·.1),
      ∃ name, Store.isName name ∧ file = historyFile name := by
    intro file hfile
    obtain ⟨name, hname, rfl⟩ := hf.entries file (Files.mem_children_iff.mp hfile)
    exact ⟨name, hf.named name hname, rfl⟩
  have hnames := map_historyFile_nameOf? hfiles
  refine ⟨⟨_, run_names hf.dir, Store.pairwise_sortNames ?_, fun name => Store.mem_sortNames.trans ?_⟩, ?_⟩
  · refine List.Nodup.of_map historyFile ?_
    rw [hnames]
    exact hf.listed
  · rw [← List.mem_map_of_injective (fun _ _ => historyFile_inj), hnames, Files.mem_children_iff]
    constructor
    · intro hsome
      by_contra hname
      exact hsome (hf.missing hname)
    · intro hname
      obtain ⟨h, hfile, -⟩ := hf.history name hname
      simp [hfile]
  · intro name h s' hfound
    cases hname : Store.isName name with
    | false => cases (run_findAll_of_not_isName hname).symm.trans hfound
    | true =>
        cases hread : f.readHistory name with
        | error e => cases (run_findAll_of_error hname hread).symm.trans hfound
        | ok before =>
            cases (run_findAll hname hread).symm.trans hfound
            rw [History.sortByStart_ne_nil_iff]
            exact (hf.of_readHistory hread).1

theorem found (hf : Catalogue changes f) (hall : Readable changes) (hname : changes.Named name) :
    Store.Found f name := by
  obtain ⟨h, hfile, -, hlegible⟩ := hf.history name hname
  obtain ⟨before, hbefore, -⟩ := History.exists_reread (hlegible hall)
  have hread : f.readHistory name = .ok before := by
    rw [readHistory_of_file hfile, History.ofJson?_toJson fun v hv => (hlegible hall v hv).dated, hbefore]
    rfl
  exact ⟨_, run_findAll (hf.named name hname) hread⟩

end Catalogue

end FileStore

/-! ### Both stores -/

-- The versions that a call writes come back when they have been stored.
def Call.Legible (c : Call) : Prop :=
  ∀ name writes, c.change? = some (name, writes) → ∀ w ∈ writes, w.Legible

theorem FileStore.readable_of_legible {calls : List Call} {told : List (Except Fault Answer)}
    (hcalls : ∀ c ∈ calls, c.Legible) : Readable (.told (calls.zip told)) := by
  rintro name writes ⟨c, answer, hmem, hc⟩
  exact hcalls c (List.of_mem_zip hmem).1 name writes hc

theorem MemoryStore.catalogue (high : Instant) (calls : List Call) :
    let after := (answers calls).run (MemoryStore.empty high)
    Catalogue (.told (calls.zip after.1)) after.2 :=
  told_answers careful .change (.empty high) calls

theorem FileStore.catalogue {f : FileStore} (hf : f.Empty) (calls : List Call) :
    let after := (answers calls).run f
    Catalogue (.told (calls.zip after.1)) after.2 :=
  told_answers careful .change (.empty hf) calls

-- From a new store on, the names are told for which a change was acknowledged. They are those with versions just
-- if each of them has been given one and can be read, as it can if the versions come back that were written.
theorem names_lists_changed_names (high : Instant) {f : FileStore} (hf : f.Empty) (calls : List Call) :
    (let after := (answers calls).run (MemoryStore.empty high)
      let changes := Changes.told (calls.zip after.1)
      Store.Lists changes after.2 ∧
        (Store.ListsStored after.2 ↔ ∀ name, changes.Named name → changes.Filled name)) ∧
      let after := (answers calls).run f
      let changes := Changes.told (calls.zip after.1)
      Store.Lists changes after.2 ∧
        (Store.ListsStored after.2 ↔
          ∀ name, changes.Named name → changes.Filled name ∧ Store.Found after.2 name) ∧
        ((∀ c ∈ calls, c.Legible) → ∀ name, changes.Named name → Store.Found after.2 name) := by
  constructor
  · have hlists := (MemoryStore.catalogue high calls).lists
    refine ⟨hlists, hlists.listsStored_iff.trans (forall₂_congr fun name _ => and_iff_left ?_)⟩
    exact ⟨_, rfl⟩
  · have hcatalogue := FileStore.catalogue hf calls
    exact ⟨hcatalogue.lists, hcatalogue.lists.listsStored_iff, fun hcalls name hname =>
      hcatalogue.found (FileStore.readable_of_legible hcalls) hname⟩

-- Versions are put in for two names, and a swap of one of them comes too late.
theorem names_lists_changed_names_late_swap :
    let v (name : String) : Version := .ofBody name ⟨1, 0⟩ ⟨9, 0⟩ .null
    let calls : List Call := [.put (v "axis"), .swap "axis" none [v "axis"], .put (v "acme")]
    let f : FileStore := ⟨["store"], ⟨9, 0⟩, ⟨[(["store"], .directory)], []⟩⟩
    Store.ListsStored ((answers calls).run (MemoryStore.empty ⟨9, 0⟩)).2 ∧
      Store.ListsStored ((answers calls).run f).2 := by
  intro v calls f
  have hlegible (name : String) : (v name).Legible := by
    have hstart : (⟨1, 0⟩ : Instant).Representable := ⟨by decide, by decide, by decide, by decide⟩
    have hstop : (⟨9, 0⟩ : Instant).Representable := ⟨by decide, by decide, by decide, by decide⟩
    have hread : (Tree.ofJson? Tree.null.toJson).isSome := by decide +kernel
    exact ⟨⟨hstart, hstop⟩, by rwa [Version.reread?, Option.isSome_map]⟩
  have hwrites : ∀ c ∈ calls, ∀ name writes, c.change? = some (name, writes) →
      writes ≠ [] ∧ ∀ w ∈ writes, w.Legible := by
    simp only [calls, List.forall_mem_cons]
    refine ⟨?_, ?_, ?_, by simp⟩
    all_goals
      rintro name writes ⟨⟩
      exact ⟨by simp, List.forall_mem_singleton.mpr (hlegible _)⟩
  have hfilled (told : List (Except Fault Answer)) :
      ∀ name, (Changes.told (calls.zip told)).Named name → (Changes.told (calls.zip told)).Filled name := by
    rintro name ⟨writes, c, answer, hmem, hchange⟩
    exact ⟨writes, (hwrites c (List.of_mem_zip hmem).1 name writes hchange).1, c, answer, hmem, hchange⟩
  have hf : f.Empty := ⟨rfl, rfl⟩
  obtain ⟨⟨-, hmemory⟩, -, hfiles, hfound⟩ := names_lists_changed_names ⟨9, 0⟩ hf calls
  have hcalls : ∀ c ∈ calls, c.Legible := fun c hc name writes hchange => (hwrites c hc name writes hchange).2
  exact ⟨hmemory.mpr (hfilled _),
    hfiles.mpr fun name hname => ⟨hfilled _ name hname, hfound hcalls name hname⟩⟩

-- A swap without versions leaves a name with nothing.
theorem names_lists_name_without_versions :
    let calls : List Call := [.swap "acme" none []]
    let f : FileStore := ⟨["store"], ⟨9, 0⟩, ⟨[(["store"], .directory)], []⟩⟩
    ¬Store.ListsStored ((answers calls).run (MemoryStore.empty ⟨9, 0⟩)).2 ∧
      ¬Store.ListsStored ((answers calls).run f).2 := by
  intro calls f
  have htold (told : List (Except Fault Answer)) (h : told = [.ok .done]) :
      (Changes.told (calls.zip told)).Named "acme" ∧ ¬(Changes.told (calls.zip told)).Filled "acme" := by
    subst h
    refine ⟨⟨[], _, .done, List.mem_singleton_self _, rfl⟩, ?_⟩
    rintro ⟨writes, hne, c, answer, hmem, hc⟩
    obtain ⟨rfl, -⟩ := Prod.mk.inj (List.mem_singleton.mp hmem)
    cases hc
    exact hne rfl
  refine ⟨fun hstored => ?_, fun hstored => ?_⟩
  · obtain ⟨hnamed, hnot⟩ := htold _ (show ((answers calls).run (MemoryStore.empty ⟨9, 0⟩)).1 = [.ok .done] from rfl)
    exact hnot ((MemoryStore.catalogue ⟨9, 0⟩ calls).lists.listsStored_iff.mp hstored _ hnamed).1
  · obtain ⟨hnamed, hnot⟩ := htold _ (show ((answers calls).run f).1 = [.ok .done] from rfl)
    exact hnot ((FileStore.catalogue ⟨rfl, rfl⟩ calls).lists.listsStored_iff.mp hstored _ hnamed).1

end ScraperTimeline
