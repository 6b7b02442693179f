import ScraperTimeline.Proofs.Timeline.Rewritten
import ScraperTimeline.Proofs.Tree.Fields

/-!
One client cannot tell a store of files from one in memory, as long as the file system does not fail: the
files hold the histories, each in its own file, and everything in them comes back as it was written.
-/
namespace ScraperTimeline

/-! ### Calls -/

inductive Call where
  | names
  | findAll (name : String)
  | findOpen (name : String)
  | findActive (name : String) (t : Instant)
  | put (v : Version)
  | swap (name : String) (expected : Option Version) (writes : List Version)

inductive Answer where
  | names (names : List String)
  | history (h : History)
  | version (v : Option Version)
  | done

section
variable {σ : Type} [Store σ]

def Call.run : Call → Storing σ Answer
  | .names => return .names (← Store.names)
  | .findAll name => return .history (← Store.findAll name)
  | .findOpen name => return .version (← Store.findOpen name)
  | .findActive name t => return .version (← Store.findActive name t)
  | .put v => do
    Store.put v
    return .done
  | .swap name expected writes => do
    Store.swap name expected writes
    return .done

-- What is answered to calls, one after the other. An error does not end them.
def answers (calls : List Call) : StateM σ (List (Except Fault Answer)) := calls.mapM (·.run.run)

end

-- A version that was made from the text of its body, and of which the instants can be stored.
structure Version.Textual (v : Version) : Prop where
  dated : v.Dated
  text : Version.ofText v.name v.start v.stop v.text = .ok v

theorem Version.Textual.reread? {v : Version} (h : v.Textual) : v.reread? = some v := by
  have htext := congrArg Except.toOption h.text
  rwa [ofText_toOption] at htext

-- Names are given as they can be stored, and versions are made from texts.
def Call.Allowed : Call → Prop
  | .names => True
  | .findAll name => Store.isName name
  | .findOpen name => Store.isName name
  | .findActive name _ => Store.isName name
  | .put v => v.Textual
  | .swap name _ writes => Store.isName name ∧ ∀ w ∈ writes, w.Textual

/-! ### Names of files -/

namespace FileStore

theorem dot_notMem {name : String} (hname : Store.isName name) : '.' ∉ name.toList := by
  intro hdot
  have hall := (Bool.and_eq_true_iff.mp hname).2
  have hletter := List.all_eq_true.mp hall _ hdot
  revert hletter
  decide

theorem dotted_historyFile {name : String} (hname : Store.isName name) :
    Path.dotted (historyFile name) = (name, some "json") := by
  have hne : name.toList ≠ [] := by
    intro hnil
    rw [Store.isName, hnil] at hname
    cases hname
  have hsplit : Text.split '.' (historyFile name).toList = [name.toList, "json".toList] := by
    rw [historyFile, String.toList_append]
    exact Text.split_append (dot_notMem hname) "json".toList
  rw [Path.dotted, hsplit]
  simp [Text.join, hne]

theorem historyFile_inj {name other : String} (h : historyFile name = historyFile other) : name = other := by
  simpa [historyFile] using h

-- The name of which a file holds the history.
def nameOf? (file : String) : Option String :=
  if Path.extension? file = some "json" then some (Path.stem file) else none

theorem nameOf?_historyFile {name : String} (hname : Store.isName name) : nameOf? (historyFile name) = some name := by
  simp [nameOf?, Path.extension?, Path.stem, dotted_historyFile hname]

theorem map_historyFile_nameOf? {files : List String}
    (hfiles : ∀ file ∈ files, ∃ name, Store.isName name ∧ file = historyFile name) :
    (files.filterMap nameOf?).map historyFile = files := by
  induction files with
  | nil => rfl
  | cons file rest ih =>
      obtain ⟨⟨name, hname, rfl⟩, hrest⟩ := List.forall_mem_cons.mp hfiles
      rw [List.filterMap_cons, nameOf?_historyFile hname, List.map_cons, ih hrest]

theorem run_names {s : FileStore} (hdir : s.files.at? s.dir = some .directory) :
    (Store.names : Storing FileStore (List String)).run.run s =
      (.ok (Store.sortNames (((s.files.children s.dir).map (·.1)).filterMap nameOf?)), s) := by
  change (FileStore.names).run.run s = _
  rw [FileStore.names, run_get_bind, hdir]
  rfl

end FileStore

theorem Store.ordered_sortNames (names : List String) : (sortNames names).Pairwise (· ≤ ·) := by
  have hpairwise : (sortNames names).Pairwise fun a b => decide (a ≤ b) = true :=
    List.pairwise_mergeSort
      (fun a b c hab hbc => by simpa using String.le_trans (by simpa using hab) (by simpa using hbc))
      (fun a b => by simpa using String.le_total a b) names
  exact hpairwise.imp fun hle => by simpa using hle

theorem Store.sortNames_of_perm {names others : List String} (hperm : names.Perm others) :
    sortNames names = sortNames others := by
  have hsame : (sortNames names).Perm (sortNames others) :=
    (List.mergeSort_perm names _).trans (hperm.trans (List.mergeSort_perm others _).symm)
  exact hsame.eq_of_pairwise (fun a b _ _ => String.le_antisymm) (ordered_sortNames names)
    (ordered_sortNames others)

/-! ### Histories that are kept -/

-- A history that a store can hold: sorted, and of versions that come back as they were written.
structure History.Kept (h : History) : Prop where
  textual : ∀ v ∈ h, v.Textual
  sorted : h.Pairwise fun v w => v.start ≤ w.start

namespace History

variable {h : History} {v : Version} {writes : List Version}

theorem mapM_reread?_of_textual (htextual : ∀ v ∈ h, v.Textual) : h.mapM Version.reread? = some h := by
  induction h with
  | nil => rfl
  | cons v rest ih =>
      obtain ⟨hv, hrest⟩ := List.forall_mem_cons.mp htextual
      rw [List.mapM_cons, hv.reread?, ih hrest]
      rfl

theorem kept_nil : Kept [] := ⟨by simp, .nil⟩

theorem Kept.sortByStart_eq (hk : h.Kept) : sortByStart h = h :=
  List.mergeSort_of_pairwise (hk.sorted.imp fun hle => by simpa using hle)

theorem Kept.put (hk : h.Kept) (hv : v.Textual) : (h.put v).Kept := by
  refine ⟨fun w hw => ?_, ?_⟩
  · rcases mem_of_mem_put hw with rfl | hw
    · exact hv
    · exact hk.textual w hw
  · exact pairwise_sortByStart _

theorem Kept.foldl_put (hk : h.Kept) (hwrites : ∀ w ∈ writes, w.Textual) :
    (writes.foldl (fun h v => h.put v) h).Kept := by
  induction writes generalizing h with
  | nil => exact hk
  | cons v rest ih =>
      obtain ⟨hv, hrest⟩ := List.forall_mem_cons.mp hwrites
      exact ih (hk.put hv) hrest

theorem Kept.mapM_reread? (hk : h.Kept) : h.mapM Version.reread? = some h := mapM_reread?_of_textual hk.textual

end History

/-! ### Both stores -/

-- A failure of the file system that comes to the client.
def FilesFailed {α : Type} (answer : Except Fault α) : Prop := ∃ e : FileFault, answer = .error e.toFault

-- The directory holds the histories in memory, each in its file, and nothing else.
structure Matches (m : MemoryStore) (f : FileStore) : Prop where
  high_eq : f.high = m.high
  dir : f.files.at? f.dir = some .directory
  listed : f.files.Listed f.dir
  file : ∀ name, f.files.at? (FileStore.historyFile name :: f.dir) =
    (m.histories.lookup name).map fun h => .file (some h.toJson)
  entries : ∀ file, f.files.at? (file :: f.dir) ≠ none →
    ∃ name ∈ Fields.keys m.histories, file = FileStore.historyFile name
  nodup : (Fields.keys m.histories).Nodup
  kept : ∀ field ∈ m.histories, Store.isName field.1 ∧ History.Kept field.2

namespace Matches

variable {m : MemoryStore} {f f' : FileStore} {name : String} {h : History}

theorem empty (hf : f.Empty) : Matches (.empty f.high) f :=
  ⟨rfl, hf.dir, hf.listed, fun _ => hf.missing _, fun file h => (h (hf.missing file)).elim, .nil,
    by simp [MemoryStore.empty]⟩

theorem free (hm : Matches m f) (name : String) : f.Free name := by
  refine FileStore.free_of_entries hm.dir (fun file hsome => ?_) ?_
  · obtain ⟨other, -, hother⟩ := hm.entries file hsome
    exact ⟨other, hother⟩
  · rw [hm.file]
    cases m.histories.lookup name <;> simp

theorem kept_history (hm : Matches m f) (name : String) : (m.history name).Kept := by
  rw [MemoryStore.history]
  cases hlookup : m.histories.lookup name with
  | none => exact History.kept_nil
  | some h => exact (hm.kept _ (Fields.mem_of_lookup hlookup)).2

-- A name that is too long for a file is the only one of which nothing can be read.
theorem readHistory (hm : Matches m f) (name : String) :
    f.readHistory name = .ok (m.history name) ∨
      Files.longestName < (FileStore.besideFile name).utf8ByteSize ∧ FilesFailed (f.readHistory name) := by
  have hfile := hm.file name
  cases hlookup : m.histories.lookup name with
  | some h =>
      rw [hlookup, Option.map_some] at hfile
      have hkept := hm.kept_history name
      rw [MemoryStore.history, hlookup, Option.getD_some] at hkept ⊢
      rw [FileStore.readHistory_of_file hfile, History.ofJson?_toJson fun v hv => (hkept.textual v hv).dated,
        hkept.mapM_reread?]
      exact .inl rfl
  | none =>
      rw [hlookup, Option.map_none] at hfile
      by_cases hshort : (FileStore.historyFile name).utf8ByteSize ≤ Files.longestName
      · rw [FileStore.readHistory_of_missing hm.dir hshort hfile, MemoryStore.history, hlookup]
        exact .inl rfl
      · have hlong := Nat.lt_of_not_le hshort
        refine .inr ⟨?_, .nameTooLong, ?_⟩
        · rw [FileStore.besideFile, String.utf8ByteSize_append]
          exact hlong.trans_le (Nat.le_add_right ..)
        · rw [FileStore.readHistory, Files.read, hfile]
          simp only [Files.absence, Files.room_of_long hm.dir hlong]

-- What was written to the file of a name is what is in memory from then on.
theorem wrote (hm : Matches m f) (hname : Store.isName name) (hkept : h.Kept)
    (hw : FileStore.Wrote f name h f') : Matches (m.setHistory name h) f' := by
  refine ⟨hw.high.trans hm.high_eq, ?_, ?_, ?_, ?_, ?_, ?_⟩
  · rw [hw.dir, hw.at?_dir, hm.dir]
  · rw [hw.dir]
    exact hw.listed hm.listed
  · intro other
    rw [hw.dir, MemoryStore.setHistory]
    by_cases hsame : other = name
    · rw [hsame, hw.history, Fields.lookup_put_self]
      rfl
    · rw [hw.at?_historyFile_of_ne hsame, hm.file, Fields.lookup_put_of_ne hsame]
  · intro file hsome
    rw [hw.dir] at hsome
    rcases hw.of_at?_ne_none hsome with rfl | hsome
    · exact ⟨name, Fields.mem_keys (Fields.mem_of_lookup (Fields.lookup_put_self ..)), rfl⟩
    · obtain ⟨other, hother, rfl⟩ := hm.entries file hsome
      exact ⟨other, Fields.keys_subset_put _ _ _ hother, rfl⟩
  · exact Fields.nodup_keys_put name h hm.nodup
  · intro field hfield
    rcases Fields.mem_put hfield with rfl | hfield
    · exact ⟨hname, hkept⟩
    · exact hm.kept field hfield

-- A change is refused in both stores, made in both, or fails in the files.
theorem changed (hm : Matches m f) (hname : Store.isName name) {g : History → Except Fault History}
    {result : Except Fault Unit} (hc : FileStore.Changed f name g result f')
    (hkept : ∀ h, g (m.history name) = .ok h → h.Kept) :
    (∃ h, g (m.history name) = .ok h ∧ result = .ok () ∧ Matches (m.setHistory name h) f') ∨
      (∃ e, g (m.history name) = .error e ∧ result = .error e ∧ f' = f) ∨
      Files.longestName < (FileStore.besideFile name).utf8ByteSize ∧ FilesFailed result := by
  have hread := hm.readHistory name
  cases hc with
  | @wrote before h _ hbefore hf hw =>
      rw [hbefore] at hread
      rcases hread with hread | ⟨-, e, he⟩
      · cases hread
        exact .inl ⟨h, hf, rfl, hm.wrote hname (hkept h hf) hw⟩
      · cases he
  | @refused before e hbefore hf =>
      rw [hbefore] at hread
      rcases hread with hread | ⟨-, e, he⟩
      · cases hread
        exact .inr (.inl ⟨e, hf, rfl, rfl⟩)
      · cases he
  | unreadable hbefore =>
      rw [hbefore] at hread
      rcases hread with hread | ⟨hlong, e, he⟩
      · cases hread
      · cases he
        exact .inr (.inr ⟨hlong, e, rfl⟩)
  | long hlong => exact .inr (.inr ⟨hlong, _, rfl⟩)

theorem names (hm : Matches m f) :
    (Store.names : Storing FileStore (List String)).run.run f =
      (.ok (Store.sortNames (Fields.keys m.histories)), f) := by
  have hfiles : ((f.files.children f.dir).map (·.1)).Perm ((Fields.keys m.histories).map FileStore.historyFile) := by
    rw [List.perm_ext_iff_of_nodup hm.listed (hm.nodup.map fun _ _ => FileStore.historyFile_inj)]
    intro file
    rw [Files.mem_children_iff, List.mem_map]
    constructor
    · intro hsome
      obtain ⟨name, hname, rfl⟩ := hm.entries file hsome
      exact ⟨name, hname, rfl⟩
    · rintro ⟨name, hname, rfl⟩
      rw [hm.file]
      obtain ⟨h, hh⟩ := Fields.exists_of_mem_keys hname
      simp [Fields.lookup_of_mem hm.nodup hh]
  have hnamed : ∀ file ∈ (f.files.children f.dir).map (·.1),
      ∃ name, Store.isName name ∧ file = FileStore.historyFile name := by
    intro file hfile
    obtain ⟨name, hname, rfl⟩ := hm.entries file (Files.mem_children_iff.mp hfile)
    obtain ⟨h, hh⟩ := Fields.exists_of_mem_keys hname
    exact ⟨name, (hm.kept _ hh).1, rfl⟩
  rw [FileStore.run_names hm.dir, Store.sortNames_of_perm]
  rwa [← List.map_perm_map_iff fun _ _ => FileStore.historyFile_inj, FileStore.map_historyFile_nameOf? hnamed]

end Matches

theorem Store.forall_of_checkWrites {name : String} {writes : List Version}
    (h : checkWrites name writes = .ok ()) : ∀ w ∈ writes, w.name = name := by
  rw [checkWrites] at h
  split at h
  next hnone => simpa using hnone
  next => cases h

/-! ### One call -/

-- The name whose history a call reads or writes.
def Call.name? : Call → Option String
  | .names => none
  | .findAll name => some name
  | .findOpen name => some name
  | .findActive name _ => some name
  | .put v => some v.name
  | .swap name _ _ => some name

-- The files of the name find room for their names.
def Call.Fits (c : Call) : Prop :=
  ∀ name ∈ c.name?, (FileStore.besideFile name).utf8ByteSize ≤ Files.longestName

-- What a call does in both stores: it is answered alike, or it fails in the files.
inductive Alike (c : Call) : Except Fault Answer × MemoryStore → Except Fault Answer × FileStore → Prop
  | same {answer : Except Fault Answer} {m : MemoryStore} {f : FileStore} (hm : Matches m f) :
      Alike c (answer, m) (answer, f)
  | failed {inMemory : Except Fault Answer × MemoryStore} {inFiles : Except Fault Answer × FileStore}
      (hlong : ¬c.Fits) (hfailed : FilesFailed inFiles.1) : Alike c inMemory inFiles

namespace Matches

variable {m : MemoryStore} {f : FileStore} {name : String} {c : Call}

theorem alike_read (hm : Matches m f) (hc : c.name? = some name) (answer : History → Answer)
    (hfile : ∀ h, f.readHistory name = .ok h → c.run.run.run f = (.ok (answer h), f))
    (herror : ∀ e, f.readHistory name = .error e → c.run.run.run f = (.error e, f))
    (hmemory : c.run.run.run m = (.ok (answer (m.history name)), m)) :
    Alike c (c.run.run.run m) (c.run.run.run f) := by
  rcases hm.readHistory name with hread | ⟨hlong, e, he⟩
  · rw [hmemory, hfile _ hread]
    exact .same hm
  · rw [herror _ he]
    refine .failed (fun hfits => ?_) ⟨e, rfl⟩
    exact absurd (hfits name hc) (Nat.not_le.mpr hlong)

theorem alike_findAll (hm : Matches m f) (hname : Store.isName name) (hc : c.name? = some name)
    (answer : History → Answer) (hfile : c.run = (Store.findAll name >>= fun h => pure (answer h) :
      Storing FileStore Answer))
    (hmemory : c.run = (Store.findAll name >>= fun h => pure (answer h) : Storing MemoryStore Answer)) :
    Alike c (c.run.run.run m) (c.run.run.run f) := by
  refine hm.alike_read hc (fun h => answer (History.sortByStart h)) (fun h hread => ?_) (fun e hread => ?_) ?_
  · rw [hfile, run_bind_of_ok (FileStore.run_findAll hname hread)]
    rfl
  · rw [hfile, run_bind_of_error (FileStore.run_findAll_of_error hname hread)]
  · rw [hmemory, (hm.kept_history name).sortByStart_eq]
    rfl

theorem alike_change (hm : Matches m f) (hname : Store.isName name) (hc : c.name? = some name)
    {g : History → Except Fault History} {result : Except Fault Unit} {f' : FileStore}
    (hchanged : FileStore.Changed f name g result f') (hkept : ∀ h, g (m.history name) = .ok h → h.Kept)
    (hfile : c.run.run.run f = (result.map fun _ => .done, f'))
    (hmade : ∀ h, g (m.history name) = .ok h → c.run.run.run m = (.ok .done, m.setHistory name h))
    (hrefused : ∀ e, g (m.history name) = .error e → c.run.run.run m = (.error e, m)) :
    Alike c (c.run.run.run m) (c.run.run.run f) := by
  rw [hfile]
  rcases hm.changed hname hchanged hkept with ⟨h, hg, rfl, hafter⟩ | ⟨e, hg, rfl, rfl⟩ | ⟨hlong, e, rfl⟩
  · rw [hmade h hg]
    exact .same hafter
  · rw [hrefused e hg]
    exact .same hm
  · refine .failed (fun hfits => ?_) ⟨e, rfl⟩
    exact absurd (hfits name hc) (Nat.not_le.mpr hlong)

theorem alike_put (hm : Matches m f) {v : Version} (hv : v.Textual) :
    Alike (.put v) ((Call.run (.put v)).run.run m) ((Call.run (.put v)).run.run f) := by
  cases hname : Store.isName v.name with
  | false =>
      have hcheck := FileStore.checkName_of_not_isName hname
      have hmemory : (Store.put v : Storing MemoryStore Unit).run.run m = _ :=
        run_bind_of_error (run_lift_of_error hcheck m)
      have hfile : (Store.put v : Storing FileStore Unit).run.run f = _ :=
        run_bind_of_error (run_lift_of_error hcheck f)
      rw [Call.run, Call.run, run_bind_of_error hmemory, run_bind_of_error hfile]
      exact .same hm
  | true =>
      obtain ⟨result, f', hrun, hchanged⟩ := FileStore.run_put (hm.free v.name) hname
      refine hm.alike_change hname rfl hchanged (fun h hput => ?_) ?_ (fun h hput => ?_) (by simp)
      · cases hput
        exact (hm.kept_history v.name).put hv
      · cases result with
        | ok => exact run_bind_of_ok hrun
        | error e => exact run_bind_of_error hrun
      · cases hput
        exact run_bind_of_ok (MemoryStore.run_put hname m)

theorem alike_swap (hm : Matches m f) (hname : Store.isName name) {expected : Option Version}
    {writes : List Version} (hwrites : ∀ w ∈ writes, w.Textual) :
    Alike (.swap name expected writes) ((Call.run (.swap name expected writes)).run.run m)
      ((Call.run (.swap name expected writes)).run.run f) := by
  have hcheck := Store.checkName_of_isName hname
  cases hnamed : Store.checkWrites name writes with
  | error e =>
      have hmemory : (Store.swap name expected writes : Storing MemoryStore Unit).run.run m = _ :=
        (run_bind_of_ok (run_lift_of_ok hcheck m)).trans (run_bind_of_error (run_lift_of_error hnamed m))
      have hfile : (Store.swap name expected writes : Storing FileStore Unit).run.run f = _ :=
        (run_bind_of_ok (run_lift_of_ok hcheck f)).trans (run_bind_of_error (run_lift_of_error hnamed f))
      rw [Call.run, Call.run, run_bind_of_error hmemory, run_bind_of_error hfile]
      exact .same hm
  | ok =>
      obtain ⟨result, f', hrun, hchanged⟩ := FileStore.run_swap (hm.free name) hname
        (Store.forall_of_checkWrites hnamed) expected
      have hmemory : (Store.swap name expected writes : Storing MemoryStore Unit).run.run m =
          (liftM (Store.swapped m.high name expected writes (m.history name)) >>= fun h =>
            set (m.setHistory name h) : Storing MemoryStore Unit).run.run m :=
        (run_bind_of_ok (run_lift_of_ok hcheck m)).trans (run_bind_of_ok (run_lift_of_ok hnamed m))
      rw [hm.high_eq] at hchanged
      refine hm.alike_change hname rfl hchanged (fun h hswap => ?_) ?_ (fun h hswap => ?_) fun e hswap => ?_
      · rw [Store.swapped] at hswap
        split at hswap
        · cases hswap
          exact (hm.kept_history name).foldl_put hwrites
        · cases hswap
      · cases result with
        | ok => exact run_bind_of_ok hrun
        | error e => exact run_bind_of_error hrun
      · exact run_bind_of_ok (hmemory.trans (run_bind_of_ok (run_lift_of_ok hswap m)))
      · exact run_bind_of_error (hmemory.trans (run_bind_of_error (run_lift_of_error hswap m)))

theorem alike (hm : Matches m f) (hc : c.Allowed) : Alike c (c.run.run.run m) (c.run.run.run f) := by
  cases c with
  | names =>
      have hmemory : (Call.run .names : Storing MemoryStore Answer).run.run m =
          (.ok (.names (Store.sortNames (Fields.keys m.histories))), m) := rfl
      rw [hmemory, Call.run, run_bind_of_ok hm.names]
      exact .same hm
  | findAll name => exact hm.alike_findAll hc rfl .history rfl rfl
  | findActive name t =>
      exact hm.alike_findAll hc rfl (fun h => .version (h.activeAt? t)) (bind_assoc ..) (bind_assoc ..)
  | findOpen name =>
      refine hm.alike_read rfl (fun h => .version (h.open? f.high)) (fun h hread => ?_) (fun e hread => ?_) ?_
      · rw [Call.run, run_bind_of_ok (FileStore.run_findOpen hc hread)]
        rfl
      · rw [Call.run, run_bind_of_error (FileStore.run_findOpen_of_error hc hread)]
      · rw [hm.high_eq]
        rfl
  | put v => exact hm.alike_put hc
  | swap name expected writes => exact hm.alike_swap hc.1 hc.2

end Matches

/-! ### Any number of calls -/

variable {m : MemoryStore} {f : FileStore} {calls : List Call}

theorem run_answers_cons {σ : Type} [Store σ] (c : Call) (rest : List Call) (s : σ) :
    (answers (c :: rest)).run s =
      (((c.run.run.run s).1 :: ((answers rest).run (c.run.run.run s).2).1),
        ((answers rest).run (c.run.run.run s).2).2) := by
  simp only [answers, List.mapM_cons, StateT.run_bind]
  rfl

theorem answers_eq (hm : Matches m f) (hcalls : ∀ c ∈ calls, c.Allowed)
    (hfiles : (∀ a ∈ ((answers calls).run f).1, ¬FilesFailed a) ∨ ∀ c ∈ calls, c.Fits) :
    ((answers calls).run f).1 = ((answers calls).run m).1 := by
  induction calls generalizing m f with
  | nil => rfl
  | cons c rest ih =>
      obtain ⟨hc, hrest⟩ := List.forall_mem_cons.mp hcalls
      rw [run_answers_cons, run_answers_cons] at *
      have halike := hm.alike hc
      generalize c.run.run.run m = inMemory at *
      generalize c.run.run.run f = inFiles at *
      cases halike with
      | same hm' =>
          refine congrArg _ (ih hm' hrest (hfiles.imp (fun hall => ?_) fun hall => ?_))
          · exact (List.forall_mem_cons.mp hall).2
          · exact (List.forall_mem_cons.mp hall).2
      | failed hlong hfailed =>
          rcases hfiles with hall | hall
          · exact ((List.forall_mem_cons.mp hall).1 hfailed).elim
          · exact (hlong (List.forall_mem_cons.mp hall).1).elim

-- What the stores answer to one client is the same, call for call, unless the file system fails.
theorem stores_interchangeable (hf : f.Empty) (hcalls : ∀ c ∈ calls, c.Allowed)
    (hfiles : ∀ a ∈ ((answers calls).run f).1, ¬FilesFailed a) :
    ((answers calls).run f).1 = ((answers calls).run (MemoryStore.empty f.high)).1 :=
  answers_eq (.empty hf) hcalls (.inl hfiles)

-- A version is put in, and a swap comes too late.
theorem stores_interchangeable_late_swap :
    let v : Version := .ofBody "axis" ⟨1, 0⟩ ⟨9, 0⟩ .null
    let f : FileStore := ⟨["store"], ⟨9, 0⟩, ⟨[(["store"], .directory)], []⟩⟩
    ((answers [.put v, .swap "axis" none [v], .findActive "axis" ⟨2, 0⟩, .names]).run f).1 =
      [.ok .done, .error (.concurrentModification "axis"), .ok (.version (some v)), .ok (.names ["axis"])] := by
  intro v f
  have hf : f.Empty := ⟨rfl, rfl⟩
  have hname : Store.isName "axis" := by decide
  have hv : v.Textual := by
    refine ⟨⟨⟨by decide, by decide, by decide, by decide⟩, ⟨by decide, by decide, by decide, by decide⟩⟩, ?_⟩
    rw [Version.ofText, show v.text = Tree.null.toJson from rfl, Tree.ofJson?_toJson (Nat.zero_le _)]
    rfl
  let held : MemoryStore := ⟨⟨9, 0⟩, [("axis", [v])]⟩
  have hput : (Call.run (.put v) : Storing MemoryStore Answer).run.run (.empty ⟨9, 0⟩) = (.ok .done, held) := by
    have hstored : (MemoryStore.empty ⟨9, 0⟩).setHistory "axis" (History.put v []) = held := by
      rw [History.put_nil]
      rfl
    rw [← hstored]
    exact run_bind_of_ok (MemoryStore.run_put hname _)
  have hswap : (Call.run (.swap "axis" none [v]) : Storing MemoryStore Answer).run.run held =
      (.error (.concurrentModification "axis"), held) :=
    run_bind_of_error (MemoryStore.run_swap hname (by simp [v, Version.ofBody]) none held)
  have hnames : (Call.run .names : Storing MemoryStore Answer).run.run held = (.ok (.names ["axis"]), held) := by
    have hsorted : Store.sortNames ["axis"] = ["axis"] := by simp [Store.sortNames]
    rw [← hsorted]
    rfl
  have hactive : (Call.run (.findActive "axis" ⟨2, 0⟩) : Storing MemoryStore Answer).run.run held =
      (.ok (.version (some v)), held) := rfl
  have hmemory : ((answers [.put v, .swap "axis" none [v], .findActive "axis" ⟨2, 0⟩, .names]).run
      (MemoryStore.empty ⟨9, 0⟩)).1 =
      [.ok .done, .error (.concurrentModification "axis"), .ok (.version (some v)), .ok (.names ["axis"])] := by
    simp only [run_answers_cons, hput, hswap, hactive, hnames]
    rfl
  have hcalls : ∀ c ∈ [Call.put v, .swap "axis" none [v], .findActive "axis" ⟨2, 0⟩, .names], c.Allowed := by
    simp [Call.Allowed, hv, hname]
  have hfits : ∀ c ∈ [Call.put v, .swap "axis" none [v], .findActive "axis" ⟨2, 0⟩, .names], c.Fits := by
    simp only [List.forall_mem_cons, Call.Fits, Call.name?]
    decide
  have hsame := answers_eq (.empty hf) hcalls (.inr hfits)
  rw [← hmemory]
  refine stores_interchangeable hf hcalls fun a ha => ?_
  rw [hsame, hmemory] at ha
  rintro ⟨e, rfl⟩
  simp [FileFault.toFault] at ha

end ScraperTimeline
