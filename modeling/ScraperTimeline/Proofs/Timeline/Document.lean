import ScraperTimeline.Proofs.Files.Ensured
import ScraperTimeline.Proofs.Timeline.Interchange

/-!
Documents of histories. What is written to the file of a name is read from it as it was: the names of its
versions, their instants to the nanosecond, the texts of their bodies and what they say.
-/
namespace ScraperTimeline

-- Every version that is made from a text comes back, if its instants can be stored.
theorem Version.textual_of_ofText {v : Version} {name text : String} {start stop : Instant}
    (hv : ofText name start stop text = .ok v) (hstart : start.Representable) (hstop : stop.Representable) :
    v.Textual := by
  have hmade := hv
  rw [ofText] at hmade
  split at hmade
  next => cases hmade; exact ⟨⟨hstart, hstop⟩, hv⟩
  next => cases hmade

namespace FileStore

variable {s s' : FileStore} {name : String} {h : History}

-- What was there before does not count.
theorem run_history_of_run_writeHistory (hname : Store.isName name) (htextual : ∀ v ∈ h, v.Textual)
    (hwrite : (writeHistory name h).run.run s = (.ok (), s')) : (history name).run.run s' = (.ok h, s') := by
  rcases hreplace : (Files.replace (historyFile name :: s.dir) h.toJson).run.run s.files with ⟨e | _, files⟩
  · cases (run_writeHistory_of_replace hreplace).symm.trans hwrite
  cases (run_writeHistory_of_replace hreplace).symm.trans hwrite
  have hfile := Files.at?_of_run_replace hreplace
  refine run_history hname ((readHistory_of_file hfile).trans ?_)
  rw [History.ofJson?_toJson fun v hv => (htextual v hv).dated, History.mapM_reread?_of_textual htextual]
  rfl

-- Missing directories are made on the way, and only what is in the way of the files keeps them from being
-- written.
theorem exists_run_writeHistory (hopen : s.files.Open s.dir)
    (hshort : (besideFile name).utf8ByteSize ≤ Files.longestName)
    (hbeside : s.files.at? (besideFile name :: s.dir) ≠ some .directory)
    (hhistory : s.files.at? (historyFile name :: s.dir) ≠ some .directory) (h : History) :
    ∃ s', (writeHistory name h).run.run s = (.ok (), s') := by
  obtain ⟨fs, hensured, hdir, hsame⟩ := Files.exists_run_replace h.toJson hopen
  have hkept (file : String) : fs.at? (file :: s.dir) = s.files.at? (file :: s.dir) :=
    hensured.elsewhere _ (Files.not_cons_suffix file s.dir)
  obtain ⟨files, hrun, -⟩ := Files.run_replace hdir hshort (by rwa [hkept]) (by rwa [hkept]) h.toJson
  exact ⟨_, run_writeHistory_of_replace (hsame.trans hrun)⟩

-- A history of versions that were made from texts is read as it was written, and it can be written unless
-- something is in the way of its file.
theorem history_document_reads_back (hname : Store.isName name) (htextual : ∀ v ∈ h, v.Textual) :
    (∀ s s', (writeHistory name h).run.run s = (.ok (), s') → (history name).run.run s' = (.ok h, s')) ∧
      ∀ s : FileStore, s.files.Open s.dir → (besideFile name).utf8ByteSize ≤ Files.longestName →
        s.files.at? (besideFile name :: s.dir) ≠ some .directory →
        s.files.at? (historyFile name :: s.dir) ≠ some .directory →
        ∃ s', (writeHistory name h).run.run s = (.ok (), s') ∧ (history name).run.run s' = (.ok h, s') := by
  refine ⟨fun s s' => run_history_of_run_writeHistory hname htextual, ?_⟩
  intro s hopen hshort hbeside hhistory
  obtain ⟨s', hwrite⟩ := exists_run_writeHistory hopen hshort hbeside hhistory h
  exact ⟨s', hwrite, run_history_of_run_writeHistory hname htextual hwrite⟩

-- A version from within a leap second to the last nanosecond of the year 9999, with blanks and escapes in its
-- text, in a directory that is not there yet.
theorem history_document_reads_back_leap_second :
    ∃ v s', Version.ofText "a\"\\\n" ⟨1483228799, 1500000000⟩ ⟨253402300799, 999999999⟩
        " \x7b \"k\" : [1.50, \"\\u00e9\\n\"] \x7d" = .ok v ∧
      (writeHistory "acme" [v, v]).run.run ⟨["store"], ⟨9, 0⟩, .empty⟩ = (.ok (), s') ∧
      (history "acme").run.run s' = (.ok [v, v], s') := by
  have hparsed : (Tree.ofJson? " \x7b \"k\" : [1.50, \"\\u00e9\\n\"] \x7d").isSome := by decide +kernel
  obtain ⟨body, hbody⟩ := Option.isSome_iff_exists.mp hparsed
  obtain ⟨v, hmade⟩ : ∃ v, Version.ofText "a\"\\\n" ⟨1483228799, 1500000000⟩ ⟨253402300799, 999999999⟩
      " \x7b \"k\" : [1.50, \"\\u00e9\\n\"] \x7d" = .ok v := ⟨_, by rw [Version.ofText, hbody]⟩
  have hstart : (⟨1483228799, 1500000000⟩ : Instant).Representable :=
    Instant.representable_of_ofDateTime? (show Instant.ofDateTime? 2016 12 31 23 59 60 500000000 = _ from rfl)
      (by decide)
  have hstop : (⟨253402300799, 999999999⟩ : Instant).Representable :=
    Instant.representable_of_ofDateTime? (show Instant.ofDateTime? 9999 12 31 23 59 59 999999999 = _ from rfl)
      (by decide)
  have hv := Version.textual_of_ofText hmade hstart hstop
  obtain ⟨s', hwrite, hread⟩ := (@history_document_reads_back "acme" _ (by decide)
    (List.forall_mem_cons.mpr ⟨hv, List.forall_mem_singleton.mpr hv⟩)).2 ⟨["store"], ⟨9, 0⟩, .empty⟩
    ⟨.inl rfl, by decide, trivial⟩ (by decide) (by decide) (by decide)
  exact ⟨v, s', hmade, hwrite, hread⟩

end FileStore
end ScraperTimeline
