import ScraperTimeline.Proofs.Artifact.Envelope
import ScraperTimeline.Proofs.Artifact.Keys
import ScraperTimeline.Proofs.Files.Ensured

/-!
The cache as a map. Over a root below which there is nothing at first, each key has the artifact that was
saved last under it, unless it was deleted since.
-/
namespace ScraperTimeline.Cache

/-! ### Calls -/

inductive Call where
  | save (savedAt : Instant) (k : ArtifactKey) (a : Artifact)
  | get (k : ArtifactKey)
  | delete (k : ArtifactKey)

inductive Answer where
  | saved
  | got (a : Option Artifact)
  | deleted (found : Bool)

namespace Call

def key : Call → ArtifactKey
  | save _ k _ => k
  | get k => k
  | delete k => k

def answer (c : Cache) : Call → Working Fault Answer
  | save savedAt k a => do
    c.save savedAt k a
    return .saved
  | get k => return .got (← c.get k)
  | delete k => return .deleted (← c.delete k)

-- What a call makes of its key, if it changes anything.
def effect? : Call → Option (Option Artifact)
  | save _ _ a => some (some a)
  | get _ => none
  | delete _ => some none

-- What a map answers.
def reply (contents : ArtifactKey → Option Artifact) : Call → Answer
  | save _ _ _ => .saved
  | get k => .got (contents k)
  | delete k => .deleted (contents k).isSome

-- Fingerprints, clocks and artifacts as they are made.
def Valid : Call → Prop
  | save savedAt k a => k.Valid ∧ savedAt.Representable ∧ a.Sorted
  | get k => k.Valid
  | delete k => k.Valid

end Call

-- What a key has after some calls: what the last one made of it that changed it.
def held (past : List Call) (k : ArtifactKey) : Option Artifact :=
  (past.reverse.findSome? fun call => if call.key = k then call.effect? else none).join

section
variable (past : List Call) (call : Call)

theorem held_concat (k : ArtifactKey) :
    held (past ++ [call]) k = if call.key = k then call.effect?.getD (held past k) else held past k := by
  rw [held, List.reverse_append, List.reverse_singleton, List.singleton_append, List.findSome?_cons]
  by_cases hkey : call.key = k
  · simp only [if_pos hkey]
    cases call.effect? <;> rfl
  · simp only [if_neg hkey]
    rfl

theorem held_concat_key : held (past ++ [call]) call.key = call.effect?.getD (held past call.key) := by
  rw [held_concat, if_pos rfl]

variable {past call}

theorem held_concat_of_ne {k : ArtifactKey} (h : call.key ≠ k) : held (past ++ [call]) k = held past k := by
  rw [held_concat, if_neg h]

end

/-! ### What the files hold -/

-- The files at a place hold an artifact, or nothing.
def Kept (fs : Files) (p : Path) : Option Artifact → Prop
  | none => fs.at? p = none
  | some a => ∃ e : Envelope, e.Storable ∧ e.isSound ∧ e.artifact = a ∧
      fs.at? p = some (.file (some e.toTree.toJson))

theorem Kept.congr {fs fs' : Files} {p : Path} {a : Option Artifact} (h : Kept fs p a)
    (heq : fs'.at? p = fs.at? p) : Kept fs' p a := by
  cases a with
  | none => exact heq.trans h
  | some a =>
      obtain ⟨e, hstorable, hsound, hartifact, hat⟩ := h
      exact ⟨e, hstorable, hsound, hartifact, heq.trans hat⟩

theorem Kept.ne_directory {fs : Files} {p : Path} {a : Option Artifact} (h : Kept fs p a) :
    fs.at? p ≠ some .directory := by
  cases a with
  | none => simp [show fs.at? p = none from h]
  | some a =>
      obtain ⟨e, -, -, -, hat⟩ := h
      simp [hat]

structure Holds (c : Cache) (contents : ArtifactKey → Option Artifact) (fs : Files) : Prop where
  root : fs.Open c.root
  dirs : ∀ k : ArtifactKey, k.Valid →
    fs.at? (k.dir.text :: c.root) = none ∨ fs.at? (k.dir.text :: c.root) = some .directory
  beside : ∀ k : ArtifactKey, k.Valid → fs.at? (k.beside c.root) = none
  places : ∀ k : ArtifactKey, k.Valid → Kept fs (k.place c.root) (contents k)

section
variable {c : Cache} {contents contents' : ArtifactKey → Option Artifact} {fs fs' : Files}
  {k : ArtifactKey}

theorem holds_of_empty (hroot : fs.Open c.root) (hempty : ∀ p, p ≠ [] → fs.at? (p ++ c.root) = none) :
    c.Holds (held []) fs where
  root := hroot
  dirs k _ := .inl (hempty [k.dir.text] (by simp))
  beside k _ := hempty [k.fileName ++ ".tmp", k.dir.text] (by simp)
  places k _ := hempty [k.fileName, k.dir.text] (by simp)

theorem Holds.openDir (h : c.Holds contents fs) (hk : k.Valid) : fs.Open (k.dir.text :: c.root) :=
  ⟨h.dirs k hk, by rw [hk.dir.utf8ByteSize_text]; decide, h.root⟩

theorem Holds.openPlace (h : c.Holds contents fs) (hk : k.Valid) (hnone : contents k = none) :
    fs.Open (k.place c.root) := by
  refine ⟨.inl ?_, by rw [hk.utf8ByteSize_fileName]; decide, h.openDir hk⟩
  have hplace := h.places k hk
  rwa [hnone] at hplace

-- The places of the artifacts are not on the way to their directories.
theorem Holds.ensured {result : Except FileFault Unit} (h : c.Holds contents fs)
    (hens : Files.Ensured (k.dir.text :: c.root) fs result fs') : c.Holds contents fs' := by
  have hdeep {p : Path} (hp : p.length = c.root.length + 2) : fs'.at? p = fs.at? p :=
    hens.elsewhere p fun hsuffix => by
      have hlength := hsuffix.length_le
      rw [List.length_cons] at hlength
      omega
  refine ⟨hens.grown.open h.root, fun k hk => ?_, fun k hk => ?_, fun k hk => ?_⟩
  · rcases hens.grown (k.dir.text :: c.root) with heq | ⟨-, hmade⟩
    · rw [heq]
      exact h.dirs k hk
    · exact .inr hmade
  · exact (hdeep rfl).trans (h.beside k hk)
  · exact (h.places k hk).congr (hdeep rfl)

-- A change at the place of one key and beside it concerns no other key.
theorem Holds.changed (h : c.Holds contents fs) (hk : k.Valid)
    (hothers : ∀ q, q ≠ k.place c.root → q ≠ k.beside c.root → fs'.at? q = fs.at? q)
    (hbeside : fs'.at? (k.beside c.root) = none) (hplace : Kept fs' (k.place c.root) (contents' k))
    (hkeep : ∀ other, other ≠ k → contents' other = contents other) : c.Holds contents' fs' := by
  have hshallow {p : Path} (hp : p.length < c.root.length + 2) : fs'.at? p = fs.at? p := by
    refine hothers p ?_ ?_
    · rintro rfl
      simp [ArtifactKey.place] at hp
    · rintro rfl
      simp [ArtifactKey.beside] at hp
  refine ⟨h.root.congr fun q hq => hshallow ?_, fun other hother => ?_, fun other hother => ?_,
    fun other hother => ?_⟩
  · have hlength := hq.length_le
    omega
  · rw [hshallow (by simp)]
    exact h.dirs other hother
  · by_cases heq : other.beside c.root = k.beside c.root
    · rw [heq, hbeside]
    · rw [hothers _ (hother.beside_ne_place hk) heq, h.beside other hother]
  · by_cases heq : other = k
    · subst heq
      exact hplace
    · rw [hkeep other heq]
      exact (h.places other hother).congr
        (hothers _ (fun hsame => heq (ArtifactKey.place_inj.mp hsame)) (hk.beside_ne_place hother).symm)

/-! ### Operations -/

variable {w : World} {a : Artifact} {savedAt : Instant}

theorem run_filing {α : Type} (x : Filing α) (w : World) :
    (Working.filing x : Working Fault (Except FileFault α)).run.run w =
      (.ok (x.run.run w.files).1, { w with files := (x.run.run w.files).2 }) := rfl

theorem run_opened {e : Envelope} (hstorable : e.Storable) (hsound : e.isSound) :
    (opened k e.toTree.toJson).run.run w = (.ok e.artifact, w) := by
  rw [opened, Envelope.read?_toJson hstorable]
  dsimp only
  rw [if_pos hsound]
  rfl

theorem run_get (h : c.Holds contents w.files) (hk : k.Valid) :
    (c.get k).run.run w = (.ok (contents k), w) := by
  have hplace := h.places k hk
  rw [get, run_get_bind]
  cases hheld : contents k with
  | none =>
      rw [hheld] at hplace
      rw [Files.read, hplace]
      dsimp only
      rw [(h.openPlace hk hheld).absence_eq]
      rfl
  | some a =>
      rw [hheld] at hplace
      obtain ⟨e, hstorable, hsound, rfl, hat⟩ := hplace
      rw [Files.read_of_at? hat]
      exact run_bind_of_ok (run_opened hstorable hsound)

theorem exists_run_save (h : c.Holds contents w.files) (hk : k.Valid) (hsaved : savedAt.Representable)
    (ha : a.Sorted) (hcontents : contents' k = some a)
    (hkeep : ∀ other, other ≠ k → contents' other = contents other) :
    ∃ w', (c.save savedAt k a).run.run w = (.ok (), w') ∧ c.Holds contents' w'.files := by
  let e := Envelope.ofArtifact savedAt a
  obtain ⟨made, hensured, hdir, hmade⟩ := Files.exists_run_replace e.toTree.toJson (h.openDir hk)
  have hheld : c.Holds contents made := h.ensured hensured
  have hfile : made.at? (k.place c.root) ≠ some .directory := (hheld.places k hk).ne_directory
  have hshort : (k.fileName ++ ".tmp").utf8ByteSize ≤ Files.longestName := by
    rw [hk.utf8ByteSize_beside]
    decide
  have hfree : made.at? (k.beside c.root) ≠ some .directory := by
    rw [hheld.beside k hk]
    nofun
  obtain ⟨fs', hreplace, hat, hbeside, hothers, -⟩ :=
    Files.run_replace hdir hshort hfree hfile e.toTree.toJson
  have hrun : (Files.replace (k.place c.root) e.toTree.toJson).run.run w.files = (.ok (), fs') :=
    hmade.trans hreplace
  let record : Record := .event .artifactSaved [("key", k.text), ("bytes", toString e.toTree.toJson.utf8ByteSize)]
  refine ⟨⟨fs', w.trace ++ [record]⟩, ?_, hheld.changed hk hothers hbeside ?_ hkeep⟩
  · rw [save, run_bind_of_ok (run_filing _ _), hrun]
    rfl
  · rw [hcontents]
    exact ⟨e, Envelope.storable_ofArtifact hsaved ha, Envelope.isSound_ofArtifact savedAt a, rfl, hat⟩

theorem exists_run_delete (h : c.Holds contents w.files) (hk : k.Valid) (hcontents : contents' k = none)
    (hkeep : ∀ other, other ≠ k → contents' other = contents other) :
    ∃ w', (c.delete k).run.run w = (.ok (contents k).isSome, w') ∧ c.Holds contents' w'.files := by
  have hplace := h.places k hk
  cases hheld : contents k with
  | none =>
      rw [hheld] at hplace
      have hremove : (Files.remove (k.place c.root)).run.run w.files = (.error .notFound, w.files) := by
        rw [Files.remove, run_get_bind, hplace]
        dsimp only
        rw [run_get_bind, (h.openPlace hk hheld).absence_eq]
        rfl
      refine ⟨w, ?_, h.changed hk (fun _ _ _ => rfl) (h.beside k hk) ?_ hkeep⟩
      · rw [delete, run_bind_of_ok (run_filing _ _), hremove]
        rfl
      · rw [hcontents]
        exact hplace
  | some a =>
      rw [hheld] at hplace
      obtain ⟨e, -, -, -, hat⟩ := hplace
      refine ⟨{ w with files := w.files.erase (k.place c.root) }, ?_, ?_⟩
      · rw [delete, run_bind_of_ok (run_filing _ _), Files.run_remove hat]
        rfl
      · refine h.changed hk (fun q hq _ => Files.at?_erase_of_ne hq _) ?_ ?_ hkeep
        · exact (Files.at?_erase_of_ne (hk.beside_ne_place hk) _).trans (h.beside k hk)
        · rw [hcontents]
          exact Files.at?_erase_self ..

-- A call is answered as by a map, and the files hold what the map has then.
theorem exists_run_answer {past : List Call} {call : Call} (h : c.Holds (held past) w.files)
    (hcall : call.Valid) :
    ∃ w', (call.answer c).run.run w = (.ok (call.reply (held past)), w') ∧
      c.Holds (held (past ++ [call])) w'.files := by
  have hkeep : ∀ other, other ≠ call.key → held (past ++ [call]) other = held past other :=
    fun other hother => held_concat_of_ne hother.symm
  have hkey := held_concat_key past call
  cases call with
  | save savedAt k a =>
      obtain ⟨hk, hsaved, ha⟩ := hcall
      obtain ⟨w', hrun, hholds⟩ := exists_run_save h hk hsaved ha hkey hkeep
      exact ⟨w', run_bind_of_ok hrun, hholds⟩
  | get k =>
      refine ⟨w, run_bind_of_ok (run_get h hcall), ?_⟩
      have heq : held (past ++ [.get k]) = held past := by
        funext other
        rw [held_concat]
        split <;> rfl
      rwa [heq]
  | delete k =>
      obtain ⟨w', hrun, hholds⟩ := exists_run_delete h hcall hkey hkeep
      exact ⟨w', run_bind_of_ok hrun, hholds⟩

theorem exists_run_answers {past calls : List Call} (h : c.Holds (held past) w.files)
    (hcalls : ∀ call ∈ calls, call.Valid) :
    ∃ answers w', (calls.mapM (Call.answer c)).run.run w = (.ok answers, w') ∧
      c.Holds (held (past ++ calls)) w'.files := by
  induction calls generalizing past w with
  | nil => exact ⟨[], w, rfl, by rwa [List.append_nil]⟩
  | cons call calls ih =>
      obtain ⟨hcall, hrest⟩ := List.forall_mem_cons.mp hcalls
      obtain ⟨w₁, hanswer, hnext⟩ := exists_run_answer h hcall
      obtain ⟨answers, w₂, hrun, hlast⟩ := ih hnext hrest
      refine ⟨call.reply (held past) :: answers, w₂, ?_, by rwa [List.append_assoc] at hlast⟩
      rw [List.mapM_cons, run_bind_of_ok hanswer, run_bind_of_ok hrun]
      rfl

end

/-! ### The map -/

-- An artifact was saved under a key, and no later call changed what the key has.
def SavedLast (past : List Call) (k : ArtifactKey) (a : Artifact) : Prop :=
  ∃ before savedAt after, past = before ++ .save savedAt k a :: after ∧
    ∀ call ∈ after, call.key = k → call.effect? = none

theorem held_append_of_unchanged {past after : List Call} {k : ArtifactKey}
    (h : ∀ call ∈ after, call.key = k → call.effect? = none) : held (past ++ after) k = held past k := by
  induction after using List.reverseRecOn with
  | nil => rw [List.append_nil]
  | append_singleton after call ih =>
      rw [← List.append_assoc, held_concat, ih fun call hcall => h call (List.mem_append_left _ hcall)]
      split
      · rename_i hkey
        rw [h call (by simp) hkey, Option.getD_none]
      · rfl

theorem held_eq_some_iff {past : List Call} {k : ArtifactKey} {a : Artifact} :
    held past k = some a ↔ SavedLast past k a := by
  constructor
  · intro h
    induction past using List.reverseRecOn with
    | nil => cases h
    | append_singleton past call ih =>
        rw [held_concat] at h
        by_cases hchanges : call.key = k ∧ call.effect?.isSome
        · obtain ⟨hkey, heffect⟩ := hchanges
          rw [if_pos hkey] at h
          cases call with
          | save savedAt key saved =>
              obtain rfl : key = k := hkey
              obtain rfl : saved = a := Option.some.inj h
              exact ⟨past, savedAt, [], rfl, by simp⟩
          | get key => cases heffect
          | delete key => cases h
        · have hunchanged : call.key = k → call.effect? = none := fun hkey =>
            Option.not_isSome_iff_eq_none.mp fun heffect => hchanges ⟨hkey, heffect⟩
          have hbefore : held past k = some a := by
            split at h
            · rename_i hkey
              rwa [hunchanged hkey, Option.getD_none] at h
            · exact h
          obtain ⟨before, savedAt, after, rfl, hafter⟩ := ih hbefore
          refine ⟨before, savedAt, after ++ [call], by simp, fun other hother => ?_⟩
          rcases List.mem_append.mp hother with hother | hother
          · exact hafter other hother
          · rw [List.mem_singleton.mp hother]
            exact hunchanged
  · rintro ⟨before, savedAt, after, rfl, hafter⟩
    rw [List.append_cons, held_append_of_unchanged hafter]
    exact held_concat_key before (.save savedAt k a)

-- After any calls a key gives exactly what was saved last under it and not deleted since, deleting it tells
-- whether there is that, and no call with another key changes it.
theorem gives_what_was_saved_last (c : Cache) (w : World) (hroot : w.files.Open c.root)
    (hempty : ∀ p, p ≠ [] → w.files.at? (p ++ c.root) = none) (past : List Call)
    (hpast : ∀ call ∈ past, call.Valid) :
    ∃ answers w', (past.mapM (Call.answer c)).run.run w = (.ok answers, w') ∧
      ∀ k : ArtifactKey, k.Valid → ∃ found : Option Artifact,
        (∀ a, found = some a ↔ SavedLast past k a) ∧
        (c.get k).run.run w' = (.ok found, w') ∧
        (∃ w'', (c.delete k).run.run w' = (.ok found.isSome, w'')) ∧
        ∀ call : Call, call.Valid → call.key ≠ k → ∃ answer w'',
          (call.answer c).run.run w' = (.ok answer, w'') ∧ (c.get k).run.run w'' = (.ok found, w'') := by
  obtain ⟨answers, w', hrun, hholds⟩ := exists_run_answers (holds_of_empty hroot hempty) hpast
  rw [List.nil_append] at hholds
  refine ⟨answers, w', hrun, fun k hk => ⟨held past k, fun a => held_eq_some_iff, run_get hholds hk, ?_, ?_⟩⟩
  · obtain ⟨w'', hdelete, -⟩ := exists_run_delete hholds hk (held_concat_key past (.delete k))
      fun other hother => held_concat_of_ne hother.symm
    exact ⟨w'', hdelete⟩
  · intro call hcall hne
    obtain ⟨w'', hanswer, hholds'⟩ := exists_run_answer hholds hcall
    exact ⟨_, w'', hanswer, held_concat_of_ne hne ▸ run_get hholds' hk⟩

def quotes : Cache := ⟨["cache"]⟩

-- The page of a document, in a scope that other documents share.
def page (document : String) : ArtifactKey :=
  ⟨.of ["https://example.org/quote".toUTF8.data.toList], .of [document.toUTF8.data.toList]⟩

def price (text : String) : Artifact := .ofList text [("source", "\"S\" \\ Søn"), ("dataDef", "acme")]

def pricesSaved : List Call := [
  .save ⟨1704067200, 0⟩ (page "acme") (price "10.5"),
  .save ⟨1704067200, 5⟩ (page "beta") (price "3"),
  .save ⟨1704153600, 0⟩ (page "acme") (price "\x7b\"price\":\n11\x7d"),
  .delete (page "beta")]

theorem page_ne : page "beta" ≠ page "acme" := by
  have hdocument : (page "beta").file.text ≠ (page "acme").file.text := by decide +kernel
  exact fun h => hdocument (congrArg (·.file.text) h)

theorem valid_page (document : String) : (page document).Valid :=
  ⟨Fingerprint.valid_of _, Fingerprint.valid_of _⟩

theorem valid_pricesSaved : ∀ call ∈ pricesSaved, call.Valid := by
  have hsave {second : Int} {nano : Nat} (document text : String)
      (hsaved : (⟨second, nano⟩ : Instant).Representable) :
      (Call.save ⟨second, nano⟩ (page document) (price text)).Valid :=
    ⟨valid_page document, hsaved, Artifact.sorted_ofList _ _⟩
  simp only [pricesSaved, List.forall_mem_cons]
  refine ⟨hsave _ _ ⟨by decide, by decide, by decide, by decide⟩,
    hsave _ _ ⟨by decide, by decide, by decide, by decide⟩,
    hsave _ _ ⟨by decide, by decide, by decide, by decide⟩, valid_page "beta", by simp⟩

theorem gives_what_was_saved_last_quotes :
    Files.empty.Open quotes.root ∧ (∀ p, p ≠ [] → Files.empty.at? (p ++ quotes.root) = none) ∧
    (∀ call ∈ pricesSaved, call.Valid) ∧ ∃ answers w',
      (pricesSaved.mapM (Call.answer quotes)).run.run ⟨.empty, []⟩ = (.ok answers, w') ∧
      (quotes.get (page "acme")).run.run w' = (.ok (some (price "\x7b\"price\":\n11\x7d")), w') ∧
      ∃ w'', (quotes.delete (page "acme")).run.run w' = (.ok true, w'') := by
  have hroot : Files.empty.Open quotes.root := ⟨.inl rfl, by decide, trivial⟩
  have hempty : ∀ p, p ≠ [] → Files.empty.at? (p ++ quotes.root) = none := by
    simp [Files.empty, Files.at?, quotes]
  obtain ⟨answers, w', hrun, hkeys⟩ :=
    gives_what_was_saved_last quotes ⟨.empty, []⟩ hroot hempty pricesSaved valid_pricesSaved
  obtain ⟨found, hfound, hget, hdelete, -⟩ := hkeys (page "acme") (valid_page "acme")
  obtain rfl := (hfound _).mpr ⟨pricesSaved.take 2, ⟨1704153600, 0⟩, [.delete (page "beta")], rfl, by
    simp [Call.key, page_ne]⟩
  exact ⟨hroot, hempty, valid_pricesSaved, answers, w', hrun, hget, hdelete⟩

end ScraperTimeline.Cache
