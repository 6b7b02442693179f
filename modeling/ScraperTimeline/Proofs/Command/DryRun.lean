import ScraperTimeline.Command.Run
import ScraperTimeline.Proofs.Files.Ensured
import ScraperTimeline.Proofs.Pipeline.Yields
import ScraperTimeline.Proofs.Pipeline.Distinct
import ScraperTimeline.Proofs.Pipeline.NormalForms
import ScraperTimeline.Proofs.Timeline.Foreseen
import ScraperTimeline.Proofs.Timeline.Recompiled

/-!
The dry run of a compilation. It tells what the real one would, from the same files, and leaves all of them
as they are.
-/
namespace ScraperTimeline

variable {α : Type} {w w' : World}

namespace Command

open FileStore

namespace Task

theorem run_traced (x : Files → Traced Fault α) (w : World) :
    (traced x).run.run w = (((x w.files).run.run w.trace).1.mapError .ofFault,
      { w with trace := ((x w.files).run.run w.trace).2 }) := by
  have hadapt : ((x w.files).adapt CommandFailure.ofFault : Traced CommandFailure α).run.run w.trace =
      (((x w.files).run.run w.trace).1.mapError .ofFault, ((x w.files).run.run w.trace).2) := rfl
  rw [traced, Working.traced, run_get_bind, hadapt]
  rcases (x w.files).run.run w.trace with ⟨e | a, trace⟩ <;> rfl

theorem of_run_traced {x : Files → Traced Fault α} {a : α} (h : (traced x).run.run w = (.ok a, w')) :
    w'.files = w.files ∧ ∃ trace, (x w.files).run.run w.trace = (.ok a, trace) := by
  rw [run_traced] at h
  rcases hrun : (x w.files).run.run w.trace with ⟨e | b, trace⟩
  · rw [hrun] at h
    cases h
  · rw [hrun] at h
    cases h
    exact ⟨rfl, trace, rfl⟩

theorem run_traced_of_ok {x : Files → Traced Fault α} {a : α} {trace : List Record}
    (h : (x w.files).run.run w.trace = (.ok a, trace)) : (traced x).run.run w = (.ok a, { w with trace }) := by
  rw [run_traced, h]
  rfl

theorem of_run_ofExcept {r : Except Fault α} {a : α} (h : (ofExcept r).run.run w = (.ok a, w')) :
    r = .ok a ∧ w' = w := by
  cases r with
  | error e => cases h
  | ok b =>
      cases h
      exact ⟨rfl, rfl⟩

theorem run_ofExcept (r : Except Fault α) (w : World) :
    (ofExcept r).run.run w = (r.mapError .ofFault, w) := by
  cases r <;> rfl

theorem run_withStore {s s' : FileStore} {x : StateM FileStore α} {a : α}
    (h : x.run { s with files := w.files } = (a, s')) :
    (withStore s x).run.run w = (.ok a, { w with files := s'.files }) := by
  rw [withStore, run_get_bind, h]
  rfl

end Task

-- What both kinds of runs do first: they load the configuration, open the store and compile.
def compiling (o : Occasion) (path : String) (at_ : Option Instant) :
    Task (Config × FileStore × Compilation) := do
  let c ← loadConfig path
  let s ← openStore c
  let p ← buildPipeline c
  let run ← Task.traced fun fs => p.compile fs o.runId (at_.getD o.now)
  return (c, s, run)

-- What is answered of the outcomes.
def answer (o : Occasion) (run : Compilation) (dryRun : Bool) (outcomes : Sync.Report) : String :=
  response (.map [("run_id", .string o.runId), ("run_timestamp", instantTree run.start),
    ("dry_run", .bool dryRun), ("outcomes", .seq (outcomes.map fun (name, o) => outcomeTree name o))])

theorem runCompile_eq (o : Occasion) (path : String) (dryRun : Bool) (at_ : Option Instant) :
    runCompile o path dryRun at_ = compiling o path at_ >>= fun (c, s, run) => do
      let outcomes ←
        if dryRun then Task.storing s (Sync.foresee c.high run.versions)
        else reconcile c s run.versions
      return answer o run dryRun outcomes := by
  simp only [runCompile, compiling, bind_assoc, pure_bind]
  rfl

section
variable {o : Occasion} {path : String} {at_ : Option Instant} {c : Config} {s : FileStore} {run : Compilation}

theorem files_of_run_loadConfig (h : (loadConfig path).run.run w = (.ok c, w')) : w'.files = w.files := by
  rw [loadConfig, run_get_bind] at h
  obtain ⟨_, _, hload, hrest⟩ := exists_of_run_bind h
  obtain ⟨-, rfl⟩ := Task.of_run_ofExcept hload
  obtain ⟨_, _, hemit, hrest⟩ := exists_of_run_bind hrest
  cases hemit
  cases hrest
  rfl

theorem of_run_openStore (h : (openStore c).run.run w = (.ok s, w')) :
    w.files.Grown w'.files ∧ w'.files.at? s.dir = some .directory := by
  have hgrown := Files.Growing.ensureAt (c.resolve c.storeDir) w.files
  rw [openStore, run_get_bind, openAt] at h
  rcases hrun : (Files.ensureAt (c.resolve c.storeDir)).run.run w.files with ⟨e | p, files⟩
  · rw [hrun] at h
    cases h
  · rw [hrun] at h hgrown
    cases h
    exact ⟨hgrown, Files.at?_of_run_ensureAt hrun⟩

-- What is known once both have compiled.
structure Compiled (w w' : World) (s : FileStore) (run : Compilation) : Prop where
  grown : w.files.Grown w'.files
  dir : w'.files.at? s.dir = some .directory
  distinct : run.versions.Pairwise fun v w => v.name ≠ w.name

theorem compiled_of_run_compiling (h : (compiling o path at_).run.run w = (.ok (c, s, run), w')) :
    Compiled w w' s run := by
  obtain ⟨c', w₁, hconfig, h⟩ := exists_of_run_bind h
  obtain ⟨s', w₂, hstore, h⟩ := exists_of_run_bind h
  obtain ⟨p, w₃, hbuild, h⟩ := exists_of_run_bind h
  obtain ⟨run', w₄, hcompile, h⟩ := exists_of_run_bind h
  cases h
  obtain ⟨hgrown, hdir⟩ := of_run_openStore hstore
  obtain ⟨hbuilt, -⟩ := Task.of_run_traced hbuild
  obtain ⟨hcompiled, trace, hrun⟩ := Task.of_run_traced hcompile
  rw [files_of_run_loadConfig hconfig, ← hbuilt, ← hcompiled] at hgrown
  rw [← hbuilt, ← hcompiled] at hdir
  exact ⟨hgrown, hdir, Pipeline.distinct_of_compile hrun⟩

-- The dry run reads the histories.
theorem run_compile_dry (h : (compiling o path at_).run.run w = (.ok (c, s, run), w')) :
    (runCompile o path true at_).run.run w =
      ((({ s with files := w'.files }.prospect c.high run.versions).map (answer o run true)).mapError .ofFault,
        w') := by
  have hforesee := Sync.run_foresee c.high run.versions { s with files := w'.files }
  have hstoring : (Task.storing s (Sync.foresee c.high run.versions)).run.run w' =
      (({ s with files := w'.files }.prospect c.high run.versions).mapError .ofFault, w') := by
    rw [Task.storing, run_bind_of_ok (Task.run_withStore hforesee), Task.run_ofExcept]
  rw [runCompile_eq, run_bind_of_ok h]
  cases hprospect : { s with files := w'.files }.prospect c.high run.versions with
  | error e =>
      rw [hprospect] at hstoring
      exact run_bind_of_error hstoring
  | ok outcomes =>
      rw [hprospect] at hstoring
      exact run_bind_of_ok hstoring

-- The real one tells what has come of the sync.
theorem run_compile_real {waits : List Sync.Wait} {result : Except Fault Sync.Report} {after : FileStore}
    (h : (compiling o path at_).run.run w = (.ok (c, s, run), w'))
    (happly : (Sync.apply (Pipeline.syncSettings c) run.versions).run { s with files := w'.files } =
      ((waits, result), after)) :
    ((runCompile o path false at_).run.run w).1 = (result.map (answer o run false)).mapError .ofFault := by
  have hsync : (Pipeline.reconcile c run.versions).run { s with files := w'.files } =
      ((result, .event .reconcileBegin [] :: Pipeline.syncEnd result), after) := by
    rw [Pipeline.reconcile, StateT.run_bind, happly]
    rfl
  have hreconcile : (reconcile c s run.versions).run.run w' = (result.mapError .ofFault,
      ⟨after.files, w'.trace ++ .event .reconcileBegin [] :: Pipeline.syncEnd result⟩) := by
    rw [reconcile, run_bind_of_ok (Task.run_withStore hsync)]
    exact Task.run_ofExcept result _
  rw [runCompile_eq, run_bind_of_ok h]
  cases result with
  | error e => exact congrArg Prod.fst (run_bind_of_error hreconcile)
  | ok outcomes => exact congrArg Prod.fst (run_bind_of_ok hreconcile)

-- Where no other writer is and the files do not fail, the dry run gives the outcomes of the real one, or its
-- error, and no file is any different after it.
theorem dry_run_foresees (h : (compiling o path at_).run.run w = (.ok (c, s, run), w'))
    (hlocks : ∀ v ∈ run.versions, w'.files.at? (lockFile v.name :: s.dir) = none)
    (hfiles : ∀ e : FileFault, ((runCompile o path false at_).run.run w).1 ≠ .error (.failed e.toFault)) :
    ∃ outcomes : Except Fault Sync.Report,
      ((runCompile o path false at_).run.run w).1 = (outcomes.map (answer o run false)).mapError .ofFault ∧
      ((runCompile o path true at_).run.run w).1 = (outcomes.map (answer o run true)).mapError .ofFault ∧
      ∀ place text, ((runCompile o path true at_).run.run w).2.files.at? place = some (.file text) ↔
        w.files.at? place = some (.file text) := by
  have hcompiled := compiled_of_run_compiling h
  have hunlocked : ∀ v ∈ run.versions, ({ s with files := w'.files } : FileStore).Unlocked v.name :=
    fun v hv => ⟨hcompiled.dir, hlocks v hv⟩
  obtain ⟨result, after, happly, hresult⟩ :=
    Sync.run_apply_unlocked (Pipeline.syncSettings c) hunlocked hcompiled.distinct
  have hreal := run_compile_real h happly
  have hdry := run_compile_dry h
  rcases hresult with rfl | ⟨e, rfl⟩
  · refine ⟨_, hreal, by rw [hdry]; rfl, fun place text => ?_⟩
    rw [hdry]
    exact hcompiled.grown.at?_file text
  · exact absurd hreal (hfiles e)

end

/-! ### A definition that has changed -/

section
open Schema.Packaged Timeline

theorem exists_run_compiling {o : Occasion} {path : String} {at_ : Option Instant} {c : Config} {s : FileStore}
    {fs : Files} {p : Pipeline} {run : Compilation} (hconfig : Config.load w.files path = .ok c)
    (hopen : openAt (c.resolve c.storeDir) c.high w.files = (.ok s, fs))
    (hbuild : Traced.Yields (Pipeline.build c (.below c.base) fs) p)
    (hcompile : Traced.Yields (p.compile fs o.runId (at_.getD o.now)) run) :
    ∃ trace, (compiling o path at_).run.run w = (.ok (c, s, run), ⟨fs, trace⟩) := by
  have hload : (loadConfig path).run.run w =
      (.ok c, ⟨w.files, w.trace ++ [.event .configLoaded [("path", path)]]⟩) := by
    rw [loadConfig, run_get_bind, hconfig]
    rfl
  have hstore (trace : List Record) : (openStore c).run.run ⟨w.files, trace⟩ = (.ok s, ⟨fs, trace⟩) := by
    rw [openStore, run_get_bind, hopen]
    rfl
  obtain ⟨built, hbuild⟩ := hbuild (w.trace ++ [.event .configLoaded [("path", path)]])
  obtain ⟨compiled, hcompile⟩ := hcompile built
  have hpipeline : (buildPipeline c).run.run ⟨fs, _⟩ = (.ok p, ⟨fs, built⟩) := Task.run_traced_of_ok hbuild
  have hrun : (Task.traced fun fs => p.compile fs o.runId (at_.getD o.now)).run.run ⟨fs, built⟩ =
      (.ok run, ⟨fs, compiled⟩) := Task.run_traced_of_ok hcompile
  refine ⟨compiled, ?_⟩
  rw [compiling, run_bind_of_ok hload, run_bind_of_ok (hstore _), run_bind_of_ok hpipeline,
    run_bind_of_ok hrun]
  rfl

def priceConfig : Config := { defsDir := "defs", storeDir := "store", base := some "" }

-- The version that is stored.
def storedPrice : Version := .ofBody "price" newYear priceConfig.high .null

def priceFiles : Files :=
  ⟨[(["c.json"], .file (some "\x7b\"defs_dir\": \"defs\", \"store_dir\": \"store\"\x7d")),
    (["defs"], .directory), (["a.yml", "defs"], .file (some (limitedText "0.5"))),
    (["store"], .directory), (["price.json", "store"], .file (some (History.toJson [storedPrice])))], []⟩

def priceTree : Tree := limited ⟨0x3FE0000000000000⟩

def priceStore : FileStore := ⟨["store"], priceConfig.high, priceFiles⟩

def priceRun : Compilation :=
  ⟨dayAfter, priceTree, priceTree, versionsAt priceConfig.high dayAfter (definitions priceTree)⟩

theorem yields_build_price :
    Traced.Yields (Pipeline.build priceConfig (.below priceConfig.base) priceFiles)
      ⟨priceConfig, .below priceConfig.base, Pipeline.packaged⟩ :=
  Pipeline.yields_build (by decide) (Pipeline.loadContracts_packaged _ _)

theorem yields_compile_price (runId : String) :
    Traced.Yields (Pipeline.compile ⟨priceConfig, .below priceConfig.base, Pipeline.packaged⟩ priceFiles
      runId dayAfter) priceRun := by
  have hids : Source.discover (.below priceConfig.base) priceFiles priceConfig.defsDir = .ok ["defs/a.yml"] := by
    decide +kernel
  have htext : (Resources.below priceConfig.base).read priceFiles "defs/a.yml" =
      .ok ⟨"defs/a.yml", .file "defs/a.yml", limitedText "0.5"⟩ := by decide +kernel
  have hyaml : Tree.ofYaml? (limitedText "0.5") = some priceTree :=
    ofYaml?_limitedText (by decide +kernel) (by decide +kernel)
  have hload := Source.load_singleton (Source.loadOne_of_read htext hyaml (by decide))
  have hnormal : Normal.normalize priceConfig.defaultSteps priceTree = .ok priceTree :=
    Pipeline.normalize_of_effective (by decide) (validate_limited _) _
  have hdefined : (contract .defined "defined").validate .collectAll priceTree = .ok () :=
    Pipeline.validate_defined_of_effective (validate_limited _) .collectAll
  have heffective : (contract .effective "effective").validate .collectAll priceTree = .ok () :=
    Pipeline.validate_normalize (by decide) hdefined hnormal
  exact Pipeline.yields_compile (Pipeline.yields_loadDefined rfl hids hload)
    (Pipeline.yields_effectiveOf hdefined hnormal heffective) (compile_of_lt (by decide) priceTree)

theorem readHistory_price : priceStore.readHistory "price" = .ok [storedPrice] := by
  have hdated : storedPrice.Dated :=
    ⟨⟨by decide, by decide, by decide, by decide⟩, ⟨by decide, by decide, by decide, by decide⟩⟩
  have hnull : Tree.ofJson? (Tree.null).toJson = some .null := by
    rw [Tree.ofJson?_toJson (Nat.zero_le _)]
    rfl
  have hreread : storedPrice.reread? = some storedPrice := by
    rw [storedPrice, Version.reread?_ofBody, hnull]
    rfl
  have hfile : priceStore.files.at? (historyFile "price" :: priceStore.dir) =
      some (.file (some (History.toJson [storedPrice]))) := rfl
  rw [readHistory_of_file hfile, History.ofJson?_toJson (List.forall_mem_singleton.mpr hdated),
    List.mapM_cons, hreread]
  rfl

-- Both tell that the stored version ends a second before the new one begins.
theorem dry_run_foresees_price :
    ∃ trace outcomes, (compiling ⟨dayAfter, "1"⟩ "c.json" none).run.run ⟨priceFiles, []⟩ =
        (.ok (priceConfig, priceStore, priceRun), ⟨priceFiles, trace⟩) ∧
      (∀ v ∈ priceRun.versions, priceFiles.at? (lockFile v.name :: priceStore.dir) = none) ∧
      ((runCompile ⟨dayAfter, "1"⟩ "c.json" false none).run.run ⟨priceFiles, []⟩).1 =
        .ok (answer ⟨dayAfter, "1"⟩ priceRun false [("price", .superseded ⟨1704153599, 0⟩)]) ∧
      ((runCompile ⟨dayAfter, "1"⟩ "c.json" false none).run.run ⟨priceFiles, []⟩).1 =
        .ok (answer ⟨dayAfter, "1"⟩ priceRun false outcomes) ∧
      ((runCompile ⟨dayAfter, "1"⟩ "c.json" true none).run.run ⟨priceFiles, []⟩).1 =
        .ok (answer ⟨dayAfter, "1"⟩ priceRun true outcomes) ∧
      ((runCompile ⟨dayAfter, "1"⟩ "c.json" true none).run.run ⟨priceFiles, []⟩).2.files.at?
        ["price.json", "store"] = some (.file (some (History.toJson [storedPrice]))) := by
  have hconfig : Config.load priceFiles "c.json" = .ok priceConfig := by decide +kernel
  have hopen : openAt (priceConfig.resolve priceConfig.storeDir) priceConfig.high priceFiles =
      (.ok priceStore, priceFiles) := rfl
  obtain ⟨trace, hcompiling⟩ : ∃ trace, (compiling ⟨dayAfter, "1"⟩ "c.json" none).run.run ⟨priceFiles, []⟩ =
      (.ok (priceConfig, priceStore, priceRun), ⟨priceFiles, trace⟩) :=
    exists_run_compiling hconfig hopen yields_build_price (yields_compile_price "1")
  -- The real run closes the stored version.
  let price : Version := .ofBody "price" dayAfter priceConfig.high (.map [
    ("axis", .map [("fact", .map [("members", .seq [])])]),
    ("query", .map [("limit", .float ⟨0x3FE0000000000000⟩)])])
  have hwritable : priceStore.Writable price.name := ⟨⟨rfl, by decide, rfl, rfl⟩, by decide⟩
  have hprecedes : storedPrice.Precedes price := show newYear ≤ dayAfter.secondBefore by decide
  obtain ⟨after, hsettle⟩ : ∃ after,
      (Sync.settle (Pipeline.syncSettings priceConfig) price 0 priceConfig.retries).run priceStore =
        (([], .ok (.superseded ⟨1704153599, 0⟩)), after) :=
    Sync.run_settle_changed hwritable (by decide) ⟨rfl, by decide, by decide⟩ readHistory_price rfl rfl rfl rfl
      hprecedes rfl priceConfig.retries
  have happly : (Sync.apply (Pipeline.syncSettings priceConfig) priceRun.versions).run priceStore =
      (([], .ok [("price", .superseded ⟨1704153599, 0⟩)]), after) := Sync.run_apply_of_settle hsettle rfl
  have hreal := run_compile_real hcompiling happly
  have hlocks : ∀ v ∈ priceRun.versions, priceFiles.at? (lockFile v.name :: priceStore.dir) = none := by decide
  obtain ⟨outcomes, htold, hdry, hkept⟩ := dry_run_foresees hcompiling hlocks fun e he => by
    rw [hreal] at he
    cases he
  cases outcomes with
  | error e =>
      rw [htold] at hreal
      cases hreal
  | ok report => exact ⟨trace, report, hcompiling, hlocks, hreal, htold, hdry, (hkept _ _).mpr rfl⟩

end

end Command
end ScraperTimeline
