import ScraperTimeline.Proofs.Files.Basic

/-!
Directories that are made with those around them. Nothing but missing directories on the way is added, and
they can all be made unless a file or a name that is too long is in the way.
-/
namespace ScraperTimeline.Files

variable {fs fs' fs'' : Files} {p q : Path} {name : String} {dir : Path}

-- The same but for directories where nothing was.
def Grown (fs fs' : Files) : Prop :=
  ∀ q, fs'.at? q = fs.at? q ∨ (fs.at? q = none ∧ fs'.at? q = some .directory)

-- Neither a file nor a name that is too long is on the way to a place.
def Open (fs : Files) : Path → Prop
  | [] => True
  | name :: dir =>
    (fs.at? (name :: dir) = none ∨ fs.at? (name :: dir) = some .directory) ∧
      name.utf8ByteSize ≤ longestName ∧ fs.Open dir

theorem Grown.refl (fs : Files) : fs.Grown fs := fun _ => .inl rfl

theorem Grown.trans (h : fs.Grown fs') (h' : fs'.Grown fs'') : fs.Grown fs'' := by
  intro q
  rcases h q with heq | ⟨hnone, hdir⟩
  · exact heq ▸ h' q
  · rcases h' q with heq' | ⟨hnone', -⟩
    · exact .inr ⟨hnone, heq'.trans hdir⟩
    · rw [hdir] at hnone'
      cases hnone'

theorem Grown.set_directory (h : fs.at? (name :: dir) = none) :
    fs.Grown (fs.set (name :: dir) .directory) := by
  intro q
  by_cases hq : q = name :: dir
  · subst hq
    exact .inr ⟨h, at?_set_self ..⟩
  · exact .inl (at?_set_of_ne hq _ _)

-- Files stay as they are, and nothing else becomes a file.
theorem Grown.at?_file (h : fs.Grown fs') (text : Option String) :
    fs'.at? q = some (.file text) ↔ fs.at? q = some (.file text) := by
  rcases h q with heq | ⟨hnone, hdir⟩
  · rw [heq]
  · simp [hnone, hdir]

theorem Grown.open (h : fs.Grown fs') (hopen : fs.Open p) : fs'.Open p := by
  induction p with
  | nil => trivial
  | cons name dir ih =>
      obtain ⟨hplace, hname, hdir⟩ := hopen
      refine ⟨?_, hname, ih hdir⟩
      rcases h (name :: dir) with heq | ⟨-, hmade⟩
      · rwa [heq]
      · exact .inr hmade

theorem Open.congr (hopen : fs.Open p) (h : ∀ q, q <:+ p → fs'.at? q = fs.at? q) : fs'.Open p := by
  induction p with
  | nil => trivial
  | cons name dir ih =>
      obtain ⟨hplace, hname, hdir⟩ := hopen
      refine ⟨?_, hname, ih hdir fun q hq => h q (hq.trans (List.suffix_cons _ _))⟩
      rwa [h _ (List.suffix_refl _)]

theorem Open.at?_eq (h : fs.Open p) : fs.at? p = none ∨ fs.at? p = some .directory := by
  cases p with
  | nil => exact .inr rfl
  | cons name dir => exact h.1

-- What making a directory does, whether it can be made or not.
structure Ensured (p : Path) (fs : Files) (result : Except FileFault Unit) (fs' : Files) : Prop where
  grown : fs.Grown fs'
  elsewhere : ∀ q, ¬q <:+ p → fs'.at? q = fs.at? q
  made : result = .ok () → fs'.at? p = some .directory
  complete : fs.Open p → result = .ok ()

theorem not_cons_suffix (name : String) (dir : Path) : ¬name :: dir <:+ dir :=
  fun h => absurd h.length_le (by simp)

-- The last step of making a directory, once those around it are there.
def ensureLast (name : String) (dir : Path) : Filing Unit := do
  (← get).room (name :: dir)
  modify (set (name :: dir) .directory)

theorem run_ensureLast (hdir : fs.at? dir = some .directory) :
    (ensureLast name dir).run.run fs =
      if longestName < name.utf8ByteSize then (.error .nameTooLong, fs)
      else (.ok (), fs.set (name :: dir) .directory) := by
  rw [ensureLast, run_get_bind]
  split
  · rename_i hlong
    rw [room_of_long hdir hlong]
    rfl
  · rename_i hfits
    rw [room_of_directory hdir (Nat.not_lt.mp hfits)]
    rfl

theorem run_ensure_of_missing (h : fs.at? (name :: dir) = none)
    (hdir : ∀ text, fs.at? dir ≠ some (.file text)) :
    (ensure (name :: dir)).run.run fs = (ensure dir >>= fun _ => ensureLast name dir).run.run fs := by
  rw [ensure, run_get_bind, h]
  dsimp only
  rw [run_get_bind]
  cases haround : fs.at? dir with
  | none => rfl
  | some e =>
      cases e with
      | directory => rfl
      | file text => exact (hdir text haround).elim

-- A directory that is missing is made after those around it.
theorem exists_run_ensure_of_missing (hmissing : fs.at? (name :: dir) = none)
    (hnofile : ∀ text, fs.at? dir ≠ some (.file text))
    (haround : ∃ result fs', (ensure dir).run.run fs = (result, fs') ∧ Ensured dir fs result fs') :
    ∃ result fs', (ensure (name :: dir)).run.run fs = (result, fs') ∧ Ensured (name :: dir) fs result fs' := by
  rw [run_ensure_of_missing hmissing hnofile]
  obtain ⟨result, fs', hrun, hdir⟩ := haround
  have helsewhere : ∀ q, ¬q <:+ name :: dir → fs'.at? q = fs.at? q := fun q hq =>
    hdir.elsewhere q fun h => hq (h.trans (List.suffix_cons _ _))
  cases result with
  | error e =>
      refine ⟨_, _, run_bind_of_error hrun, hdir.grown, helsewhere, by simp, fun hopen => ?_⟩
      cases hdir.complete hopen.2.2
  | ok u =>
      have hstill : fs'.at? (name :: dir) = none :=
        (hdir.elsewhere _ (not_cons_suffix name dir)).trans hmissing
      rw [run_bind_of_ok hrun, run_ensureLast (hdir.made rfl)]
      split
      · rename_i hlong
        refine ⟨_, _, rfl, hdir.grown, helsewhere, by simp, fun hopen => ?_⟩
        exact absurd hopen.2.1 (by omega)
      · refine ⟨_, _, rfl, hdir.grown.trans (.set_directory hstill), fun q hq => ?_,
          fun _ => at?_set_self .., fun _ => rfl⟩
        rw [at?_set_of_ne (fun heq : q = name :: dir => hq (heq ▸ List.suffix_refl _)), helsewhere q hq]

theorem exists_run_ensure (p : Path) (fs : Files) :
    ∃ result fs', (ensure p).run.run fs = (result, fs') ∧ Ensured p fs result fs' := by
  induction p with
  | nil => exact ⟨_, _, rfl, .refl fs, fun _ _ => rfl, fun _ => rfl, fun _ => rfl⟩
  | cons name dir ih =>
      -- A file at the place or around it is in the way.
      cases hplace : fs.at? (name :: dir) with
      | some e =>
          cases e with
          | directory => exact ⟨_, _, run_ensure hplace, .refl fs, fun _ _ => rfl, fun _ => hplace, fun _ => rfl⟩
          | file text =>
              rw [ensure, run_get_bind, hplace]
              refine ⟨_, _, rfl, .refl fs, fun _ _ => rfl, by simp, fun hopen => ?_⟩
              exact absurd hopen.1 (by simp [hplace])
      | none =>
          by_cases haround : ∃ text, fs.at? dir = some (.file text)
          · obtain ⟨text, haround⟩ := haround
            rw [ensure, run_get_bind, hplace]
            dsimp only
            rw [run_get_bind, haround]
            refine ⟨_, _, rfl, .refl fs, fun _ _ => rfl, by simp, fun hopen => ?_⟩
            exact absurd hopen.2.2.at?_eq (by simp [haround])
          · exact exists_run_ensure_of_missing hplace (fun text h => haround ⟨text, h⟩) ih

-- A file is written as a whole once its directory is made.
theorem exists_run_replace (text : String) (hopen : fs.Open dir) :
    ∃ fs', Ensured dir fs (.ok ()) fs' ∧ fs'.at? dir = some .directory ∧
      (replace (name :: dir) text).run.run fs = (replace (name :: dir) text).run.run fs' := by
  obtain ⟨result, fs', hrun, hensured⟩ := exists_run_ensure dir fs
  obtain rfl := hensured.complete hopen
  refine ⟨fs', hensured, hensured.made rfl, ?_⟩
  rw [replace, run_bind_of_ok hrun, run_bind_of_ok (run_ensure (hensured.made rfl))]

-- Nothing is found on a way that is open but ends early.
theorem Open.absence_eq (h : fs.Open p) : fs.absence p = .notFound := by
  have hroom : fs.room p = .ok () ∨ fs.room p = .error .notFound := by
    induction p with
    | nil => exact .inl rfl
    | cons name dir ih =>
        obtain ⟨-, hname, hdir⟩ := h
        rcases hdir.at?_eq with hat | hat
        · rw [room, hat]
          dsimp only
          rcases ih hdir with hroom | hroom
          · rw [hroom]; exact .inr rfl
          · rw [hroom]; exact .inr rfl
        · exact .inl (room_of_directory hat hname)
  rw [absence]
  rcases hroom with hroom | hroom
  · rw [hroom]
  · rw [hroom]

/-! ### Directories by text -/

-- Work on files that makes directories at most.
def Growing {α : Type} (x : Filing α) : Prop :=
  ∀ fs : Files, fs.Grown (x.run.run fs).2

namespace Growing

variable {α β : Type} {x : Filing α} {f : α → Filing β}

theorem bind (hx : Growing x) (hf : ∀ a, Growing (f a)) : Growing (x >>= f) := by
  intro fs
  rcases hrun : x.run.run fs with ⟨e | a, fs'⟩
  · have hgrown := hx fs
    rw [hrun] at hgrown
    rwa [run_bind_of_error hrun]
  · have hgrown := hx fs
    rw [hrun] at hgrown
    rw [run_bind_of_ok hrun]
    exact hgrown.trans (hf a fs')

theorem pure (a : α) : Growing (Pure.pure a : Filing α) := Grown.refl

theorem throw (e : FileFault) : Growing (throw e : Filing α) := Grown.refl

theorem get : Growing (get : Filing Files) := Grown.refl

theorem lift (r : Except FileFault α) : Growing (liftM r : Filing α) := by
  cases r <;> exact Grown.refl

theorem ensure (p : Path) : Growing (Files.ensure p) := by
  intro fs
  obtain ⟨result, fs', hrun, hensured⟩ := exists_run_ensure p fs
  rw [hrun]
  exact hensured.grown

theorem advanceMaking (p : Path) (piece : String) : Growing (Files.advanceMaking p piece) := by
  refine get.bind fun fs => ?_
  split
  · exact (throw _).bind fun _ : PUnit => (ensure p).bind fun _ => pure _
  · exact (ensure p).bind fun _ => pure _

theorem foldlM {f : β → α → Filing β} (hf : ∀ b a, Growing (f b a)) (as : List α) (b : β) :
    Growing (as.foldlM f b) := by
  induction as generalizing b with
  | nil => exact pure b
  | cons a rest ih =>
      rw [List.foldlM_cons]
      exact (hf b a).bind ih

theorem ensureAt (text : String) : Growing (Files.ensureAt text) := by
  have hrest : Growing (do
      let pieces := Path.pieces text
      let start := (← MonadState.get).start text
      if (pieces.reverse.dropWhile (· = "")).head? = some "." then
        Files.ensure (← (Path.trimEnd pieces).dropLast.foldlM Files.advanceMaking start)
        let p ← (← MonadState.get).locate text
        let _ ← (← MonadState.get).advance p ""
        return p
      else
        let p ← pieces.foldlM Files.advanceMaking start
        Files.ensure p
        return p : Filing Path) := by
    refine get.bind fun fs => ?_
    split
    · refine (foldlM advanceMaking _ _).bind fun p => (ensure p).bind fun _ => get.bind fun fs => ?_
      exact (lift _).bind fun p => get.bind fun fs => (lift _).bind fun _ => pure p
    · exact (foldlM advanceMaking _ _).bind fun p => (ensure p).bind fun _ => pure p
  unfold Files.ensureAt
  split
  · exact (throw _).bind fun _ : PUnit => hrest
  · exact hrest

end Growing

theorem at?_of_run_ensure (h : (ensure p).run.run fs = (.ok (), fs')) : fs'.at? p = some .directory := by
  obtain ⟨result, fs'', hrun, hensured⟩ := exists_run_ensure p fs
  cases hrun.symm.trans h
  exact hensured.made rfl

-- What comes of it is a directory that is there.
theorem at?_of_run_ensureAt {text : String} (h : (ensureAt text).run.run fs = (.ok p, fs')) :
    fs'.at? p = some .directory := by
  unfold ensureAt at h
  split at h
  · obtain ⟨_, _, hthrow, -⟩ := exists_of_run_bind h
    cases hthrow
  · obtain ⟨_, fs₁, hget, h⟩ := exists_of_run_bind h
    cases hget
    split at h
    · obtain ⟨_, _, -, h⟩ := exists_of_run_bind h
      obtain ⟨_, _, -, h⟩ := exists_of_run_bind h
      obtain ⟨_, _, -, h⟩ := exists_of_run_bind h
      obtain ⟨place, _, -, h⟩ := exists_of_run_bind h
      obtain ⟨fs₂, _, hget, h⟩ := exists_of_run_bind h
      cases hget
      obtain ⟨_, _, hadvance, h⟩ := exists_of_run_bind h
      have hstep := eq_ok_of_run_lift hadvance
      rw [eq_ok_of_run_lift hadvance] at hadvance
      cases hadvance
      cases h
      unfold advance at hstep
      split at hstep
      next hdir => exact hdir
      next => cases hstep
      next => cases hstep
    · obtain ⟨place, _, -, h⟩ := exists_of_run_bind h
      obtain ⟨_, _, hensure, h⟩ := exists_of_run_bind h
      cases h
      exact at?_of_run_ensure hensure

end ScraperTimeline.Files
