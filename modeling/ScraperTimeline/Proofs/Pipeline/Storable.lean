import ScraperTimeline.Proofs.Pipeline.Unmasked
import ScraperTimeline.Proofs.Timeline.Failed
import ScraperTimeline.Proofs.Timeline.Recompiled

/-!
Names that definitions may have. The contracts accept those that the stores accept, so that nothing that is
compiled from an accepted tree is refused for its name, and each name has files of its own.
-/
namespace ScraperTimeline

/-! ### Calls that do not fail in one way -/

section
variable {σ α β : Type} {x : Storing σ α} {f : α → Storing σ β} {e : Fault}

-- A failure that does not come of a computation, whatever the state.
def Never (e : Fault) (x : Storing σ α) : Prop := ∀ s, (x.run.run s).1 ≠ .error e

theorem Never.lift {r : Except Fault α} (hr : r ≠ .error e) : Never e (liftM r : Storing σ α) := by
  intro s
  cases r with
  | ok a => exact fun h => nomatch h
  | error e' => exact hr

theorem never_of_total {g : σ → α × σ} : Never e (fun s => (.ok (g s).1, (g s).2) : Storing σ α) :=
  fun _ h => nomatch h

theorem Never.throw {e' : Fault} (hne : e' ≠ e) : Never e (throw e' : Storing σ α) :=
  fun _ h => hne (Except.error.inj h)

theorem Never.bind (hx : Never e x) (hf : ∀ a, Never e (f a)) : Never e (x >>= f) := by
  intro s
  rcases hrun : x.run.run s with ⟨e' | a, s'⟩
  · rw [run_bind_of_error hrun]
    intro heq
    exact hx s (by rw [hrun]; exact congrArg Except.error (Except.error.inj heq))
  · rw [run_bind_of_ok hrun]
    exact hf a s'

theorem Never.map (hx : Never e x) (g : α → β) : Never e (x >>= fun a => pure (g a)) :=
  hx.bind fun a => never_of_total (g := fun s => (g a, s))

-- A failure is passed on as it is by what is done on the way out.
theorem Never.tryCatch (hx : Never e x) {h : Fault → Storing σ α} (hh : ∀ e' ≠ e, Never e (h e')) :
    Never e (tryCatch x h) := by
  intro s
  rcases hrun : x.run.run s with ⟨e' | a, s'⟩
  · rw [run_tryCatch_of_error hrun]
    refine hh e' (fun heq => hx s ?_) s'
    rw [hrun, heq]
  · rw [run_tryCatch_of_ok hrun]
    exact fun h => nomatch h

end

/-! ### Refused names -/

namespace Store
open FileStore (unnamable)

variable {name other : String}

theorem checkName_eq (name : String) :
    checkName name = if isName name then .ok () else .error (unnamable name) := rfl

theorem checkName_eq_ok_iff : checkName name = .ok () ↔ isName name := by
  rw [checkName_eq]
  split <;> simp_all

theorem checkName_eq_error_iff : checkName name = .error (unnamable name) ↔ ¬isName name := by
  rw [checkName_eq]
  split <;> simp_all

theorem unnamable_inj (h : unnamable name = unnamable other) : name = other := by simpa [unnamable] using h

-- No name is refused with a text that begins with another letter.
theorem storeFailed_ne_unnamable {reason : String} (h : reason.toList.head? ≠ some 'i') :
    Fault.storeFailed reason ≠ unnamable name := by
  intro heq
  obtain rfl := Fault.storeFailed.inj heq
  exact h (by simp)

theorem toFault_ne_unnamable (e : FileFault) : e.toFault ≠ unnamable name :=
  storeFailed_ne_unnamable (by cases e <;> decide)

theorem concurrentModification_ne_unnamable : Fault.concurrentModification other ≠ unnamable name := nofun

-- A name that can be stored is not the one that is refused, whichever is looked at.
theorem checkName_ne_unnamable (hname : isName name) : checkName other ≠ .error (unnamable name) := by
  rw [checkName_eq]
  split
  · exact nofun
  · rename_i hother
    intro heq
    exact hother (unnamable_inj (Except.error.inj heq) ▸ hname)

theorem checkWrites_ne_unnamable (writes : List Version) : checkWrites other writes ≠ .error (unnamable name) := by
  rw [checkWrites]
  split
  · simp
  · exact fun heq => storeFailed_ne_unnamable (by simp) (Except.error.inj heq)

theorem swapped_ne_unnamable {high : Instant} {expected : Option Version} {writes : List Version} {h : History} :
    swapped high other expected writes h ≠ .error (unnamable name) := by
  rw [swapped]
  split
  · simp
  · exact fun heq => concurrentModification_ne_unnamable (Except.error.inj heq)

-- A store of which no call refuses a name that can be stored.
structure Welcoming (σ : Type) [Store σ] (name : String) : Prop where
  names : Never (unnamable name) (Store.names : Storing σ (List String))
  findAll : ∀ other, Never (unnamable name) (Store.findAll other : Storing σ History)
  findOpen : ∀ other, Never (unnamable name) (Store.findOpen other : Storing σ (Option Version))
  put : ∀ v, Never (unnamable name) (Store.put v : Storing σ Unit)
  swap : ∀ other expected writes, Never (unnamable name) (Store.swap other expected writes : Storing σ Unit)

theorem Welcoming.call {σ : Type} [Store σ] (hσ : Welcoming σ name) (c : Call) :
    Never (unnamable name) (c.run : Storing σ Answer) := by
  cases c with
  | names => exact hσ.names.map _
  | findAll other => exact (hσ.findAll other).map _
  | findOpen other => exact (hσ.findOpen other).map _
  | findActive other t => exact ((hσ.findAll other).map _).map _
  | put v => exact (hσ.put v).map _
  | swap other expected writes => exact (hσ.swap other expected writes).map _

end Store

open Store FileStore

theorem MemoryStore.welcoming {name : String} (hname : isName name) : Welcoming MemoryStore name where
  names _ h := nomatch h
  findAll _ _ h := nomatch h
  findOpen _ _ h := nomatch h
  put v := (Never.lift (checkName_ne_unnamable hname)).bind fun _ _ h => nomatch h
  swap other expected writes := by
    refine (Never.lift (checkName_ne_unnamable hname)).bind fun _ => ?_
    refine (Never.lift (checkWrites_ne_unnamable writes)).bind fun _ => ?_
    refine Never.bind (fun _ h => nomatch h) fun s => ?_
    exact (Never.lift swapped_ne_unnamable).bind fun h _ hset => nomatch hset

namespace FileStore

variable {name other : String}

theorem readHistory_ne_unnamable (s : FileStore) : s.readHistory other ≠ .error (unnamable name) := by
  have hunreadable : Fault.storeFailed ("unreadable history for '" ++ other ++ "': " ++ Fault.unreadable) ≠
      unnamable name := storeFailed_ne_unnamable (by simp)
  rw [readHistory]
  split
  · cases History.ofJson? _ with
    | none => exact fun heq => hunreadable (Except.error.inj heq)
    | some h => simp
  · simp
  · exact fun heq => hunreadable (Except.error.inj heq)
  · exact fun heq => toFault_ne_unnamable _ (Except.error.inj heq)

theorem never_history (hname : isName name) : Never (unnamable name) (history other) :=
  (Never.lift (checkName_ne_unnamable hname)).bind fun _ =>
    Never.bind (fun _ h => nomatch h) fun s => Never.lift s.readHistory_ne_unnamable

theorem never_filing {α : Type} (x : Filing α) : Never (unnamable name) (filing x) := by
  refine Never.bind (fun _ h => nomatch h) fun s => Never.bind (fun _ h => nomatch h) fun _ => ?_
  split
  · exact fun _ h => nomatch h
  · exact .throw (toFault_ne_unnamable _)

theorem never_lock : Never (unnamable name) (lock other) := by
  refine Never.bind (fun _ h => nomatch h) fun s => ?_
  split
  · exact fun _ h => nomatch h
  · exact .throw concurrentModification_ne_unnamable
  · exact .throw (toFault_ne_unnamable _)

theorem never_locked {x : Storing FileStore Unit} (hx : Never (unnamable name) x) :
    Never (unnamable name) (locked other x) := by
  refine never_lock.bind fun _ => Never.bind (hx.tryCatch fun e he => ?_) fun _ _ h => nomatch h
  exact Never.bind (fun _ h => nomatch h) fun _ => .throw he

theorem never_writeHistory (h : History) : Never (unnamable name) (writeHistory other h) :=
  Never.bind (fun _ h => nomatch h) fun _ => never_filing _

theorem never_names : Never (unnamable name) names := by
  refine Never.bind (fun _ h => nomatch h) fun s => ?_
  split
  · exact fun _ h => nomatch h
  · exact .throw (toFault_ne_unnamable _)
  · exact .throw (toFault_ne_unnamable _)

theorem welcoming (hname : isName name) : Welcoming FileStore name where
  names := never_names
  findAll other := (never_history hname).map _
  findOpen other := (never_history hname).bind fun _ => Never.bind (fun _ h => nomatch h) fun _ _ h => nomatch h
  put v := by
    refine (Never.lift (checkName_ne_unnamable hname)).bind fun _ => never_locked ?_
    exact (never_history hname).bind fun h => never_writeHistory _
  swap other expected writes := by
    refine (Never.lift (checkName_ne_unnamable hname)).bind fun _ => ?_
    refine (Never.lift (checkWrites_ne_unnamable writes)).bind fun _ => never_locked ?_
    refine Never.bind (fun _ h => nomatch h) fun s => (never_history hname).bind fun h => ?_
    exact (Never.lift swapped_ne_unnamable).bind fun h => never_writeHistory h

theorem lockFile_inj (h : lockFile name = lockFile other) : name = other := by simpa [lockFile] using h

theorem historyFile_ne_lock (name other : String) : historyFile name ≠ lockFile other := by
  intro heq
  have hlast := congrArg (fun file : String => file.toList.getLast?) heq
  simp [historyFile, lockFile] at hlast

end FileStore

/-! ### Accepted names -/

namespace Schema.Packaged
open ScraperTimeline.Normal

-- What a contract reports of a name, at the section of definitions.
def mismatch (name : String) : Violation :=
  ⟨"/dataDefs", quotedName name ++ " does not match \"" ++ "^[A-Za-z0-9_-]+$" ++ "\""⟩

theorem mem_check_names {follow : String → String → Tree → List Violation} {fields : List (String × Tree)}
    {v : Violation} :
    v ∈ check follow "/dataDefs" (.map fields)
        (.propertyNames (.all [.pattern "^[A-Za-z0-9_-]+$" namePattern])) ↔
      ∃ name ∈ Fields.keys fields, ¬isName name ∧ v = mismatch name := by
  have hname (name : String) : v ∈ check follow "/dataDefs" (.string name)
      (.all [.pattern "^[A-Za-z0-9_-]+$" namePattern]) ↔ ¬isName name ∧ v = mismatch name := by
    rw [check, checkAll, checkAll, check, accepts_namePattern, List.append_nil]
    split <;> simp_all [mismatch]
  rw [check, if_neg (by simp [isNever]), List.mem_flatMap]
  simp [hname, Fields.keys]

-- The schema of the section of definitions reports at the section itself only about names.
theorem mem_check_dataDefs {follow : String → String → Tree → List Violation} (hfollow : Local follow)
    {target : String} {fields : List (String × Tree)} {v : Violation} :
    v ∈ check follow "/dataDefs" (.map fields) (mapping [.additional [] (.ref target),
        .propertyNames (.all [.pattern "^[A-Za-z0-9_-]+$" namePattern])]) ∧ v.path = "/dataDefs" ↔
      ∃ name ∈ Fields.keys fields, ¬isName name ∧ v = mismatch name := by
  have hbelow : v.path = "/dataDefs" →
      v ∉ check follow "/dataDefs" (.map fields) (.additional [] (.ref target)) := by
    intro hpath hv
    rw [check_additional, refusals, List.mem_append, List.mem_flatMap] at hv
    rcases hv with ⟨field, -, hv⟩ | hv
    · have hnone : ∀ d ∈ ([] : List (String × Schema)), ∀ path t, Inside path (check follow path t d.2) := by simp
      have hinside := inside_checkField field hnone (inside_check hfollow (.ref target)) v hv
      exact not_covers_around (hpath ▸ hinside)
    · cases hv
  have htype : check follow "/dataDefs" (.map fields) (.type [.object]) = [] := by
    rw [check]
    rfl
  rw [mapping, check, checkAll_eq_flatMap]
  simp only [List.cons_append, List.nil_append, List.flatMap_cons, List.flatMap_nil, htype, List.append_nil,
    List.mem_append, mem_check_names]
  constructor
  · rintro ⟨hv | hv, hpath⟩
    · exact (hbelow hpath hv).elim
    · exact hv
  · rintro ⟨name, hname, hbad, rfl⟩
    exact ⟨.inr ⟨name, hname, hbad, rfl⟩, rfl⟩

variable {stage : Stage} {title : String} {t : Tree} {fields : List (String × Tree)} {v : Violation}

-- At the section of definitions a contract reports the names that cannot be stored, and nothing else.
theorem mem_report_dataDefs (hkeyed : t.keyed) (hdefs : t.field? "dataDefs" = some (.map fields)) :
    v ∈ (contract stage title).report .collectAll t ∧ v.path = "/dataDefs" ↔
      ∃ name ∈ Fields.keys fields, ¬isName name ∧ v = mismatch name := by
  have hsight : t.sight ["dataDefs"] = .found (.map fields) :=
    Tree.sight_cons_eq_found_iff.mpr ⟨_, hdefs, rfl⟩
  have hreaches : Reaches defs ["dataDefs"] _ :=
    ⟨_, passes_mapping (List.forall_mem_singleton.mpr (flat_required _)) (.inl rfl), rfl⟩
  have hlocal := (contract stage title).local_follow ((contract stage title).followBound t.plain)
  have hrestrict := restrict_check hlocal hreaches "" (Tree.keyed_plain hkeyed) (Tree.sight_plain hsight)
  rw [show "" ++ pointerTo ["dataDefs"] = "/dataDefs" from rfl, Tree.plain_map] at hrestrict
  have hinside : v ∈ (contract stage title).violations t ∧ v.path = "/dataDefs" ↔
      v ∈ restrict "/dataDefs" ((contract stage title).violations t) ∧ v.path = "/dataDefs" := by
    rw [restrict, List.mem_filter]
    refine and_congr_left fun hpath => (and_iff_left ?_).symm
    rw [hpath]
    exact covers_self _
  have hkeys (name : String) : name ∈ Fields.keys (Tree.sortByKey (fields.map fun field =>
      (field.1, field.2.plain))) ↔ name ∈ Fields.keys fields := by
    simp [Fields.keys, Tree.mem_sortByKey]
  rw [Contract.report_collectAll, hinside, Contract.violations, show (contract stage title).schema = defs from rfl,
    hrestrict, mem_check_dataDefs hlocal]
  simp only [hkeys]

end Schema.Packaged

/-! ### Both stores -/

-- A store that refuses to write versions of a name, whatever it holds.
def Store.Refuses (σ : Type) [Store σ] (name : String) : Prop :=
  (∀ (v : Version) (s : σ), v.name = name →
    (Store.put v : Storing σ Unit).run.run s = (.error (unnamable name), s)) ∧
  ∀ (expected : Option Version) (writes : List Version) (s : σ),
    (Store.swap name expected writes : Storing σ Unit).run.run s = (.error (unnamable name), s)

theorem Store.refuses_of_not_isName {name : String} (hname : isName name = false) :
    Refuses MemoryStore name ∧ Refuses FileStore name := by
  have hcheck := checkName_of_not_isName hname
  refine ⟨⟨?_, fun _ _ _ => run_bind_of_error (run_lift_of_error hcheck _)⟩, ?_,
    fun _ _ _ => run_bind_of_error (run_lift_of_error hcheck _)⟩
  · rintro v s rfl
    exact run_bind_of_error (run_lift_of_error hcheck s)
  · rintro v s rfl
    exact run_bind_of_error (run_lift_of_error hcheck s)

open Schema.Packaged in
-- The pattern of names in both contracts accepts what the stores accept. Each contract reports exactly the other
-- names of a tree, both stores refuse to write these, and nothing that is compiled from an accepted tree is
-- refused for its name by any call. Different names have different files.
theorem Pipeline.accepted_names_storable :
    (∃ pattern, Text.Pattern.read? "^[A-Za-z0-9_-]+$".toList = some pattern ∧
      ∀ name : String, pattern.accepts name.toList ↔ checkName name = .ok ()) ∧
    (∃ defined effective : Contract,
      (∀ base fs, loadContracts (.below base) fs ["defined", "effective"] =
        .ok [("defined", defined), ("effective", effective)]) ∧
      (∀ c ∈ [defined, effective], ∀ (t : Tree) (fields : List (String × Tree)), t.keyed →
        t.field? "dataDefs" = some (.map fields) → ∀ v,
          v ∈ c.report .collectAll t ∧ v.path = "/dataDefs" ↔
            ∃ name ∈ Fields.keys fields, checkName name = .error (unnamable name) ∧ v = mismatch name) ∧
      ∀ (policy : Policy) (high run : Instant) (t : Tree) (vs : List Version),
        effective.validate policy t = .ok () → Timeline.compile high run t = .ok vs → ∀ v ∈ vs,
          checkName v.name = .ok () ∧
            (∀ c : Call, Never (unnamable v.name) (c.run : Storing MemoryStore Answer)) ∧
            ∀ c : Call, Never (unnamable v.name) (c.run : Storing FileStore Answer)) ∧
    (∀ name, checkName name = .error (unnamable name) → Refuses MemoryStore name ∧ Refuses FileStore name) ∧
    ∀ name other : String, historyFile name ≠ lockFile other ∧
      (name ≠ other → historyFile name ≠ historyFile other ∧ lockFile name ≠ lockFile other) := by
  refine ⟨⟨Normal.namePattern, by cbv, fun name => ?_⟩, ⟨_, _, loadContracts_packaged, ?_, ?_⟩, ?_, ?_⟩
  · rw [Normal.accepts_namePattern, checkName_eq_ok_iff]
  · intro c hc t fields hkeyed hdefs v
    obtain ⟨stage, title, rfl⟩ : ∃ stage title, c = contract stage title := by
      rcases List.mem_pair.mp hc with rfl | rfl <;> exact ⟨_, _, rfl⟩
    simp only [checkName_eq_error_iff]
    exact mem_report_dataDefs hkeyed hdefs
  · intro policy high run t vs hvalid hcompile v hv
    obtain ⟨-, rfl⟩ := Timeline.compile_eq_ok_iff.mp hcompile
    obtain ⟨field, hfield, rfl⟩ := List.mem_map.mp hv
    have hname : isName field.1 := Timeline.isName_of_validate hvalid field hfield
    exact ⟨checkName_eq_ok_iff.mpr hname, (MemoryStore.welcoming hname).call, (FileStore.welcoming hname).call⟩
  · intro name hname
    rw [checkName_eq_error_iff, Bool.not_eq_true] at hname
    exact refuses_of_not_isName hname
  · exact fun name other => ⟨historyFile_ne_lock name other, fun hne =>
      ⟨fun h => hne (historyFile_inj h), fun h => hne (lockFile_inj h)⟩⟩

-- A name with a letter that is not ASCII, one that ends in a line break, and one of all kinds of letters.
theorem Pipeline.accepted_names_storable_umlaut :
    let messy : Tree := .map [("dataDefs", .map [("größe", .null), ("price", .null), ("price\n", .null)])]
    let named : Tree := .map [("dataDefs", .map [("Price_2-x", .map [("axis", .map [("fact", .map [])])])])]
    ∃ (defined effective : Contract) (v : Version),
      (∀ base fs, loadContracts (.below base) fs ["defined", "effective"] =
        .ok [("defined", defined), ("effective", effective)]) ∧
      Schema.Packaged.mismatch "größe" ∈ defined.report .collectAll messy ∧
      Schema.Packaged.mismatch "price\n" ∈ effective.report .collectAll messy ∧
      Schema.Packaged.mismatch "price" ∉ effective.report .collectAll messy ∧
      Refuses MemoryStore "größe" ∧ Refuses FileStore "price\n" ∧
      effective.validate .failFast named = .ok () ∧ Timeline.compile ⟨9, 0⟩ ⟨4, 0⟩ named = .ok [v] ∧
      v.name = "Price_2-x" ∧ (∀ c : Call, Never (unnamable "Price_2-x") (c.run : Storing FileStore Answer)) ∧
      lockFile "größe" ≠ lockFile "price\n" := by
  intro messy named
  obtain ⟨-, ⟨defined, effective, hload, hnames, hcompiled⟩, hrefused, hfiles⟩ := accepted_names_storable
  have hreported := hnames _ List.mem_cons_self messy _ (by decide) rfl
  have hreported' := hnames _ (List.mem_cons_of_mem _ List.mem_cons_self) messy _ (by decide) rfl
  have humlaut : checkName "größe" = .error (unnamable "größe") := by decide
  have hbreak : checkName "price\n" = .error (unnamable "price\n") := by decide
  have hvalid : effective.validate .failFast named = .ok () := by
    obtain ⟨-, rfl⟩ := eq_of_loadContracts (hload none .empty)
    cbv
  obtain ⟨v, hcompile⟩ : ∃ v, Timeline.compile ⟨9, 0⟩ ⟨4, 0⟩ named = .ok [v] := ⟨_, rfl⟩
  have hname : v.name = "Price_2-x" := by
    cases hcompile
    rfl
  have hv := hcompiled _ _ _ _ _ hvalid hcompile v List.mem_cons_self
  rw [hname] at hv
  refine ⟨defined, effective, v, hload, ((hreported _).mpr ⟨_, by simp [Fields.keys], humlaut, rfl⟩).1,
    ((hreported' _).mpr ⟨_, by simp [Fields.keys], hbreak, rfl⟩).1, fun hmem => ?_, (hrefused _ humlaut).1,
    (hrefused _ hbreak).2, hvalid, hcompile, hname, hv.2.2, ((hfiles "größe" "price\n").2 (by decide)).2⟩
  obtain ⟨name, hkey, hbad, heq⟩ := (hreported' _).mp ⟨hmem, rfl⟩
  simp only [Fields.keys, List.map_cons, List.map_nil, List.mem_cons, List.not_mem_nil, or_false] at hkey
  rcases hkey with rfl | rfl | rfl
  · exact absurd heq (by decide)
  · exact absurd hbad (by decide)
  · exact absurd heq (by decide)

end ScraperTimeline
