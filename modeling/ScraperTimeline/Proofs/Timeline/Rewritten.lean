import ScraperTimeline.Proofs.Timeline.Changes
import ScraperTimeline.Proofs.Timeline.FileStore
import ScraperTimeline.Timeline.Compile

/-!
Runs over files. The first one writes a history for each of its versions; what a later one finds there is
what comes back of the bodies.
-/
namespace ScraperTimeline

open FileStore Sync

variable {settings : Settings} {s s' : FileStore} {new : Version} {vs : List Version}

/-! ### One version -/

-- The definitions as versions that are open from an instant on.
def versionsAt (high start : Instant) (defs : List (String × Tree)) : List Version :=
  defs.map fun field => .ofBody field.1 start high field.2

theorem Timeline.compile_eq_ok_iff {high run : Instant} {t : Tree} :
    compile high run t = .ok vs ↔
      run.wholeSecond < high ∧ versionsAt high run.wholeSecond (definitions t) = vs := by
  rw [compile]
  dsimp only
  split
  next hlt => exact ⟨fun h => ⟨hlt, Except.ok.inj h⟩, fun h => congrArg Except.ok h.2⟩
  next hlate => exact ⟨nofun, fun h => absurd h.1 hlate⟩

theorem History.put_nil (v : Version) : History.put v [] = [v] := by
  simp [History.put, History.replace, History.sortByStart]

namespace Sync

theorem run_settle_missing (hs : s.Writable new.name) (hname : Store.isName new.name)
    (hnew : new.Compiled settings.high) (hread : s.readHistory new.name = .ok []) (left : Nat) :
    ∃ s', (settle settings new 0 left).run s = (([], .ok .inserted), s') ∧ Wrote s new.name [new] s' := by
  have hconsult : (consult settings.high new).run s = _ := run_consult_of_read (run_findOpen hname hread)
  have hfound : History.open? s.high [] = none := rfl
  have hswap : Store.swapped s.high new.name none [new] [] = .ok [new] := by
    simp [Store.swapped, Store.stillMatches, History.open?, History.put_nil]
  rw [hfound, plan_none hnew] at hconsult
  obtain ⟨s', hrun, hwrote⟩ :=
    run_swap_of_swapped hs hname (show ∀ w ∈ [new], w.name = new.name by simp) hread hswap
  exact ⟨s', run_settle_of_swap (p := ⟨none, .inserted, [new]⟩) hconsult hrun (by simp) 0 left, hwrote⟩

theorem run_settle_unreadable (hname : Store.isName new.name) {e : Fault}
    (hread : s.readHistory new.name = .error e) (left : Nat) :
    (settle settings new 0 left).run s = (([], .error e), s) := by
  have hconsult : (consult settings.high new).run s = _ :=
    run_consult_of_error (run_findOpen_of_error hname hread)
  exact run_settle (run_attempt_ended hconsult) (by simp)

section
variable {o : Version}

theorem run_settle_same (hname : Store.isName new.name) (hnew : new.Compiled settings.high)
    (hread : s.readHistory new.name = .ok [o]) (hhigh : s.high = settings.high)
    (hopen : o.isOpen settings.high) (hnamed : o.name = new.name) (hsame : o.sameDefinition new) (left : Nat) :
    (settle settings new 0 left).run s = (([], .ok .unchanged), s) := by
  have hconsult : (consult settings.high new).run s = _ := run_consult_of_read (run_findOpen hname hread)
  have hfound : History.open? s.high [o] = some o := by simp [History.open?, hhigh, hopen]
  rw [hfound, plan_some hnew hopen hnamed, if_pos hsame] at hconsult
  exact run_settle (run_attempt_ended hconsult) (by simp)

theorem run_settle_changed (hs : s.Writable new.name) (hname : Store.isName new.name)
    (hnew : new.Compiled settings.high) (hread : s.readHistory new.name = .ok [o])
    (hhigh : s.high = settings.high) (hopen : o.isOpen settings.high) (hnamed : o.name = new.name)
    (hself : o.sameDefinition o) (hprecedes : o.Precedes new) (hother : o.sameDefinition new = false)
    (left : Nat) :
    ∃ s', (settle settings new 0 left).run s = (([], .ok (.superseded new.start.secondBefore)), s') := by
  have hconsult : (consult settings.high new).run s = _ := run_consult_of_read (run_findOpen hname hread)
  have hfound : History.open? s.high [o] = some o := by simp [History.open?, hhigh, hopen]
  rw [hfound, plan_some hnew hopen hnamed, if_neg (by simp [hother]),
    if_neg (Instant.not_lt.mpr hprecedes)] at hconsult
  have hmatch : Store.stillMatches (History.open? s.high [o]) (some o) := by
    rw [hfound]
    exact Store.stillMatches_refl (by simpa using hself)
  have hwrites : ∀ w ∈ [o.closedAt new.start.secondBefore, new], w.name = new.name := by simp [hnamed]
  have hswap : Store.swapped s.high new.name (some o) [o.closedAt new.start.secondBefore, new] [o] = .ok _ :=
    if_pos hmatch
  obtain ⟨s', hrun, -⟩ := run_swap_of_swapped hs hname hwrites hread hswap
  let p : Proposal := ⟨some o, .superseded new.start.secondBefore, [o.closedAt new.start.secondBefore, new]⟩
  exact ⟨s', run_settle_of_swap (p := p) hconsult hrun (by simp) 0 left⟩

end

end Sync

-- A history of one version, as it was written.
structure FileStore.Holds (s : FileStore) (v : Version) : Prop where
  writable : s.Writable v.name
  history : s.readHistory v.name = v.reread?.elim (.error (unreadable v.name)) fun o => .ok [o]

theorem FileStore.Wrote.holds {v : Version} (hw : Wrote s v.name [v] s') (hs : s.Writable v.name)
    (hdated : v.Dated) : s'.Holds v := by
  refine ⟨hw.writable_self hs, ?_⟩
  rw [hw.readHistory_self (by simpa using hdated)]
  cases hread : v.reread? <;> simp [hread]

-- What a later run does with a definition that has not changed.
theorem Sync.run_settle_again {v : Version} (hs : s.Holds v) (hhigh : s.high = settings.high)
    (hv : v.Compiled settings.high) (hnew : new.Compiled settings.high) (hname : Store.isName new.name)
    (hnamed : v.name = new.name) (hprecedes : v.Precedes new) (htext : v.text = new.body.toJson) (left : Nat) :
    (new.body.restored → (settle settings new 0 left).run s = (([], .ok .unchanged), s)) ∧
      (¬new.body.restored → ((settle settings new 0 left).run s).1.2 ≠ .ok .unchanged) := by
  obtain ⟨hwritable, hhistory⟩ := hs
  rw [hnamed] at hwritable hhistory
  have hreread : v.reread? = (Tree.ofJson? new.body.toJson).map fun body => { v with body } := by
    rw [Version.reread?, htext]
  rw [hreread] at hhistory
  rw [Tree.restored]
  cases hbody : Tree.ofJson? new.body.toJson with
  | none =>
      rw [hbody] at hhistory
      refine ⟨fun h => by simp at h, fun _ => ?_⟩
      rw [run_settle_unreadable hname hhistory]
      simp
  | some body =>
      let o : Version := { v with body }
      have hread : s.readHistory new.name = .ok [o] := by
        rw [hhistory, hbody]
        rfl
      have hopen : o.isOpen settings.high := hv.isOpen
      have hself : o.sameDefinition o :=
        Version.sameDefinition_refl (Tree.keyed_nanFree_of_ofJson? hbody).1
          (Tree.keyed_nanFree_of_ofJson? hbody).2
      cases hsame : o.sameDefinition new with
      | true =>
          exact ⟨fun _ => run_settle_same hname hnew hread hhigh hopen hnamed hsame left,
            fun h => (h hsame).elim⟩
      | false =>
          refine ⟨fun h => ?_, fun _ => ?_⟩
          · rw [Option.any_some, show body.equal new.body = false from hsame] at h
            cases h
          · obtain ⟨after, hrun⟩ := run_settle_changed hwritable hname hnew hread hhigh hopen hnamed hself
              hprecedes hsame left
            rw [hrun]
            simp

/-! ### Runs -/

namespace Sync

-- The first run writes each version, and leaves other names as they are.
theorem run_apply_missing (hdistinct : vs.Pairwise fun v w => v.name ≠ w.name)
    (hvs : ∀ v ∈ vs, v.Compiled settings.high ∧ Store.isName v.name ∧ v.Dated)
    (hs : ∀ v ∈ vs, s.Writable v.name ∧ s.readHistory v.name = .ok []) :
    ∃ after, (apply settings vs).run s = (([], .ok (vs.map fun v => (v.name, .inserted))), after) ∧
      after.high = s.high ∧ (∀ v ∈ vs, after.Holds v) ∧
      ∀ name, (∀ v ∈ vs, v.name ≠ name) → s.Writable name →
        after.Writable name ∧ after.readHistory name = s.readHistory name := by
  induction vs generalizing s with
  | nil => exact ⟨s, rfl, rfl, by simp, fun _ _ h => ⟨h, rfl⟩⟩
  | cons v rest ih =>
      obtain ⟨hne, hdistinct⟩ := List.pairwise_cons.mp hdistinct
      obtain ⟨⟨hcompiled, hname, hdated⟩, hrest⟩ := List.forall_mem_cons.mp hvs
      obtain ⟨⟨hwritable, hread⟩, hmissing⟩ := List.forall_mem_cons.mp hs
      obtain ⟨next, hsettle, hwrote⟩ :=
        run_settle_missing hwritable hname hcompiled hread settings.retries
      have hkept (name : String) (hname : name ≠ v.name) (h : s.Writable name) :
          next.Writable name ∧ next.readHistory name = s.readHistory name :=
        ⟨hwrote.writable hname h, hwrote.readHistory_of_ne hwritable.dir hname⟩
      obtain ⟨after, happly, hhigh, hholds, hothers⟩ := ih (s := next) hdistinct hrest fun w hw => by
        obtain ⟨hwritable, hread⟩ := hmissing w hw
        obtain ⟨hwritable', hsame⟩ := hkept w.name (hne w hw).symm hwritable
        exact ⟨hwritable', hsame.trans hread⟩
      refine ⟨after, run_apply_of_settle hsettle happly, hhigh.trans hwrote.high, ?_, ?_⟩
      · refine List.forall_mem_cons.mpr ⟨?_, hholds⟩
        have hheld := hwrote.holds hwritable hdated
        obtain ⟨hwritable', hsame⟩ := hothers v.name (fun w hw => (hne w hw).symm) hheld.writable
        exact ⟨hwritable', hsame.trans hheld.history⟩
      · intro name hnames h
        obtain ⟨hv, hnames⟩ := List.forall_mem_cons.mp hnames
        obtain ⟨hwritable, hsame⟩ := hkept name hv.symm h
        obtain ⟨hwritable', hsame'⟩ := hothers name hnames hwritable
        exact ⟨hwritable', hsame'.trans hsame⟩

-- A second run reports the definitions as unchanged just if their bodies come back as they were, and then
-- it leaves the store as it is.
theorem run_apply_again {defs : List (String × Tree)} {start again : Instant}
    (hs : ∀ v ∈ versionsAt settings.high start defs, s.Holds v) (hhigh : s.high = settings.high)
    (hnames : ∀ field ∈ defs, Store.isName field.1) (hstart : start.isWhole) (hagain : again.isWhole)
    (hlt : start < again) (hbefore : again < settings.high) :
    let second := versionsAt settings.high again defs
    let report := second.map fun v => (v.name, Outcome.unchanged)
    ((∀ field ∈ defs, field.2.restored) → (apply settings second).run s = (([], .ok report), s)) ∧
      (((apply settings second).run s).1.2 = .ok report → ∀ field ∈ defs, field.2.restored) := by
  have hsettle (field : String × Tree) (hfield : field ∈ defs) :=
    have hfirst : (Version.ofBody field.1 start settings.high field.2).Compiled settings.high :=
      ⟨rfl, hstart, Instant.lt_of_le_of_lt (Instant.le_of_lt hlt) hbefore⟩
    have hsecond : (Version.ofBody field.1 again settings.high field.2).Compiled settings.high :=
      ⟨rfl, hagain, hbefore⟩
    run_settle_again (hs _ (List.mem_map_of_mem hfield)) hhigh hfirst hsecond (hnames field hfield) rfl
      (hfirst.precedes_of_lt hsecond hlt) rfl settings.retries
  refine ⟨fun hrestored => run_apply_unchanged ?_, fun hreport field hfield => ?_⟩
  · rw [versionsAt, List.forall_mem_map]
    exact fun field hfield => (hsettle field hfield).1 (hrestored field hfield)
  · have hsame := forall_unchanged_of_run_apply (List.forall_mem_map.mpr fun field hfield hrun =>
      (hsettle field hfield).1 (by_contra fun hnot => (hsettle field hfield).2 hnot hrun)) hreport
    exact by_contra fun hnot =>
      (hsettle field hfield).2 hnot (hsame _ (List.mem_map_of_mem hfield))

-- Two runs over the same definitions.
theorem run_apply_twice {defs : List (String × Tree)} {start again : Instant} (hs : s.Empty)
    (hshort : ∀ field ∈ defs, (besideFile field.1).utf8ByteSize ≤ Files.longestName)
    (hhigh : s.high = settings.high) (hdated : start.Representable ∧ s.high.Representable)
    (hdistinct : (Fields.keys defs).Nodup) (hnames : ∀ field ∈ defs, Store.isName field.1)
    (hstart : start.isWhole) (hagain : again.isWhole) (hlt : start < again) (hbefore : again < s.high) :
    let first := versionsAt settings.high start defs
    let second := versionsAt settings.high again defs
    let report := second.map fun v => (v.name, Outcome.unchanged)
    ∃ after,
      (apply settings first).run s = (([], .ok (first.map fun v => (v.name, .inserted))), after) ∧
      ((∀ field ∈ defs, field.2.restored) →
        (apply settings second).run after = (([], .ok report), after)) ∧
      (((apply settings second).run after).1.2 = .ok report → ∀ field ∈ defs, field.2.restored) := by
  rw [hhigh] at hdated hbefore
  have hbefore' : start < settings.high := Instant.lt_of_le_of_lt (Instant.le_of_lt hlt) hbefore
  have hfirst : ∀ v ∈ versionsAt settings.high start defs,
      v.Compiled settings.high ∧ Store.isName v.name ∧ v.Dated :=
    List.forall_mem_map.mpr fun field hfield =>
      ⟨⟨rfl, hstart, hbefore'⟩, hnames field hfield, ⟨hdated.1, hdated.2⟩⟩
  have hnew : ∀ v ∈ versionsAt settings.high start defs, s.Writable v.name ∧ s.readHistory v.name = .ok [] :=
    List.forall_mem_map.mpr fun field hfield =>
      ⟨hs.writable (hshort field hfield), hs.readHistory (hshort field hfield)⟩
  have hapart : (versionsAt settings.high start defs).Pairwise fun v w => v.name ≠ w.name :=
    List.pairwise_map.mpr (List.pairwise_map.mp hdistinct)
  obtain ⟨after, hrun, hafter, hholds, -⟩ := run_apply_missing hapart hfirst hnew
  exact ⟨after, hrun, run_apply_again hholds (hafter.trans hhigh) hnames hstart hagain hlt hbefore⟩

end Sync

end ScraperTimeline
