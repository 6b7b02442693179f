import ScraperTimeline.Proofs.Timeline.Chained
import ScraperTimeline.Proofs.Timeline.Undisturbed
import ScraperTimeline.Timeline.Contention

/-!
Runs that are made again. One that was broken off has left the versions up to some name in the store; when
it is made again it finds them there as they are in their files, and goes on with the others.
-/
namespace ScraperTimeline

open FileStore Sync

variable {high : Instant} {name other : String} {new v w : Version} {vs : List Version} {h h' : History}
  {s s' : FileStore} {settings : Settings} {result : Except Fault Outcome}

/-! ### The version that was put in -/

namespace History

-- The open version of a chain is the only one.
theorem Chained.open?_of_mem (hchained : Chained high name h) (hv : v ∈ h) (hopen : v.isOpen high) :
    h.open? high = some v := by
  obtain ⟨vs, hvs, hchain⟩ := hchained
  have hcontiguous := chain_contiguous hvs
  rw [← hchain] at hcontiguous
  have hlast {u : Version} (hu : u ∈ h) (hopen : u.isOpen high) :
      (h.map Version.bare).getLast? = some u.bare :=
    (hcontiguous.open_iff_last u.bare (List.mem_map_of_mem hu)).mp hopen
  cases hfound : h.open? high with
  | none => exact absurd hopen (List.find?_eq_none.mp hfound v hv)
  | some o =>
      have ho : o ∈ h := List.mem_of_find?_eq_some hfound
      have hbare : o.bare = v.bare :=
        Option.some.inj ((hlast ho (List.find?_some hfound)).symm.trans (hlast hv hopen))
      have hstart : o.start = v.start := by simpa using congrArg Version.start hbare
      have hascending := hcontiguous.ascending
      rw [List.pairwise_map] at hascending
      have honly := filter_start_of_mem hascending hv
      have hmem : o ∈ h.filter (·.start = v.start) := List.mem_filter.mpr ⟨ho, by simpa using hstart⟩
      rw [honly] at hmem
      rw [List.mem_singleton.mp hmem]

theorem exists_mem_reread (hread : h.mapM Version.reread? = some h') (hv : v ∈ h) :
    ∃ w ∈ h', v.reread? = some w := by
  have hall := forall₂_of_mapM hread
  clear hread
  induction hall with
  | nil => cases hv
  | @cons u w _ _ hw _ ih =>
      rcases List.mem_cons.mp hv with rfl | hv
      · exact ⟨w, by simp, hw⟩
      · obtain ⟨x, hx, hread⟩ := ih hv
        exact ⟨x, List.mem_cons_of_mem _ hx, hread⟩

theorem dated_of_reread (hdated : ∀ v ∈ h, v.Dated) (hread : h.mapM Version.reread? = some h') :
    ∀ v ∈ h', v.Dated := by
  have hall := forall₂_of_mapM hread
  clear hread
  induction hall with
  | nil => simp
  | cons hw _ ih =>
      obtain ⟨hv, hrest⟩ := List.forall_mem_cons.mp hdated
      obtain ⟨body, -, rfl⟩ := Option.map_eq_some_iff.mp hw
      exact List.forall_mem_cons.mpr ⟨⟨hv.start, hv.stop⟩, ih hrest⟩

end History

-- A version that was compiled, with a body that comes back from its text.
structure Version.Stable (high : Instant) (v : Version) : Prop where
  compiled : v.Compiled high
  dated : v.Dated
  text : v.text = v.body.toJson
  restored : v.body.restored

theorem Version.Stable.exists_reread (hv : v.Stable high) :
    ∃ w, v.reread? = some w ∧ w.sameDefinition v ∧ w.bare = v.bare := by
  have hrestored := hv.restored
  rw [Tree.restored, Option.any_eq_true] at hrestored
  obtain ⟨body, hbody, hequal⟩ := hrestored
  have hread : v.reread? = some { v with body } := by
    rw [reread?, hv.text, hbody]
    rfl
  exact ⟨_, hread, hequal, rfl⟩

/-! ### Stores -/

theorem Contended.run_findOpen {read : Except Fault (Option Version)} (conflicts : Nat) (others : List Version)
    (hread : (Store.findOpen name : Storing FileStore (Option Version)).run.run s = (read, s)) :
    (Store.findOpen name : Storing (Contended FileStore) (Option Version)).run.run ⟨s, conflicts, others⟩ =
      (read, ⟨s, conflicts, others⟩) := by
  change (within (Store.findOpen name)).run.run (⟨s, conflicts, others⟩ : Contended FileStore) = _
  rw [within, run_get_bind]
  dsimp only
  rw [hread]
  cases read <;> rfl

namespace FileStore

-- The store holds chains with instants that can be stored, and nothing is in the way of any file.
structure Ordered (s : FileStore) : Prop where
  free : ∀ name, s.Free name
  histories : ∀ name h, s.readHistory name = .ok h → h.Chained s.high name ∧ ∀ v ∈ h, v.Dated

theorem Empty.ordered (hs : s.Empty) : s.Ordered := by
  refine ⟨hs.free, fun name h hok => ?_⟩
  rw [eq_nil_of_readHistory (hs.missing _) hok]
  exact ⟨History.chained_nil, by simp⟩

-- A version that would change nothing.
def Quiet (s : FileStore) (v : Version) : Prop :=
  Finding.ofRead s.high v (s.openOf v.name) = .ended (.settled .unchanged)

end FileStore

namespace Sync

-- How bringing one version in ends where no other writer is, and nothing is in the way of its file.
inductive Settled (s : FileStore) (new : Version) : Except Fault Outcome → FileStore → Prop
  | ended {a : Attempt} (hfound : Finding.ofRead s.high new (s.openOf new.name) = .ended a) :
      Settled s new a.result s
  | wrote {p : Proposal} {before : History} {s' : FileStore} (hp : Proposed s.high s new p before)
      (hw : Wrote s new.name (p.writes.foldl (fun h v => h.put v) before) s') :
      Settled s new (.ok p.outcome) s'
  | long (hname : Store.isName new.name) (hlong : Files.longestName < (besideFile new.name).utf8ByteSize) :
      Settled s new (.error FileFault.nameTooLong.toFault) s

theorem run_settle_free (hs : s.Free new.name) (hhigh : settings.high = s.high) (left : Nat) :
    ∃ result s', (settle settings new 0 left).run s = (([], result), s') ∧ Settled s new result s' := by
  have hconsult := run_consult_openOf settings.high new s
  cases hfound : Finding.ofRead settings.high new (s.openOf new.name) with
  | ended a =>
      rw [hhigh] at hfound
      exact ⟨_, s, run_settle_ended (by rwa [hhigh]) left, .ended hfound⟩
  | swap p =>
      obtain ⟨before, hp⟩ := Finding.exists_proposed hfound
      rw [hfound] at hconsult
      obtain ⟨result, s', hrun, hchanged⟩ := run_swap hs hp.isName hp.made.named p.seen
      have hswapped := hp.swapped
      rw [hhigh] at hp
      cases hchanged with
      | wrote hread hf hw =>
          cases hp.read.symm.trans hread
          cases hswapped.symm.trans hf
          exact ⟨_, s', run_settle_of_swap hconsult hrun (by simp) 0 left, .wrote hp hw⟩
      | refused hread hf =>
          cases hp.read.symm.trans hread
          cases hswapped.symm.trans hf
      | unreadable hread => cases hp.read.symm.trans hread
      | long hlong =>
          exact ⟨_, s, run_settle_of_swap hconsult hrun (by simp [FileFault.toFault, Fault.isRetryable]) 0 left,
            .long hp.isName hlong⟩

namespace Settled

theorem high_eq (hsettled : Settled s new result s') : s'.high = s.high := by
  cases hsettled with
  | ended => rfl
  | wrote _ hw => exact hw.high
  | long => rfl

-- What fails leaves the store as it is.
theorem eq_of_error {e : Fault} (hsettled : Settled s new (.error e) s') : s' = s := by
  generalize hresult : (.error e : Except Fault Outcome) = result at hsettled
  cases hsettled with
  | ended => rfl
  | wrote => cases hresult
  | long => rfl

theorem openOf_of_ne (hsettled : Settled s new result s') (hs : s.files.at? s.dir = some .directory)
    (hne : other ≠ new.name) : s'.openOf other = s.openOf other := by
  cases hsettled with
  | ended => rfl
  | wrote _ hw => exact openOf_congr hw.high (hw.readHistory_of_ne hs hne)
  | long => rfl

-- Chains stay chains.
theorem ordered (hsettled : Settled s new result s') (hs : s.Ordered) (hnew : new.Compiled s.high)
    (hdated : new.Dated) : s'.Ordered := by
  cases hsettled with
  | ended => exact hs
  | long => exact hs
  | @wrote p before _ hp hw =>
      obtain ⟨hchained, hbefore⟩ := hs.histories _ _ hp.read
      have hall : ∀ w ∈ p.writes.foldl (fun h v => h.put v) before, w.Dated := by
        intro w hw
        rcases hp.of_mem hw with rfl | hw | ⟨o, ho, hprecedes, rfl⟩
        · exact hdated
        · exact hbefore w hw
        · exact ⟨(hbefore o ho).start,
            hdated.start.secondBefore hnew.whole (hbefore o ho).start hprecedes⟩
      have hput := hchained.swapped hnew hp.planned hp.swapped
      refine ⟨fun name => ?_, fun name h hread => ?_⟩
      · by_cases hname : name = new.name
        · rw [hname]
          exact hw.free_self (hs.free _)
        · exact hw.free hname (hs.free name)
      · rw [hw.high]
        by_cases hname : name = new.name
        · rw [hname, hw.readHistory_self hall] at hread
          cases hreread : (p.writes.foldl (fun h v => h.put v) before).mapM Version.reread? with
          | none =>
              rw [hreread] at hread
              cases hread
          | some h' =>
              rw [hreread] at hread
              cases hread
              rw [hname]
              exact ⟨hput.reread hreread, History.dated_of_reread hall hreread⟩
        · rw [hw.readHistory_of_ne (hs.free name).dir hname] at hread
          exact hs.histories name h hread

-- What has been brought in is found as it is in its file, and need not be brought in again.
theorem quiet {outcome : Outcome} (hsettled : Settled s new (.ok outcome) s') (hs : s.Ordered)
    (hnew : new.Stable s.high) : s'.Quiet new := by
  generalize hresult : (.ok outcome : Except Fault Outcome) = result at hsettled
  cases hsettled with
  | @ended a hfound =>
      cases a with
      | settled outcome =>
          obtain rfl := Finding.eq_unchanged hfound
          exact hfound
      | lost e => cases hresult
      | failed e => cases hresult
  | long => cases hresult
  | @wrote p before _ hp hw =>
      obtain ⟨hchained, hbefore⟩ := hs.histories _ _ hp.read
      obtain ⟨w, hreread, hsame, hbare⟩ := hnew.exists_reread
      have hlegible : ∀ v ∈ p.writes.foldl (fun h v => h.put v) before, v.Legible := by
        have hold {o : Version} (ho : o ∈ before) : o.Legible :=
          ⟨hbefore o ho, by simp [(parsed_of_readHistory hp.read o ho).reread?_eq]⟩
        intro v hv
        rcases hp.of_mem hv with rfl | hv | ⟨o, ho, hprecedes, rfl⟩
        · exact ⟨hnew.dated, by simp [hreread]⟩
        · exact hold hv
        · exact (hold ho).closedAt
            (hnew.dated.start.secondBefore hnew.compiled.whole (hbefore o ho).start hprecedes)
      obtain ⟨h, hmap, -⟩ := History.exists_reread hlegible
      have hread : s'.readHistory new.name = .ok h := by
        rw [hw.readHistory_self fun v hv => (hlegible v hv).dated, hmap]
        rfl
      obtain ⟨x, hx, hread'⟩ := History.exists_mem_reread hmap (hp.made.mem_foldl_put hp.writes before)
      cases hreread.symm.trans hread'
      have hopen : w.isOpen s.high := by
        have hstop : w.stop = new.stop := by simpa using congrArg Version.stop hbare
        rw [Version.isOpen, hstop]
        exact hnew.compiled.isOpen
      have hname : w.name = new.name := by simpa using congrArg Version.name hbare
      have hput := (hchained.swapped hnew.compiled hp.planned hp.swapped).reread hmap
      rw [Quiet, openOf_of_read hp.isName hread, hw.high, hput.open?_of_mem hx hopen, Finding.ofRead,
        plan_some hnew.compiled hopen hname, if_pos hsame]
      rfl

end Settled

-- The report of versions that are all there already.
def Report.unchanged (vs : List Version) : Report := vs.map fun v => (v.name, .unchanged)

-- What bringing versions in again comes to: they are all there up to one that is refused as before.
inductive Rests (settings : Settings) (s : FileStore) : List Version → Except Fault Report → Prop
  | nil : Rests settings s [] (.ok [])
  | unchanged {new : Version} {rest : List Version} {result : Except Fault Report} (hnew : s.Quiet new)
      (hrest : Rests settings s rest result) :
      Rests settings s (new :: rest) (result.map ((new.name, .unchanged) :: ·))
  | refused {new : Version} {e : Fault} (hnew : Settled s new (.error e) s)
      (hrun : (settle settings new 0 settings.retries).run s = (([], .error e), s)) (rest : List Version) :
      Rests settings s (new :: rest) (.error e)

namespace Rests

variable {result : Except Fault Report}

theorem run (hrests : Rests settings s vs result) (hhigh : settings.high = s.high) :
    (apply settings vs).run s = (([], result), s) := by
  induction hrests with
  | nil => rfl
  | unchanged hnew _ ih =>
      rw [Quiet, ← hhigh] at hnew
      exact run_apply_of_settle (run_settle_ended hnew settings.retries) ih
  | refused _ hrun rest => exact run_apply_of_error hrun

-- No swap is made, whatever other writers would do to it.
theorem run_contended (hrests : Rests settings s vs result) (hhigh : settings.high = s.high)
    (hshort : ∀ v ∈ vs, (besideFile v.name).utf8ByteSize ≤ Files.longestName) (conflicts : Nat)
    (others : List Version) :
    (apply settings vs).run (⟨s, conflicts, others⟩ : Contended FileStore) =
      (([], result), ⟨s, conflicts, others⟩) := by
  have hsettle {new : Version} {a : Attempt}
      (hfound : Finding.ofRead s.high new (s.openOf new.name) = .ended a) :
      (settle settings new 0 settings.retries).run (⟨s, conflicts, others⟩ : Contended FileStore) =
        (([], a.result), ⟨s, conflicts, others⟩) := by
    have hconsult : (consult settings.high new).run (⟨s, conflicts, others⟩ : Contended FileStore) = _ :=
      run_consult_of_findOpen (Contended.run_findOpen conflicts others (s.run_findOpen_openOf new.name))
    rw [hhigh, hfound, ← hhigh] at hconsult
    exact run_settle (run_attempt_ended hconsult) (Finding.ne_lost hfound)
  induction hrests with
  | nil => rfl
  | unchanged hnew _ ih =>
      exact run_apply_of_settle (hsettle hnew) (ih fun v hv => hshort v (List.mem_cons_of_mem _ hv))
  | @refused new e hnew hrun rest =>
      generalize hresult : (.error e : Except Fault Outcome) = result at hnew
      cases hnew with
      | ended hfound =>
          refine run_apply_of_error ?_
          rw [hresult]
          exact hsettle hfound
      | wrote => cases hresult
      | long _ hlong => exact absurd (hshort new List.mem_cons_self) (Nat.not_le.mpr hlong)

end Rests

-- What versions that are brought in leave behind.
structure Applied (settings : Settings) (s : FileStore) (vs : List Version) (result : Except Fault Report)
    (after : FileStore) : Prop where
  ordered : after.Ordered
  high : after.high = s.high
  others : ∀ name, (∀ v ∈ vs, v.name ≠ name) → after.openOf name = s.openOf name
  named : ∀ report, result = .ok report → report.map (·.1) = vs.map (·.name)
  rests : Rests settings after vs (result.map fun _ => .unchanged vs)

theorem run_apply_stable (hs : s.Ordered) (hhigh : settings.high = s.high)
    (hdistinct : vs.Pairwise fun v w => v.name ≠ w.name) (hvs : ∀ v ∈ vs, v.Stable settings.high) :
    ∃ result after, (apply settings vs).run s = (([], result), after) ∧
      Applied settings s vs result after := by
  induction vs generalizing s with
  | nil => exact ⟨_, s, rfl, hs, rfl, fun _ _ => rfl, by simp, .nil⟩
  | cons new rest ih =>
      obtain ⟨hne, hdistinct⟩ := List.pairwise_cons.mp hdistinct
      obtain ⟨hnew, hrest⟩ := List.forall_mem_cons.mp hvs
      rw [hhigh] at hnew
      obtain ⟨outcome, next, hsettle, hsettled⟩ := run_settle_free (hs.free new.name) hhigh settings.retries
      cases outcome with
      | error e =>
          obtain rfl := hsettled.eq_of_error
          exact ⟨_, next, run_apply_of_error hsettle, hs, rfl, fun _ _ => rfl, nofun,
            .refused hsettled hsettle rest⟩
      | ok outcome =>
          have hordered := hsettled.ordered hs hnew.compiled hnew.dated
          have hnext := hsettled.high_eq
          obtain ⟨result, after, happly, happlied⟩ := ih hordered (hhigh.trans hnext.symm) hdistinct
            hrest
          have hquiet : after.Quiet new := by
            rw [Quiet, happlied.high, happlied.others _ fun v hv => (hne v hv).symm]
            exact hsettled.quiet hs hnew
          refine ⟨_, after, run_apply_of_settle hsettle happly, happlied.ordered,
            happlied.high.trans hnext, fun name hnames => ?_, fun report hreport => ?_, ?_⟩
          · obtain ⟨hname, hnames⟩ := List.forall_mem_cons.mp hnames
            exact (happlied.others name hnames).trans (hsettled.openOf_of_ne (hs.free name).dir hname.symm)
          · cases result with
            | error e => cases hreport
            | ok told =>
                cases hreport
                rw [List.map_cons, List.map_cons, happlied.named told rfl]
          · have hrests := Rests.unchanged hquiet happlied.rests
            cases result <;> exact hrests

/-! ### Runs that are made again -/

-- The stores that syncs of compiled versions make of an empty one, one after the other.
inductive Synced : FileStore → Prop
  | empty {s : FileStore} (hs : s.Empty) : Synced s
  | sync {s after : FileStore} {settings : Settings} {vs : List Version}
      {answer : List Wait × Except Fault Report} (hs : Synced s) (hhigh : settings.high = s.high)
      (hvs : ∀ v ∈ vs, v.Compiled s.high ∧ v.Dated)
      (hrun : (apply settings vs).run s = (answer, after)) : Synced after

theorem ordered_of_applies {after : FileStore} {waits : List Wait} {result : Except Fault Report}
    (happlies : Applies settings s vs waits result after) (hs : s.Ordered) (hhigh : settings.high = s.high)
    (hvs : ∀ v ∈ vs, v.Compiled s.high ∧ v.Dated) : after.Ordered := by
  induction happlies with
  | nil => exact hs
  | failed hsettle =>
      obtain ⟨⟨hcompiled, hdated⟩, -⟩ := List.forall_mem_cons.mp hvs
      obtain ⟨result, next, hrun, hsettled⟩ := run_settle_free (hs.free _) hhigh settings.retries
      cases hsettle.symm.trans hrun
      exact hsettled.ordered hs hcompiled hdated
  | settled hsettle _ ih =>
      obtain ⟨⟨hcompiled, hdated⟩, hrest⟩ := List.forall_mem_cons.mp hvs
      obtain ⟨result, next, hrun, hsettled⟩ := run_settle_free (hs.free _) hhigh settings.retries
      cases hsettle.symm.trans hrun
      exact ih (hsettled.ordered hs hcompiled hdated) (hhigh.trans hsettled.high_eq.symm)
        (by rwa [hsettled.high_eq])

theorem Synced.ordered (hs : Synced s) : s.Ordered := by
  induction hs with
  | empty hs => exact hs.ordered
  | sync _ hhigh hvs hrun ih => exact ordered_of_applies (applies_iff.mpr hrun) ih hhigh hvs

-- Versions that are brought in again lead to what they led to before, all that went well as unchanged. No
-- swap is made for it, as long as the names are not too long for files.
structure Repeats (settings : Settings) (vs : List Version) (s : FileStore) (result : Except Fault Report) :
    Prop where
  same : (apply settings vs).run s = (([], result.map fun _ => .unchanged vs), s)
  silent : (∀ v ∈ vs, (besideFile v.name).utf8ByteSize ≤ Files.longestName) →
    ∀ (conflicts : Nat) (others : List Version),
      (apply settings vs).run (⟨s, conflicts, others⟩ : Contended FileStore) =
        (([], result.map fun _ => .unchanged vs), ⟨s, conflicts, others⟩)

theorem Applied.repeats {result : Except Fault Report} {after : FileStore}
    (happlied : Applied settings s vs result after) (hhigh : settings.high = s.high) :
    Repeats settings vs after result :=
  have hafter := hhigh.trans happlied.high.symm
  ⟨happlied.rests.run hafter, happlied.rests.run_contended hafter⟩

theorem stable_versionsAt {defs : List (String × Tree)} {start : Instant}
    (hrestored : ∀ field ∈ defs, field.2.restored) (hwhole : start.isWhole) (hbefore : start < high)
    (hdated : start.Representable ∧ high.Representable) : ∀ v ∈ versionsAt high start defs, v.Stable high :=
  List.forall_mem_map.mpr fun field hfield =>
    ⟨⟨rfl, hwhole, hbefore⟩, ⟨hdated.1, hdated.2⟩, rfl, hrestored field hfield⟩

-- A run that was broken off between two names and is made again ends as one that was not, and tells of the
-- definitions that were there already that they are unchanged. Once it has ended, well or not, it can be made
-- again without a change.
theorem apply_restartable {before after : List (String × Tree)} {start : Instant} (hs : Synced s)
    (hhigh : settings.high = s.high) (hdistinct : (Fields.keys (before ++ after)).Nodup)
    (hrestored : ∀ field ∈ before ++ after, field.2.restored) (hwhole : start.isWhole)
    (hbefore : start < s.high) (hdated : start.Representable ∧ s.high.Representable) :
    let first := versionsAt settings.high start before
    let all := versionsAt settings.high start (before ++ after)
    ∃ part whole mid last,
      (apply settings first).run s = (([], part), mid) ∧
      (apply settings all).run s = (([], whole), last) ∧
      (apply settings all).run mid =
        (([], whole.map fun report => Report.unchanged first ++ report.drop first.length), last) ∧
      Repeats settings first mid part ∧ Repeats settings all last whole := by
  intro first all
  let rest := versionsAt settings.high start after
  have hall : all = first ++ rest := List.map_append
  have hstable : ∀ v ∈ all, v.Stable settings.high :=
    stable_versionsAt hrestored hwhole (by rwa [hhigh]) (by rwa [hhigh])
  have hapart : all.Pairwise fun v w => v.name ≠ w.name :=
    List.pairwise_map.mpr (List.pairwise_map.mp hdistinct)
  obtain ⟨whole, last, hwholerun, hwholeleft⟩ := run_apply_stable hs.ordered hhigh hapart hstable
  rw [hall, List.pairwise_append] at hapart
  rw [hall, List.forall_mem_append] at hstable
  obtain ⟨part, mid, hpartrun, hpartleft⟩ := run_apply_stable hs.ordered hhigh hapart.1 hstable.1
  refine ⟨part, whole, mid, last, hpartrun, hwholerun, ?_, hpartleft.repeats hhigh, hwholeleft.repeats hhigh⟩
  have hagain := (hpartleft.repeats hhigh).same
  have hmid := hhigh.trans hpartleft.high.symm
  cases part with
  | error e =>
      have hwholerun' : (apply settings all).run s = (([], .error e), mid) := by
        rw [hall]
        exact run_apply_append_of_error hpartrun rest
      cases hwholerun.symm.trans hwholerun'
      rw [hall]
      exact run_apply_append_of_error hagain rest
  | ok report =>
      have hlength : report.length = first.length := by
        simpa using congrArg List.length (hpartleft.named report rfl)
      obtain ⟨told, end_, hrestrun, -⟩ := run_apply_stable hpartleft.ordered hmid hapart.2.1 hstable.2
      have hwholerun' : (apply settings all).run s = (([], told.map (report ++ ·)), end_) := by
        rw [hall]
        exact run_apply_append hpartrun hrestrun
      cases hwholerun.symm.trans hwholerun'
      rw [hall, run_apply_append hagain hrestrun]
      cases told with
      | error e => rfl
      | ok told => simp [Except.map, ← hlength]

-- A run over two names, of which one has a version from before, is broken off after the other one.
theorem apply_restartable_two_names :
    let settings : Settings := ⟨⟨9, 0⟩, 0, 0⟩
    let first := versionsAt ⟨9, 0⟩ ⟨2, 0⟩ [("volume", .null)]
    let all := versionsAt ⟨9, 0⟩ ⟨2, 0⟩ [("volume", .null), ("price", .bool true)]
    ∃ s mid last, Synced s ∧
      (apply settings first).run s = (([], .ok [("volume", .inserted)]), mid) ∧
      (apply settings all).run s =
        (([], .ok [("volume", .inserted), ("price", .superseded ⟨1, 0⟩)]), last) ∧
      (apply settings all).run mid =
        (([], .ok [("volume", .unchanged), ("price", .superseded ⟨1, 0⟩)]), last) ∧
      (apply settings all).run last =
        (([], .ok [("volume", .unchanged), ("price", .unchanged)]), last) := by
  intro settings first all
  let old : Version := .ofBody "price" ⟨1, 0⟩ ⟨9, 0⟩ .null
  let volume : Version := .ofBody "volume" ⟨2, 0⟩ ⟨9, 0⟩ .null
  let price : Version := .ofBody "price" ⟨2, 0⟩ ⟨9, 0⟩ (.bool true)
  let f : FileStore := ⟨["store"], ⟨9, 0⟩, ⟨[(["store"], .directory)], []⟩⟩
  have hf : f.Empty := ⟨rfl, rfl⟩
  have hstart : (⟨2, 0⟩ : Instant).Representable := ⟨by decide, by decide, by decide, by decide⟩
  have hhighdate : (⟨9, 0⟩ : Instant).Representable := ⟨by decide, by decide, by decide, by decide⟩
  have hold : old.Dated := ⟨⟨by decide, by decide, by decide, by decide⟩, hhighdate⟩
  have hcompiled (second : Int) (name : String) (body : Tree) (h : second < 9) :
      (Version.ofBody name ⟨second, 0⟩ ⟨9, 0⟩ body).Compiled settings.high :=
    ⟨rfl, rfl, .inl h⟩
  -- The store has a version of one of the names.
  have hpriceroom : f.Writable "price" := hf.writable (by decide)
  obtain ⟨s, holdrun, holdwrote⟩ := run_settle_missing hpriceroom (by decide)
    (hcompiled 1 "price" .null (by decide)) (hf.readHistory (by decide)) settings.retries
  have hs : Synced s := .sync (.empty hf) (show settings.high = f.high from rfl)
    (List.forall_mem_singleton.mpr ⟨hcompiled 1 "price" .null (by decide), hold⟩)
    (run_apply_of_settle holdrun rfl)
  have hnull : Tree.ofJson? (Tree.null).toJson = some .null := by
    rw [Tree.ofJson?_toJson (Nat.zero_le _)]
    rfl
  have hbool : Tree.ofJson? (Tree.bool true).toJson = some (.bool true) := by
    rw [Tree.ofJson?_toJson (Nat.zero_le _)]
    rfl
  have hhigh : s.high = settings.high := holdwrote.high
  have hread : s.readHistory "price" = .ok [old] := by
    have hreread : old.reread? = some old := by
      rw [Version.reread?_ofBody, hnull]
      rfl
    refine (holdwrote.readHistory_self (List.forall_mem_singleton.mpr hold)).trans ?_
    rw [List.mapM_cons, hreread]
    rfl
  -- The other one is put in, and the first one gets its second version.
  have hvolumeroom : s.Writable "volume" := holdwrote.writable (by decide) (hf.writable (by decide))
  obtain ⟨mid, hvolume, hwrote⟩ : ∃ mid, (settle settings volume 0 settings.retries).run s =
      (([], .ok .inserted), mid) ∧ Wrote s "volume" [volume] mid :=
    run_settle_missing hvolumeroom (by decide) (hcompiled 2 "volume" .null (by decide))
      ((holdwrote.readHistory_of_ne hf.dir (by decide)).trans (hf.readHistory (by decide))) settings.retries
  have hmid : mid.readHistory "price" = .ok [old] :=
    (hwrote.readHistory_of_ne hvolumeroom.dir (by decide)).trans hread
  have hroom : mid.Writable price.name := hwrote.writable (by decide) (holdwrote.writable_self hpriceroom)
  have hprecedes : old.Precedes price := show (⟨1, 0⟩ : Instant) ≤ Instant.secondBefore ⟨2, 0⟩ by decide
  obtain ⟨last, hprice⟩ : ∃ last, (settle settings price 0 settings.retries).run mid =
      (([], .ok (.superseded ⟨1, 0⟩)), last) :=
    run_settle_changed hroom (by decide) (hcompiled 2 "price" (.bool true) (by decide)) hmid
      (hwrote.high.trans hhigh) rfl rfl rfl hprecedes rfl settings.retries
  have hfirst : (apply settings first).run s = (([], .ok [("volume", .inserted)]), mid) :=
    run_apply_of_settle hvolume rfl
  have hall : (apply settings all).run s =
      (([], .ok [("volume", .inserted), ("price", .superseded ⟨1, 0⟩)]), last) :=
    run_apply_of_settle hvolume (run_apply_of_settle hprice rfl)
  obtain ⟨part, whole, mid', last', hpart, hwhole, hresumed, -, hrepeats⟩ :=
    apply_restartable hs hhigh.symm
      (show (Fields.keys ([("volume", Tree.null)] ++ [("price", .bool true)])).Nodup by decide)
      (by simp [Tree.restored, hnull, hbool, Tree.equal]) (show (⟨2, 0⟩ : Instant).isWhole from rfl)
      (by rw [hhigh]; decide) ⟨hstart, by rw [hhigh]; exact hhighdate⟩
  cases hfirst.symm.trans hpart
  cases hall.symm.trans hwhole
  exact ⟨s, mid, last, hs, hfirst, hall, hresumed, hrepeats.same⟩

end Sync

end ScraperTimeline
