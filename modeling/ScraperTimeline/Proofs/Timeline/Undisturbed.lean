import ScraperTimeline.Proofs.Timeline.Rewritten

/-!
Syncs with a store of files where no other writer is. The open version that was read is still there when
the swap is made, so what is done is what was planned for it, unless the files fail.
-/
namespace ScraperTimeline

variable {high : Instant} {name : String} {new v w : Version} {h : History} {s s' : FileStore}
  {seen : Option Version} {outcome : Outcome} {writes : List Version}

/-! ### What is read -/

theorem forall₂_of_mapM {α β : Type} {f : α → Option β} {as : List α} {bs : List β}
    (hbs : as.mapM f = some bs) : List.Forall₂ (fun a b => f a = some b) as bs := by
  induction as generalizing bs with
  | nil =>
      cases hbs
      exact .nil
  | cons a rest ih =>
      simp only [List.mapM_cons, Option.bind_eq_bind, Option.bind_eq_some_iff] at hbs
      obtain ⟨b, hb, bs', hbs', hpure⟩ := hbs
      cases hpure
      exact .cons hb (ih hbs')

-- A version with the body that its text has.
def Version.Parsed (v : Version) : Prop := Tree.ofJson? v.text = some v.body

namespace Version

theorem parsed_of_ofParts? {name start stop text : Json} (hv : ofParts? name start stop text = some v) :
    v.Parsed := by
  simp only [ofParts?, ofText_toOption, Option.bind_eq_bind, Option.bind_eq_some_iff,
    Option.map_eq_some_iff] at hv
  obtain ⟨_, -, _, -, _, -, _, -, _, -, _, -, body, hbody, rfl⟩ := hv
  exact hbody

theorem parsed_of_ofJson? {json : Json} (hv : ofJson? json = some v) : v.Parsed := by
  unfold ofJson? at hv
  split at hv
  · simp only [Option.bind_eq_bind, Option.bind_eq_some_iff] at hv
    obtain ⟨_, -, _, -, _, -, _, -, hparts⟩ := hv
    exact parsed_of_ofParts? hparts
  · exact parsed_of_ofParts? hv
  · cases hv

theorem Parsed.reread?_eq (hv : v.Parsed) : v.reread? = some v := by
  rw [reread?, hv]
  rfl

theorem Parsed.sameDefinition_self (hv : v.Parsed) : v.sameDefinition v :=
  let hread := Tree.keyed_nanFree_of_ofJson? hv
  sameDefinition_refl hread.1 hread.2

end Version

namespace History

theorem parsed_of_ofJson? {text : String} (hread : ofJson? text = some h) : ∀ v ∈ h, v.Parsed := by
  unfold ofJson? at hread
  split at hread
  next hitems =>
    have hall := forall₂_of_mapM hread
    clear hread hitems
    induction hall with
    | nil => simp
    | cons hv _ ih => exact List.forall_mem_cons.mpr ⟨Version.parsed_of_ofJson? hv, ih⟩
  next => cases hread

-- What was read matches itself.
theorem stillMatches_open? (hparsed : ∀ v ∈ h, v.Parsed) (high : Instant) :
    Store.stillMatches (h.open? high) (h.open? high) :=
  Store.stillMatches_refl fun o ho => (hparsed o (List.mem_of_find?_eq_some ho)).sameDefinition_self

theorem mem_put_self (v : Version) (h : History) : v ∈ h.put v := by
  refine (List.mergeSort_perm ..).mem_iff.mpr ?_
  induction h with
  | nil => simp [replace]
  | cons w rest ih =>
      rw [replace]
      split
      · exact List.mem_cons_self
      · exact List.mem_cons_of_mem _ ih

end History

/-! ### Plans -/

namespace Sync

-- What a plan that can be made is, for any open version.
inductive Made (new : Version) : Option Version → Outcome → List Version → Prop
  | unchanged {o : Version} : Made new (some o) .unchanged []
  | inserted {seen : Option Version} : Made new seen .inserted [new]
  | superseded {o : Version} (hname : o.name = new.name) (hprecedes : o.Precedes new) :
      Made new (some o) (.superseded new.start.secondBefore) [o.closedAt new.start.secondBefore, new]

theorem made_of_plan (hplan : plan high new seen = .ok (outcome, writes)) : Made new seen outcome writes := by
  simp only [plan, reconcile, List.foldlM_cons, List.foldlM_nil, Reconciliation.add, Reconciliation.start,
    bind, Except.bind] at hplan
  cases hcheck : Reconciliation.checkNew high new with
  | error e =>
      rw [hcheck] at hplan
      cases hplan
  | ok =>
      rw [hcheck] at hplan
      cases seen with
      | none =>
          cases hplan
          exact .inserted
      | some o =>
          cases hfind : decide (o.name = new.name) && o.isOpen high with
          | false =>
              simp only [Option.toList, List.findIdx?_cons, hfind] at hplan
              cases hplan
              exact .inserted
          | true =>
              simp only [Option.toList, List.findIdx?_cons, hfind, if_true, List.getD_cons_zero] at hplan
              have hname : o.name = new.name := of_decide_eq_true (Bool.and_eq_true_iff.mp hfind).1
              by_cases hsame : o.sameDefinition new
              · simp only [hsame, if_true] at hplan
                cases hplan
                exact .unchanged
              · by_cases hlate : new.start.secondBefore < o.start
                · simp only [hsame, hlate, if_true] at hplan
                  cases hplan
                · simp only [hsame, hlate, if_false] at hplan
                  cases hplan
                  exact .superseded hname (Instant.not_lt.mp hlate)

namespace Made

-- What is written is the new version, or the open one with an earlier end.
theorem of_mem (hmade : Made new seen outcome writes) (hw : w ∈ writes) :
    w = new ∨ ∃ o, seen = some o ∧ o.name = new.name ∧ o.Precedes new ∧
      w = o.closedAt new.start.secondBefore := by
  cases hmade with
  | unchanged => cases hw
  | inserted => exact .inl (List.mem_singleton.mp hw)
  | @superseded o hname hprecedes =>
      rcases List.mem_cons.mp hw with rfl | hw
      · exact .inr ⟨o, rfl, hname, hprecedes, rfl⟩
      · exact .inl (List.mem_singleton.mp hw)

theorem named (hmade : Made new seen outcome writes) : ∀ w ∈ writes, w.name = new.name := by
  intro w hw
  rcases hmade.of_mem hw with rfl | ⟨o, -, hname, -, rfl⟩
  · rfl
  · exact hname

-- The new version is put in last.
theorem mem_foldl_put (hmade : Made new seen outcome writes) (hne : writes ≠ []) (h : History) :
    new ∈ writes.foldl (fun h v => h.put v) h := by
  cases hmade with
  | unchanged => exact (hne rfl).elim
  | inserted => exact History.mem_put_self new h
  | superseded => exact History.mem_put_self new _

end Made

end Sync

/-! ### The open version of a name -/

namespace FileStore

theorem parsed_of_readHistory (hread : s.readHistory name = .ok h) : ∀ v ∈ h, v.Parsed := by
  unfold readHistory at hread
  dsimp only at hread
  split at hread
  next text _ =>
    cases htext : History.ofJson? text with
    | none =>
        rw [htext] at hread
        cases hread
    | some h' =>
        rw [htext] at hread
        cases hread
        exact History.parsed_of_ofJson? htext
  next =>
    cases hread
    simp
  next => cases hread
  next => cases hread

-- The open version of a name, as it is read.
def openOf (s : FileStore) (name : String) : Except Fault (Option Version) := do
  Store.checkName name
  return (← s.readHistory name).open? s.high

theorem run_findOpen_openOf (s : FileStore) (name : String) :
    (Store.findOpen name : Storing FileStore (Option Version)).run.run s = (s.openOf name, s) := by
  cases hname : Store.isName name with
  | false =>
      rw [run_findOpen_of_not_isName hname, openOf, checkName_of_not_isName hname]
      rfl
  | true =>
      rw [openOf, Store.checkName_of_isName hname]
      cases hread : s.readHistory name with
      | error e => exact run_findOpen_of_error hname hread
      | ok h => exact run_findOpen hname hread

theorem openOf_of_read (hname : Store.isName name) (hread : s.readHistory name = .ok h) :
    s.openOf name = .ok (h.open? s.high) := by
  rw [openOf, Store.checkName_of_isName hname, hread]
  rfl

theorem openOf_congr (hhigh : s'.high = s.high) (hread : s'.readHistory name = s.readHistory name) :
    s'.openOf name = s.openOf name := by
  rw [openOf, openOf, hhigh, hread]

theorem exists_of_openOf (hopen : s.openOf name = .ok seen) :
    Store.isName name ∧ ∃ h, s.readHistory name = .ok h ∧ seen = h.open? s.high := by
  cases hname : Store.isName name with
  | false =>
      rw [openOf, checkName_of_not_isName hname] at hopen
      cases hopen
  | true =>
      rw [openOf, Store.checkName_of_isName hname] at hopen
      cases hread : s.readHistory name with
      | error e =>
          rw [hread] at hopen
          cases hopen
      | ok h =>
          rw [hread] at hopen
          cases hopen
          exact ⟨rfl, h, rfl, rfl⟩

end FileStore

/-! ### What a read leads to -/

namespace Sync

-- What comes of a version once its name has been read.
def Finding.ofRead (high : Instant) (new : Version) : Except Fault (Option Version) → Finding
  | .error e => .ended (.failed e)
  | .ok seen => .ofPlan seen (plan high new seen)

theorem run_consult_of_findOpen {σ : Type} [Store σ] {store : σ} {read : Except Fault (Option Version)}
    (hread : (Store.findOpen new.name : Storing σ (Option Version)).run.run store = (read, store)) :
    (consult high new).run store = (.ofRead high new read, store) := by
  cases read with
  | error e => exact run_consult_of_error hread
  | ok seen => exact run_consult_of_read hread

theorem run_consult_openOf (high : Instant) (new : Version) (s : FileStore) :
    (consult high new).run s = (.ofRead high new (s.openOf new.name), s) :=
  run_consult_of_findOpen (s.run_findOpen_openOf new.name)

-- A swap that is to be made, with the history that it was planned for.
structure Proposed (high : Instant) (s : FileStore) (new : Version) (p : Proposal) (before : History) :
    Prop where
  isName : Store.isName new.name
  read : s.readHistory new.name = .ok before
  seen : p.seen = before.open? s.high
  planned : plan high new p.seen = .ok (p.outcome, p.writes)
  writes : p.writes ≠ []

-- All that can come of a read.
inductive Found (high : Instant) (new : Version) : Except Fault (Option Version) → Finding → Prop
  | failed {read : Except Fault (Option Version)} {e : Fault} : Found high new read (.ended (.failed e))
  | unchanged {seen : Option Version} : Found high new (.ok seen) (.ended (.settled .unchanged))
  | swap {seen : Option Version} {outcome : Outcome} {writes : List Version}
      (hplan : plan high new seen = .ok (outcome, writes)) (hwrites : writes ≠ []) :
      Found high new (.ok seen) (.swap ⟨seen, outcome, writes⟩)

namespace Finding

theorem found (high : Instant) (new : Version) (read : Except Fault (Option Version)) :
    Found high new read (.ofRead high new read) := by
  cases read with
  | error e => exact .failed
  | ok seen =>
      rw [ofRead]
      cases hplan : plan high new seen with
      | error e => exact .failed
      | ok planned =>
          obtain ⟨outcome, writes⟩ := planned
          cases writes with
          | nil =>
              cases made_of_plan hplan
              exact .unchanged
          | cons w rest => exact .swap hplan (by simp)

theorem exists_proposed {p : Proposal} (hfound : ofRead high new (s.openOf new.name) = .swap p) :
    ∃ before, Proposed high s new p before := by
  have hcases := found high new (s.openOf new.name)
  rw [hfound] at hcases
  generalize hopen : s.openOf new.name = read at hcases
  cases hcases with
  | swap hplan hwrites =>
      obtain ⟨hname, before, hread, hseen⟩ := FileStore.exists_of_openOf hopen
      exact ⟨before, hname, hread, hseen, hplan, hwrites⟩

-- What ends without a fault and without a swap changes nothing.
theorem eq_unchanged {read : Except Fault (Option Version)}
    (hfound : ofRead high new read = .ended (.settled outcome)) : outcome = .unchanged := by
  have hcases := found high new read
  rw [hfound] at hcases
  cases hcases
  rfl

theorem ne_lost {read : Except Fault (Option Version)} {a : Attempt}
    (hfound : ofRead high new read = .ended a) : ∀ e, a ≠ .lost e := by
  rintro e rfl
  have hcases := found high new read
  rw [hfound] at hcases
  cases hcases

end Finding

-- Without a swap the store stays as it is.
theorem run_settle_ended {settings : Settings} {a : Attempt}
    (hfound : Finding.ofRead settings.high new (s.openOf new.name) = .ended a) (left : Nat) :
    (settle settings new 0 left).run s = (([], a.result), s) := by
  have hconsult := run_consult_openOf settings.high new s
  rw [hfound] at hconsult
  exact run_settle (run_attempt_ended hconsult) (Finding.ne_lost hfound)

namespace Proposed

variable {p : Proposal} {before : History}

theorem made (hp : Proposed high s new p before) : Made new p.seen p.outcome p.writes :=
  made_of_plan hp.planned

-- What was planned for the history that was read can be put in it.
theorem swapped (hp : Proposed high s new p before) :
    Store.swapped s.high new.name p.seen p.writes before =
      .ok (p.writes.foldl (fun h v => h.put v) before) := by
  have hmatches := History.stillMatches_open? (FileStore.parsed_of_readHistory hp.read) s.high
  rw [Store.swapped, hp.seen, if_pos hmatches]

-- What is in the history then.
theorem of_mem (hp : Proposed high s new p before)
    (hw : w ∈ p.writes.foldl (fun h v => h.put v) before) :
    w = new ∨ w ∈ before ∨ ∃ o ∈ before, o.Precedes new ∧ w = o.closedAt new.start.secondBefore := by
  rcases History.mem_of_mem_foldl_put hw with hw | hw
  · rcases hp.made.of_mem hw with rfl | ⟨o, hseen, -, hprecedes, rfl⟩
    · exact .inl rfl
    · exact .inr (.inr ⟨o, List.mem_of_find?_eq_some (hp.seen.symm.trans hseen), hprecedes, rfl⟩)
  · exact .inr (.inl hw)

end Proposed

end Sync
end ScraperTimeline
