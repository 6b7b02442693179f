import ScraperTimeline.Proofs.Timeline.Collected

/-!
Reconciliation of a collection in which no two versions of a name are valid at one instant. Only the open
version of a name is looked at, so a version that is inserted can run into one that is closed.
-/
namespace ScraperTimeline

-- No instant is in both of them, unless their names differ.
def Version.Apart (v w : Version) : Prop := v.name = w.name → ∀ t, ¬(v.covers t ∧ w.covers t)

def PairwiseApart (vs : List Version) : Prop := vs.Pairwise Version.Apart

-- Versions that end after they start, of each name at most one of them open.
structure Orderly (high : Instant) (vs : List Version) : Prop where
  spans : ∀ v ∈ vs, v.start ≤ v.stop
  oneOpen : vs.Pairwise fun v w => v.name = w.name → ¬(v.isOpen high ∧ w.isOpen high)

-- Where nothing of a name is open, the first new version of it is apart from all that is there.
def Clear (high : Instant) (existing new : List Version) : Prop :=
  ∀ v, (ofName v.name new).head? = some v → (∀ w ∈ existing, w.name = v.name → ¬w.isOpen high) →
    ∀ w ∈ existing, w.Apart v

namespace Version

variable {high t : Instant} {v w o new : Version}

theorem Apart.symm (h : v.Apart w) : w.Apart v := fun hname t hboth => h hname.symm t hboth.symm

theorem apart_of_stop_lt (hwhole : w.start.isWhole) (h : v.stop < w.start) : v.Apart w := by
  rintro - t ⟨hv, hw⟩
  obtain ⟨-, hstop⟩ := covers_iff.mp hv
  obtain ⟨hstart, -⟩ := covers_iff.mp hw
  exact Instant.not_lt.mpr hstop (Instant.lt_of_lt_of_le h (Instant.le_wholeSecond hwhole hstart))

-- What becomes of the open version and the one that supersedes it: together they are valid when the
-- open one was, and never both of them.
theorem Precedes.covers_of_closed (ho : o.isOpen high) (hnew : new.Compiled high)
    (h : (o.closedAt new.start.secondBefore).covers t) : o.covers t := by
  have hstop : o.stop = high := by simpa [isOpen] using ho
  obtain ⟨hstart, hend⟩ := covers_iff.mp h
  refine covers_iff.mpr ⟨hstart, ?_⟩
  rw [hstop]
  exact Instant.le_trans hend (Instant.le_of_lt
    (Instant.lt_of_le_of_lt (Instant.le_of_lt new.start.secondBefore_lt) hnew.before))

theorem Precedes.covers_of_new (h : o.Precedes new) (ho : o.isOpen high) (hnew : new.Compiled high)
    (hcovers : new.covers t) : o.covers t := by
  have hstop : o.stop = high := by simpa [isOpen] using ho
  obtain ⟨hstart, hend⟩ := covers_iff.mp hcovers
  refine covers_iff.mpr ⟨Instant.le_trans (Instant.le_of_lt h.lt) hstart, ?_⟩
  rwa [hstop, ← hnew.stop_eq]

theorem closedAt_apart (hnew : new.Compiled high) (o : Version) :
    (o.closedAt new.start.secondBefore).Apart new :=
  apart_of_stop_lt hnew.whole new.start.secondBefore_lt

end Version

/-! ### One version -/

namespace Reconciliation

variable {high : Instant} {new : Version} {r r' : Reconciliation}

-- What a new version does to the collection, and what is told of it.
inductive Added (high : Instant) (new : Version) (r : Reconciliation) : Reconciliation → Prop
  | unchanged {o : Version} (hmem : o ∈ r.versions) (hname : o.name = new.name) (hopen : o.isOpen high)
      (hsame : o.sameDefinition new) : Added high new r (r.report new.name .unchanged)
  | inserted (hnone : ∀ v ∈ r.versions, ¬(v.name = new.name ∧ v.isOpen high)) :
      Added high new r ((r.insert new).report new.name .inserted)
  | superseded {before after : List Version} {o : Version} (hversions : r.versions = before ++ o :: after)
      (hbefore : ∀ v ∈ before, ¬(v.name = new.name ∧ v.isOpen high)) (hname : o.name = new.name)
      (hopen : o.isOpen high) (hdiffers : ¬o.sameDefinition new) (hprecedes : o.Precedes new) :
      Added high new r (((r.close before.length new.start.secondBefore).insert new).report new.name
        (.superseded new.start.secondBefore))

theorem compiled_of_add (hbefore : new.start < high) (hadd : r.add high new = .ok r') : new.Compiled high := by
  have hcheck : checkNew high new = .ok () := by
    cases hcheck : checkNew high new with
    | error e =>
        rw [add, hcheck] at hadd
        cases hadd
    | ok => rfl
  rw [checkNew] at hcheck
  split at hcheck
  · cases hcheck
  next hopen =>
    split at hcheck
    · cases hcheck
    next hwhole =>
      exact ⟨by simpa [Version.isOpen] using hopen, by simpa using hwhole, hbefore⟩

theorem added_of_add (hnew : new.Compiled high) (hadd : r.add high new = .ok r') : Added high new r r' := by
  cases hfind : r.versions.find? fun v => decide (v.name = new.name) && v.isOpen high with
  | none =>
      have hnone : ∀ v ∈ r.versions, ¬(v.name = new.name ∧ v.isOpen high) := by simpa using hfind
      rw [add_of_none hnew hnone] at hadd
      cases hadd
      exact .inserted hnone
  | some o =>
      obtain ⟨ho, before, after, hversions, hfirst⟩ := List.find?_eq_some_iff_append.mp hfind
      obtain ⟨hname, hopen⟩ : o.name = new.name ∧ o.isOpen high := by simpa using ho
      have hbefore : ∀ v ∈ before, ¬(v.name = new.name ∧ v.isOpen high) := by
        simpa [imp_iff_not_or] using hfirst
      rw [add_of_some hnew hversions hbefore hname hopen] at hadd
      split at hadd
      next hsame =>
        cases hadd
        exact .unchanged (by rw [hversions]; simp) hname hopen hsame
      next hdiffers =>
        split at hadd
        · cases hadd
        next hlate =>
          cases hadd
          exact .superseded hversions hbefore hname hopen hdiffers (Instant.not_lt.mp hlate)

end Reconciliation

-- What becomes of the versions when a new one is taken in.
inductive Reconciliation.Took (high : Instant) (new : Version) (versions : List Version) :
    List Version → Prop
  | kept {o : Version} (hmem : o ∈ versions) (hname : o.name = new.name) (hopen : o.isOpen high) :
      Took high new versions versions
  | inserted (hnone : ∀ v ∈ versions, ¬(v.name = new.name ∧ v.isOpen high)) :
      Took high new versions (versions ++ [new])
  | superseded {before after : List Version} {o : Version} (hversions : versions = before ++ o :: after)
      (hname : o.name = new.name) (hopen : o.isOpen high) (hprecedes : o.Precedes new) :
      Took high new versions (before ++ o.closedAt new.start.secondBefore :: after ++ [new])

namespace Reconciliation

variable {high : Instant} {new : Version} {versions after : List Version} {r r' : Reconciliation}

theorem took_of_add (hnew : new.Compiled high) (hadd : r.add high new = .ok r') :
    Took high new r.versions r'.versions := by
  cases added_of_add hnew hadd with
  | unchanged hmem hname hopen => exact .kept hmem hname hopen
  | inserted hnone => exact .inserted hnone
  | superseded hversions _ hname hopen _ hprecedes =>
      rw [versions_supersede hversions]
      exact .superseded hversions hname hopen hprecedes

namespace Took

theorem mem_iff_of_ne (h : Took high new versions after) {w : Version} (hne : w.name ≠ new.name) :
    w ∈ after ↔ w ∈ versions := by
  have hnew : w ≠ new := by
    rintro rfl
    exact hne rfl
  cases h with
  | kept => rfl
  | inserted => simp [hnew]
  | @superseded before later o hversions hname =>
      have ho : w ≠ o := by
        rintro rfl
        exact hne hname
      have hclosed : w ≠ o.closedAt new.start.secondBefore := by
        rintro rfl
        exact hne hname
      simp [hversions, hnew, ho, hclosed]

theorem exists_open (h : Took high new versions after) (hnew : new.Compiled high) :
    ∃ w ∈ after, w.name = new.name ∧ w.isOpen high := by
  cases h with
  | kept hmem hname hopen => exact ⟨_, hmem, hname, hopen⟩
  | inserted => exact ⟨new, by simp, rfl, hnew.isOpen⟩
  | superseded => exact ⟨new, by simp, rfl, hnew.isOpen⟩

-- A relation between versions that the closed one and the new one have as the open one had it.
theorem pairwise_supersede {R : Version → Version → Prop} (hsymm : ∀ v w, R v w → R w v)
    {before later : List Version} {o closed : Version} (h : (before ++ o :: later).Pairwise R)
    (hclosed : ∀ v, R o v → R closed v) (hnew : ∀ v, R o v → R new v) (hboth : R closed new) :
    (before ++ closed :: later ++ [new]).Pairwise R := by
  have hold : (o :: (before ++ later)).Pairwise R :=
    (List.perm_middle.pairwise_iff (hsymm _ _)).mp h
  obtain ⟨ho, hrest⟩ := List.pairwise_cons.mp hold
  have hperm : (before ++ closed :: later ++ [new]).Perm (closed :: new :: (before ++ later)) :=
    (List.perm_append_singleton _ _).trans ((List.perm_middle.cons new).trans (.swap ..))
  refine (hperm.pairwise_iff (hsymm _ _)).mpr (List.pairwise_cons.mpr ⟨?_, List.pairwise_cons.mpr ⟨?_, hrest⟩⟩)
  · exact List.forall_mem_cons.mpr ⟨hboth, fun v hv => hclosed v (ho v hv)⟩
  · exact fun v hv => hnew v (ho v hv)

theorem orderly (h : Took high new versions after) (hnew : new.Compiled high)
    (horderly : Orderly high versions) : Orderly high after := by
  have hspans : new.start ≤ new.stop := by
    rw [hnew.stop_eq]
    exact Instant.le_of_lt hnew.before
  obtain ⟨hall, hone⟩ := horderly
  cases h with
  | kept => exact ⟨hall, hone⟩
  | inserted hnone =>
      refine ⟨List.forall_mem_append.mpr ⟨hall, by simpa using hspans⟩, ?_⟩
      rw [List.pairwise_append]
      refine ⟨hone, List.pairwise_singleton _ _, fun v hv w hw hname hboth => ?_⟩
      obtain rfl := List.mem_singleton.mp hw
      exact hnone v hv ⟨hname, hboth.1⟩
  | @superseded before later o hversions hname hopen hprecedes =>
      subst hversions
      obtain ⟨hbefore, ho, hlater⟩ : (∀ v ∈ before, v.start ≤ v.stop) ∧ o.start ≤ o.stop ∧
          ∀ v ∈ later, v.start ≤ v.stop := by rwa [List.forall_mem_append, List.forall_mem_cons] at hall
      have hclosed := Version.closedAt_not_isOpen hnew o
      refine ⟨?_, pairwise_supersede (fun v w hR hname hboth => hR hname.symm hboth.symm) hone ?_ ?_ ?_⟩
      · simp only [List.forall_mem_append, List.forall_mem_cons]
        exact ⟨⟨hbefore, hprecedes, hlater⟩, hspans, by simp⟩
      · exact fun v _ _ hboth => by simp [hclosed] at hboth
      · exact fun v hR hname' hboth => hR (hname.trans hname') ⟨hopen, hboth.2⟩
      · exact fun _ hboth => by simp [hclosed] at hboth

theorem pairwiseApart (h : Took high new versions after) (hnew : new.Compiled high)
    (hapart : PairwiseApart versions)
    (hclear : (∀ v ∈ versions, ¬(v.name = new.name ∧ v.isOpen high)) → ∀ v ∈ versions, v.Apart new) :
    PairwiseApart after := by
  cases h with
  | kept => exact hapart
  | inserted hnone =>
      refine List.pairwise_append.mpr ⟨hapart, List.pairwise_singleton _ _, fun v hv w hw => ?_⟩
      rw [List.mem_singleton.mp hw]
      exact hclear hnone v hv
  | superseded hversions hname hopen hprecedes =>
      subst hversions
      refine pairwise_supersede (fun _ _ => Version.Apart.symm) hapart ?_ ?_
        (Version.closedAt_apart hnew _)
      · exact fun v hR hname' t hboth =>
          hR hname' t ⟨Version.Precedes.covers_of_closed hopen hnew hboth.1, hboth.2⟩
      · exact fun v hR hname' t hboth =>
          hR (hname.trans hname') t ⟨hprecedes.covers_of_new hopen hnew hboth.1, hboth.2⟩

theorem clear {rest : List Version} (h : Took high new versions after) (hnew : new.Compiled high)
    (hclear : Clear high versions (new :: rest)) : Clear high after rest := by
  intro v hfirst hnone w hw hname
  by_cases hsame : v.name = new.name
  -- Of the name that has just come in a version is open.
  · obtain ⟨o, ho, honame, hopen⟩ := h.exists_open hnew
    exact absurd hopen (hnone o ho (honame.trans hsame.symm))
  · have hother : w.name ≠ new.name := fun heq => hsame (hname.symm.trans heq)
    refine hclear v ?_ (fun u hu huname => hnone u ?_ huname) w ((h.mem_iff_of_ne hother).mp hw) hname
    · rwa [ofName, List.filter_cons_of_neg (by simpa using Ne.symm hsame), ← ofName]
    · exact (h.mem_iff_of_ne fun heq => hsame (huname.symm.trans heq)).mpr hu

end Took

/-! ### All versions -/

theorem orderly_of_foldlM {new : List Version} (hnew : ∀ v ∈ new, v.Compiled high)
    (hrun : new.foldlM (add high) r = .ok r') (horderly : Orderly high r.versions) :
    Orderly high r'.versions ∧
      (PairwiseApart r.versions → Clear high r.versions new → PairwiseApart r'.versions) := by
  induction new generalizing r with
  | nil =>
      cases hrun
      exact ⟨horderly, fun hapart _ => hapart⟩
  | cons v rest ih =>
      obtain ⟨hv, hrest⟩ := List.forall_mem_cons.mp hnew
      rw [List.foldlM_cons] at hrun
      cases hadd : r.add high v with
      | error e =>
          rw [hadd] at hrun
          cases hrun
      | ok next =>
          rw [hadd] at hrun
          have htook := took_of_add hv hadd
          obtain ⟨hafter, hapart⟩ := ih hrest hrun (htook.orderly hv horderly)
          refine ⟨hafter, fun hbefore hclear => hapart (htook.pairwiseApart hv hbefore ?_)
            (htook.clear hv hclear)⟩
          intro hnone
          exact hclear v (by simp [ofName]) fun w hw hname hopen => hnone w hw ⟨hname, hopen⟩

-- New versions leave each name with versions that end after they start, at most one of them open. They
-- leave them disjoint as well unless a version that is inserted runs into one that is closed.
theorem reconcile_preserves_apart {existing new : List Version} (hexisting : Orderly high existing)
    (hapart : PairwiseApart existing) (hnew : ∀ v ∈ new, v.Compiled high)
    (hrun : reconcile high new existing = .ok r) :
    Orderly high r.versions ∧ (Clear high existing new → PairwiseApart r.versions) := by
  obtain ⟨horderly, hafter⟩ := orderly_of_foldlM hnew hrun hexisting
  exact ⟨horderly, hafter hapart⟩

-- A version that is inserted behind a closed one and superseded at once.
theorem reconcile_preserves_apart_two_versions :
    let version (start stop : Int) (body : Tree) : Version := .ofBody "axis" ⟨start, 0⟩ ⟨stop, 0⟩ body
    let existing := [version 1 2 .null]
    let new := [version 4 9 .null, version 6 9 (.bool true)]
    ∃ r, reconcile ⟨9, 0⟩ new existing = .ok r ∧
      r.versions = [version 1 2 .null, version 4 5 .null, version 6 9 (.bool true)] ∧
      Orderly ⟨9, 0⟩ r.versions ∧ PairwiseApart r.versions := by
  intro version existing new
  have hexisting : Orderly ⟨9, 0⟩ existing := ⟨by decide, List.pairwise_singleton _ _⟩
  have hnew : ∀ v ∈ new, v.Compiled ⟨9, 0⟩ := by
    simp only [new, List.forall_mem_cons]
    exact ⟨⟨rfl, rfl, by decide⟩, ⟨rfl, rfl, by decide⟩, by simp⟩
  have hclear : Clear ⟨9, 0⟩ existing new := by
    intro v hfirst _ w hw hname
    rw [List.mem_singleton.mp hw] at hname ⊢
    obtain rfl : version 4 9 .null = v := by
      rw [← hname] at hfirst
      exact Option.some.inj hfirst
    exact Version.apart_of_stop_lt rfl (by decide) hname
  obtain ⟨r, hrun⟩ : ∃ r, reconcile ⟨9, 0⟩ new existing = .ok r := ⟨_, rfl⟩
  obtain ⟨horderly, hapart⟩ :=
    reconcile_preserves_apart hexisting (List.pairwise_singleton _ _) hnew hrun
  refine ⟨r, hrun, ?_, horderly, hapart hclear⟩
  cases hrun
  rfl

-- Where nothing is open, a version is inserted although a closed one is valid after its start.
theorem reconcile_overlaps_closed :
    let version (start stop : Int) (body : Tree) : Version := .ofBody "axis" ⟨start, 0⟩ ⟨stop, 0⟩ body
    ∃ r, Orderly ⟨9, 0⟩ [version 5 7 .null] ∧ PairwiseApart [version 5 7 .null] ∧
      (version 3 9 .null).Compiled ⟨9, 0⟩ ∧
      reconcile ⟨9, 0⟩ [version 3 9 .null] [version 5 7 .null] = .ok r ∧ ¬PairwiseApart r.versions := by
  intro version
  refine ⟨_, ⟨by decide, List.pairwise_singleton _ _⟩, List.pairwise_singleton _ _, ⟨rfl, rfl, by decide⟩,
    rfl, fun hapart => ?_⟩
  have hpair : (version 5 7 .null).Apart (version 3 9 .null) :=
    (List.pairwise_cons.mp hapart).1 _ (by simp [version])
  exact hpair rfl ⟨5, 0⟩ (by decide)

end Reconciliation
end ScraperTimeline
