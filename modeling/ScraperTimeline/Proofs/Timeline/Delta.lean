import ScraperTimeline.Proofs.Effect
import ScraperTimeline.Proofs.Timeline.Disjoint
import Mathlib.Data.List.Induction

/-!
What a reconciliation changes, place by place. The collection only grows at its end, and an entry is closed at
most once, so the places that changed are told by comparing the collection with what was there.
-/
namespace ScraperTimeline

-- The value at each of the places.
theorem forall₂_filterMap_getElem? {α : Type} {as : List α} {places : List Nat}
    (h : ∀ place ∈ places, place < as.length) :
    List.Forall₂ (fun place a => as[place]? = some a) places (places.filterMap (as[·]?)) := by
  induction places with
  | nil => exact .nil
  | cons place rest ih =>
      obtain ⟨hplace, hrest⟩ := List.forall_mem_cons.mp h
      have hvalue : as[place]? = some as[place] := List.getElem?_eq_getElem hplace
      rw [List.filterMap_cons_some hvalue]
      exact .cons hvalue (ih hrest)

namespace Reconciliation

variable {high : Instant} {v w : Version} {existing new earlier : List Version} {r r₀ : Reconciliation}

-- The new versions, each with what is told of it.
def verdicts (new : List Version) (r : Reconciliation) : List (Version × Outcome) :=
  new.zip (r.outcomes.map (·.2))

-- The new versions that come in.
def incoming (new : List Version) (r : Reconciliation) : List Version :=
  ((verdicts new r).filter (·.2.isChange)).map (·.1)

-- An entry stays as it is. If it is open, a version of its name that follows it and is told to supersede may
-- close it a second before its own start.
inductive EndsAs (high : Instant) (told : List (Version × Outcome)) (v : Version) : Version → Prop
  | kept : EndsAs high told v v
  | closed {new : Version} (hopen : v.isOpen high) (hname : new.name = v.name) (hprecedes : v.Precedes new)
      (htold : (new, .superseded new.start.secondBefore) ∈ told) :
      EndsAs high told v (v.closedAt new.start.secondBefore)

-- The first so many of the new versions change the entry at a place, or put one there.
def ChangedBy (high : Instant) (existing new : List Version) (count place : Nat) : Prop :=
  ∃ r, reconcile high (new.take count) existing = .ok r ∧ r.versions[place]? ≠ existing[place]?

-- So many of the new versions change the place, and fewer do not.
def FirstChangedBy (high : Instant) (existing new : List Version) (count place : Nat) : Prop :=
  ChangedBy high existing new count place ∧ ∀ n < count, ¬ChangedBy high existing new n place

/-! ### What is told -/

theorem verdicts_concat {r' : Reconciliation} {name : String} {outcome : Outcome}
    (hlen : r.outcomes.length = new.length) (h : r'.outcomes = r.outcomes ++ [(name, outcome)]) :
    verdicts (new ++ [v]) r' = verdicts new r ++ [(v, outcome)] := by
  rw [verdicts, h, List.map_append, List.zip_append (by simp [hlen])]
  rfl

theorem incoming_concat {r' : Reconciliation} {outcome : Outcome}
    (h : verdicts (new ++ [v]) r' = verdicts new r ++ [(v, outcome)]) :
    incoming (new ++ [v]) r' = incoming new r ++ if outcome.isChange then [v] else [] := by
  rw [incoming, h, List.filter_append, List.map_append, incoming]
  cases hchange : outcome.isChange <;> simp [hchange]

theorem EndsAs.mono {told told' : List (Version × Outcome)} (h : EndsAs high told v w)
    (hsub : told ⊆ told') : EndsAs high told' v w := by
  cases h with
  | kept => exact .kept
  | closed hopen hname hprecedes htold => exact .closed hopen hname hprecedes (hsub htold)

-- An entry is closed before the high date, so what is open has not been closed.
theorem EndsAs.eq_of_isOpen {told : List (Version × Outcome)} (h : EndsAs high told v w)
    (htold : ∀ t ∈ told, t.1.start < high) (hopen : w.isOpen high) : v = w := by
  cases h with
  | kept => rfl
  | @closed new _ _ _ hmem =>
      have hstop : new.start.secondBefore = high := of_decide_eq_true hopen
      have hlt : new.start.secondBefore < high :=
        Instant.lt_of_le_of_lt (Instant.le_of_lt new.start.secondBefore_lt) (htold _ hmem)
      exact absurd hstop (Instant.ne_of_lt hlt)

/-! ### The places that changed -/

-- Just the places are noted where the collection is not what was there, each of them once.
structure Marked (existing : List Version) (r : Reconciliation) : Prop where
  grown : existing.length ≤ r.versions.length
  changed : ∀ place, place ∈ r.touched ↔ r.versions[place]? ≠ existing[place]?
  nodup : r.touched.Nodup

namespace Marked

theorem lt_length (h : Marked existing r) {place : Nat} (hplace : place ∈ r.touched) :
    place < r.versions.length := by
  by_contra hout
  have hgrown := h.grown
  refine (h.changed place).mp hplace ?_
  rw [List.getElem?_eq_none (by omega), List.getElem?_eq_none (by omega)]

theorem start (existing : List Version) : Marked existing (start existing) where
  grown := Nat.le_refl _
  changed := by simp [Reconciliation.start]
  nodup := List.nodup_nil

theorem insert (h : Marked existing r) (v : Version) : Marked existing (r.insert v) where
  grown := by simpa [Reconciliation.insert] using Nat.le_succ_of_le h.grown
  changed := by
    intro place
    have hgrown := h.grown
    have hold := h.changed place
    simp only [Reconciliation.insert, List.mem_append, List.mem_singleton]
    by_cases hlast : place = r.versions.length
    · subst hlast
      simp [List.getElem?_eq_none hgrown]
    · rw [hold, List.getElem?_append]
      simp only [hlast, or_false]
      by_cases hin : place < r.versions.length
      · rw [if_pos hin]
      · rw [if_neg hin, List.getElem?_eq_none (by omega), List.getElem?_eq_none (l := [v]) (by simp; omega)]
  nodup := by
    refine List.nodup_append.mpr ⟨h.nodup, List.nodup_singleton _, fun place hplace last hlast => ?_⟩
    rw [List.mem_singleton.mp hlast]
    exact Nat.ne_of_lt (h.lt_length hplace)

theorem close (h : Marked existing r) {place : Nat} {o : Version} {stop : Instant}
    (hplace : r.versions[place]? = some o) (hdiffers : existing[place]? ≠ some (o.closedAt stop)) :
    Marked existing (r.close place stop) where
  grown := by simpa [Reconciliation.close] using h.grown
  changed := by
    intro other
    have hmem : other ∈ (r.close place stop).touched ↔ other ∈ r.touched ∨ other = place := by
      simp only [Reconciliation.close, List.contains_iff_mem]
      split
      next hin =>
        refine ⟨.inl, fun hor => hor.elim id ?_⟩
        rintro rfl
        exact hin
      next => simp
    rw [hmem, h.changed other]
    simp only [Reconciliation.close, List.getElem?_modify]
    by_cases heq : other = place
    · subst heq
      simpa [hplace] using Ne.symm hdiffers
    · simp [heq, Ne.symm heq]
  nodup := by
    simp only [Reconciliation.close, List.contains_iff_mem]
    split
    next => exact h.nodup
    next hnew => exact List.nodup_append.mpr ⟨h.nodup, List.nodup_singleton _, by grind⟩

theorem report (h : Marked existing r) (name : String) (o : Outcome) : Marked existing (r.report name o) :=
  ⟨h.grown, h.changed, h.nodup⟩

end Marked

/-! ### All new versions -/

-- What is told, what becomes of the entries that are there and of those that come in, and what is noted.
structure Delta (high : Instant) (existing new : List Version) (r : Reconciliation) : Prop where
  named : r.outcomes.map (·.1) = new.map (·.name)
  versions : List.Forall₂ (EndsAs high (verdicts new r)) (existing ++ incoming new r) r.versions
  marked : Marked existing r
  noted : r.touched ≠ [] ↔ ∃ told ∈ r.outcomes, told.2 ≠ .unchanged

theorem forall₂_replace {α β : Type} {R S : α → β → Prop} {as : List α} {before after : List β} {b b' : β}
    (h : List.Forall₂ R as (before ++ b :: after)) (himp : ∀ a b, R a b → S a b) (hb : ∀ a, R a b → S a b') :
    List.Forall₂ S as (before ++ b' :: after) := by
  induction before generalizing as with
  | nil =>
      rcases h with _ | ⟨hhead, htail⟩
      exact .cons (hb _ hhead) (htail.imp himp)
  | cons c before ih =>
      rcases h with _ | ⟨hhead, htail⟩
      exact .cons (himp _ _ hhead) (ih htail)

namespace Delta

theorem start (high : Instant) (existing : List Version) : Delta high existing [] (start existing) where
  named := rfl
  versions := by
    rw [show incoming [] (Reconciliation.start existing) = [] from rfl, List.append_nil]
    exact List.forall₂_same.mpr fun _ _ => .kept
  marked := .start existing
  noted := by simp [Reconciliation.start]

theorem length_outcomes (h : Delta high existing new r) : r.outcomes.length = new.length := by
  simpa using congrArg List.length h.named

theorem endsAs (h : Delta high existing new r) {place : Nat} (hv : existing[place]? = some v)
    (hw : r.versions[place]? = some w) : EndsAs high (verdicts new r) v w := by
  obtain ⟨hplace, rfl⟩ := List.getElem?_eq_some_iff.mp hv
  obtain ⟨hplace', rfl⟩ := List.getElem?_eq_some_iff.mp hw
  have hends := h.versions.get (i := place) (by simp; omega) hplace'
  rwa [List.get_eq_getElem, List.getElem_append_left hplace] at hends

theorem add (h : Delta high existing new r₀) (hbefore : ∀ w ∈ new, w.start < high) (hv : v.Compiled high)
    (hadd : Added high v r₀ r) : Delta high existing (new ++ [v]) r := by
  have htold : ∀ t ∈ verdicts new r₀, t.1.start < high := fun t ht => hbefore _ (List.of_mem_zip ht).1
  have hconcat {r : Reconciliation} {o : Outcome} (ho : r.outcomes = r₀.outcomes ++ [(v.name, o)]) :
      verdicts (new ++ [v]) r = verdicts new r₀ ++ [(v, o)] := verdicts_concat h.length_outcomes ho
  cases hadd with
  | unchanged =>
      have hverdicts := hconcat (r := r₀.report v.name .unchanged) rfl
      have hnoted : (∃ told ∈ r₀.outcomes, told.2 ≠ .unchanged) ↔
          ∃ told ∈ r₀.outcomes ++ [(v.name, .unchanged)], told.2 ≠ .unchanged := by
        simp [or_and_right, exists_or]
      refine ⟨by simp [report, h.named], ?_, h.marked.report _ _, h.noted.trans hnoted⟩
      rw [incoming_concat hverdicts, hverdicts, if_neg (by decide), List.append_nil]
      exact h.versions.imp fun _ _ hends => hends.mono (List.subset_append_left _ _)
  | inserted =>
      have hverdicts := hconcat (r := (r₀.insert v).report v.name .inserted) rfl
      refine ⟨by simp [report, insert, h.named], ?_, (h.marked.insert v).report _ _,
        iff_of_true (by simp [report, insert]) ⟨_, List.mem_append_right _ (List.mem_singleton_self _), by simp⟩⟩
      rw [incoming_concat hverdicts, hverdicts, ← List.append_assoc]
      exact List.rel_append (h.versions.imp fun _ _ hends => hends.mono (List.subset_append_left _ _))
        (.cons .kept .nil)
  | @superseded before after o hversions _ hname hopen _ hprecedes =>
      have hverdicts := hconcat (r := ((r₀.close before.length v.start.secondBefore).insert v).report v.name
        (.superseded v.start.secondBefore)) rfl
      have hplace : r₀.versions[before.length]? = some o := by simp [hversions]
      -- What has been closed is not open, and so it is not what was there.
      have hdiffers : existing[before.length]? ≠ some (o.closedAt v.start.secondBefore) := by
        intro hsame
        have hclosed := Version.closedAt_not_isOpen hv o
        rw [(h.endsAs hsame hplace).eq_of_isOpen htold hopen, hopen] at hclosed
        cases hclosed
      refine ⟨by simp [report, insert, close, h.named], ?_, ((h.marked.close hplace hdiffers).insert v).report _ _,
        iff_of_true (by simp [report, insert]) ⟨_, List.mem_append_right _ (List.mem_singleton_self _), by simp⟩⟩
      rw [incoming_concat hverdicts, hverdicts, ← List.append_assoc, versions_supersede hversions]
      refine List.rel_append (forall₂_replace (hversions ▸ h.versions) ?_ fun a ha => ?_) (.cons .kept .nil)
      · exact fun _ _ hends => hends.mono (List.subset_append_left _ _)
      · obtain rfl := ha.eq_of_isOpen htold hopen
        exact .closed hopen hname.symm hprecedes (List.mem_append_right _ (List.mem_singleton_self _))

end Delta

theorem exists_of_reconcile_concat (hrun : reconcile high (new ++ [v]) existing = .ok r) :
    ∃ r₀, reconcile high new existing = .ok r₀ ∧ r₀.add high v = .ok r := by
  rw [reconcile, List.foldlM_append] at hrun
  obtain ⟨r₀, hearlier, hadd⟩ := exists_of_bind hrun
  refine ⟨r₀, hearlier, ?_⟩
  simpa using hadd

theorem delta_of_reconcile (hbefore : ∀ v ∈ new, v.start < high) (hrun : reconcile high new existing = .ok r) :
    Delta high existing new r := by
  induction new using List.reverseRecOn generalizing r with
  | nil =>
      cases hrun
      exact .start high existing
  | append_singleton earlier v ih =>
      simp only [List.forall_mem_append, List.forall_mem_singleton] at hbefore
      obtain ⟨r₀, hearlier, hadd⟩ := exists_of_reconcile_concat hrun
      have hv := compiled_of_add hbefore.2 hadd
      exact (ih hbefore.1 hearlier).add hbefore.1 hv (added_of_add hv hadd)

/-! ### The order of the changes -/

-- A new version notes the entry that it closes before its own.
theorem Added.exists_touched_eq_append (h : Added high v r₀ r) :
    ∃ more, r.touched = r₀.touched ++ more ∧ more.Pairwise (· < ·) := by
  cases h with
  | unchanged => exact ⟨[], (List.append_nil _).symm, .nil⟩
  | inserted => exact ⟨[r₀.versions.length], rfl, List.pairwise_singleton _ _⟩
  | @superseded before after o hversions =>
      have hlt : before.length < r₀.versions.length := by simp [hversions]
      simp only [report, insert, close, List.length_modify, List.contains_iff_mem]
      split
      next => exact ⟨[r₀.versions.length], rfl, List.pairwise_singleton _ _⟩
      next => exact ⟨[before.length, r₀.versions.length], by simp, by simpa using hlt⟩

theorem touched_subset_of_foldlM {vs : List Version} (hbefore : ∀ v ∈ vs, v.start < high)
    (hrun : vs.foldlM (add high) r₀ = .ok r) : r₀.touched ⊆ r.touched := by
  induction vs generalizing r₀ with
  | nil =>
      cases hrun
      exact List.Subset.refl _
  | cons v rest ih =>
      obtain ⟨hv, hrest⟩ := List.forall_mem_cons.mp hbefore
      rw [List.foldlM_cons] at hrun
      obtain ⟨next, hadd, hrun⟩ := exists_of_bind hrun
      obtain ⟨more, hmore, -⟩ := (added_of_add (compiled_of_add hv hadd) hadd).exists_touched_eq_append
      refine List.Subset.trans ?_ (ih hrest hrun)
      rw [hmore]
      exact List.subset_append_left _ _

section
variable {count place : Nat}

theorem changedBy_iff (hrun : reconcile high (new.take count) existing = .ok r) :
    ChangedBy high existing new count place ↔ r.versions[place]? ≠ existing[place]? := by
  constructor
  · rintro ⟨r', hrun', hchanged⟩
    rw [hrun] at hrun'
    cases hrun'
    exact hchanged
  · exact fun hchanged => ⟨r, hrun, hchanged⟩

-- A place that has changed is not changed back.
theorem mem_touched_of_changedBy (hbefore : ∀ v ∈ new, v.start < high)
    (hrun : reconcile high new existing = .ok r) (h : ChangedBy high existing new count place) :
    place ∈ r.touched := by
  obtain ⟨r₁, hfirst, hchanged⟩ := h
  rw [← List.take_append_drop count new, reconcile, List.foldlM_append] at hrun
  obtain ⟨r₂, hsame, hrest⟩ := exists_of_bind hrun
  obtain rfl : r₁ = r₂ := Except.ok.inj (hfirst.symm.trans hsame)
  have hdelta := delta_of_reconcile (fun v hv => hbefore v (List.mem_of_mem_take hv)) hfirst
  exact touched_subset_of_foldlM (fun v hv => hbefore v (List.mem_of_mem_drop hv)) hrest
    ((hdelta.marked.changed place).mpr hchanged)

theorem changedBy_concat_of_le (hcount : count ≤ new.length) :
    ChangedBy high existing (new ++ [v]) count place ↔ ChangedBy high existing new count place := by
  rw [ChangedBy, ChangedBy, List.take_append_of_le_length hcount]

theorem FirstChangedBy.of_concat (hbefore : ∀ w ∈ new, w.start < high)
    (hrun : reconcile high new existing = .ok r₀) (hplace : place ∈ r₀.touched)
    (h : FirstChangedBy high existing (new ++ [v]) count place) :
    count ≤ new.length ∧ FirstChangedBy high existing new count place := by
  have hall : ChangedBy high existing new new.length place :=
    (changedBy_iff (by rwa [List.take_length])).mpr
      (((delta_of_reconcile hbefore hrun).marked.changed place).mp hplace)
  have hcount : count ≤ new.length := by
    by_contra hmore
    exact h.2 new.length (by omega) ((changedBy_concat_of_le (Nat.le_refl _)).mpr hall)
  exact ⟨hcount, (changedBy_concat_of_le hcount).mp h.1,
    fun n hn hchanged => h.2 n hn ((changedBy_concat_of_le (by omega)).mpr hchanged)⟩

theorem FirstChangedBy.eq_of_concat (hbefore : ∀ w ∈ new ++ [v], w.start < high)
    (hearlier : reconcile high new existing = .ok r₀) (hrun : reconcile high (new ++ [v]) existing = .ok r)
    (hnew : place ∉ r₀.touched) (hplace : place ∈ r.touched)
    (h : FirstChangedBy high existing (new ++ [v]) count place) : count = new.length + 1 := by
  have hall : ChangedBy high existing (new ++ [v]) (new.length + 1) place :=
    (changedBy_iff (by rwa [List.take_of_length_le (by simp)])).mpr
      (((delta_of_reconcile hbefore hrun).marked.changed place).mp hplace)
  have hle : ¬new.length + 1 < count := fun hlt => h.2 _ hlt hall
  have hgt : ¬count ≤ new.length := fun hcount => hnew <|
    mem_touched_of_changedBy (fun w hw => hbefore w (List.mem_append_left _ hw)) hearlier
      ((changedBy_concat_of_le hcount).mp h.1)
  omega

end

-- The places are noted in the order in which they first change. Of those that one new version changes, the one
-- that it closes comes first.
theorem pairwise_touched (hbefore : ∀ v ∈ new, v.start < high) (hrun : reconcile high new existing = .ok r) :
    r.touched.Pairwise fun p q => ∀ m n, FirstChangedBy high existing new m p →
      FirstChangedBy high existing new n q → m < n ∨ m = n ∧ p < q := by
  induction new using List.reverseRecOn generalizing r with
  | nil =>
      cases hrun
      exact .nil
  | append_singleton earlier v ih =>
      obtain ⟨hall, hv⟩ := List.forall_mem_append.mp hbefore
      have hv := List.forall_mem_singleton.mp hv
      obtain ⟨r₀, hearlier, hadd⟩ := exists_of_reconcile_concat hrun
      have hnodup := (delta_of_reconcile hbefore hrun).marked.nodup
      obtain ⟨more, hmore, hsorted⟩ := (added_of_add (compiled_of_add hv hadd) hadd).exists_touched_eq_append
      rw [hmore, List.nodup_append] at hnodup
      have hlast {place count : Nat} (hplace : place ∈ more) :
          FirstChangedBy high existing (earlier ++ [v]) count place → count = earlier.length + 1 :=
        FirstChangedBy.eq_of_concat hbefore hearlier hrun (fun hold => hnodup.2.2 _ hold _ hplace rfl)
          (hmore ▸ List.mem_append_right _ hplace)
      rw [hmore, List.pairwise_append]
      refine ⟨(ih hall hearlier).imp_of_mem ?_, hsorted.imp_of_mem ?_, ?_⟩
      · intro p q hp hq h m n hm hn
        exact h m n (hm.of_concat hall hearlier hp).2 (hn.of_concat hall hearlier hq).2
      · intro p q hp hq hlt m n hm hn
        exact .inr ⟨(hlast hp hm).trans (hlast hq hn).symm, hlt⟩
      · intro p hp q hq m n hm hn
        have hle := (hm.of_concat hall hearlier hp).1
        have heq := hlast hq hn
        omega

-- A reconciliation and its writes say just what changes. Entries stay in their places, and those that come in
-- follow them. An entry differs only if it was open and a version of its name that supersedes has closed it. The
-- writes are the entries that differ or came in, as they are in the end, each once, from the first to change on.
theorem reconcile_exact_delta (hbefore : ∀ v ∈ new, v.start < high)
    (hrun : reconcile high new existing = .ok r) :
    r.outcomes.map (·.1) = new.map (·.name) ∧
      List.Forall₂ (EndsAs high (verdicts new r)) (existing ++ incoming new r) r.versions ∧
      (∃ places : List Nat, places.Nodup ∧
        (∀ place, place ∈ places ↔ r.versions[place]? ≠ existing[place]?) ∧
        List.Forall₂ (fun place v => r.versions[place]? = some v) places r.writes ∧
        places.Pairwise fun p q => ∀ m n, FirstChangedBy high existing new m p →
          FirstChangedBy high existing new n q → m < n ∨ m = n ∧ p < q) ∧
      (r.changed ↔ r.writes ≠ []) ∧ (r.changed ↔ ∃ told ∈ r.outcomes, told.2 ≠ .unchanged) := by
  have hdelta := delta_of_reconcile hbefore hrun
  have hwrites : List.Forall₂ (fun place v => r.versions[place]? = some v) r.touched r.writes :=
    forall₂_filterMap_getElem? fun place hplace => hdelta.marked.lt_length hplace
  have hchanged : r.changed ↔ r.touched ≠ [] := by simp [changed]
  refine ⟨hdelta.named, hdelta.versions, ⟨r.touched, hdelta.marked.nodup, hdelta.marked.changed, hwrites,
    pairwise_touched hbefore hrun⟩, ?_, ?_⟩
  · rw [hchanged, ne_eq, ne_eq, ← List.length_eq_zero_iff, hwrites.length_eq, List.length_eq_zero_iff]
  · rw [hchanged, hdelta.noted]

-- Two versions of a name are open, and a version that comes in is superseded at once.
theorem reconcile_exact_delta_two_open :
    let version (name : String) (second : Int) (body : Tree) : Version := .ofBody name ⟨second, 0⟩ ⟨9, 0⟩ body
    let existing := [version "axis" 1 .null, version "axis" 2 (.bool true)]
    let new := [version "axis" 4 (.int 1), version "row" 4 .null, version "row" 6 (.bool true),
      version "axis" 6 (.int 2)]
    ∃ r, reconcile ⟨9, 0⟩ new existing = .ok r ∧ r.changed ∧
      List.Forall₂ (EndsAs ⟨9, 0⟩ (verdicts new r)) (existing ++ new) r.versions ∧
      r.writes = [(version "axis" 1 .null).closedAt ⟨3, 0⟩, version "axis" 4 (.int 1),
        (version "row" 4 .null).closedAt ⟨5, 0⟩, version "row" 6 (.bool true),
        (version "axis" 2 (.bool true)).closedAt ⟨5, 0⟩, version "axis" 6 (.int 2)] := by
  intro version existing new
  obtain ⟨r, hrun⟩ : ∃ r, reconcile ⟨9, 0⟩ new existing = .ok r := ⟨_, rfl⟩
  obtain ⟨-, hversions, -, -, hchanged⟩ := reconcile_exact_delta (by decide) hrun
  rw [show incoming new r = new by cases hrun; rfl] at hversions
  refine ⟨r, hrun, hchanged.mpr ?_, hversions, ?_⟩
  all_goals cases hrun
  · exact ⟨("row", .inserted), by decide, by decide⟩
  · rfl

end Reconciliation
end ScraperTimeline
