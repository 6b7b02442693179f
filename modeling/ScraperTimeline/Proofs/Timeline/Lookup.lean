import ScraperTimeline.Proofs.Timeline.Rewritten
import ScraperTimeline.Proofs.Timeline.SharedFiles

/-!
The version that is valid at an instant. A history without gaps and overlaps has none before its first
version, and later on, up to the high date, just the one that started last.
-/
namespace ScraperTimeline

namespace History

variable {high t : Instant} {name : String} {vs : List Version} {h before : History}

-- What is found of a history at an instant.
structure Finds (high : Instant) (h : History) (t : Instant) (found : Option Version) : Prop where
  early : (∀ v ∈ h.head?, t < v.start) → (∀ v ∈ h, ¬v.covers t) ∧ found = none
  within : (∃ v ∈ h.head?, v.start ≤ t) → t.wholeSecond ≤ high →
    ∃ w, h.filter (·.covers t) = [w] ∧ found = some w ∧ w.start ≤ t ∧
      ∀ v ∈ h, v.start ≤ t → v.start ≤ w.start

theorem not_covers_of_lt {v : Version} (hlt : t < v.start) : ¬v.covers t := by
  intro hcovers
  have hstart : v.start ≤ t := by simpa using (Bool.and_eq_true_iff.mp hcovers).1
  exact Instant.not_lt.mpr hstart hlt

theorem start_le_of_mem_chain (hvs : vs.Pairwise Version.Precedes) {first w : Version}
    (hfirst : vs.head? = some first) (hw : w ∈ chain high vs) : first.start ≤ w.start := by
  obtain ⟨v, hv, he⟩ := exists_of_mem_chain hw
  obtain ⟨rest, rfl⟩ := List.head?_eq_some_iff.mp hfirst
  rw [he]
  rcases List.mem_cons.mp hv with rfl | hv
  · exact Instant.le_refl _
  · exact Instant.le_of_lt ((List.pairwise_cons.mp hvs).1 v hv).lt

theorem not_covers_of_mem_chain (hvs : vs.Pairwise Version.Precedes)
    (hearly : ∀ first ∈ vs.head?, t < first.start) : ∀ w ∈ chain high vs, ¬w.covers t := by
  intro w hw
  cases vs with
  | nil => cases hw
  | cons first rest =>
      exact not_covers_of_lt (Instant.lt_of_lt_of_le (hearly first rfl) (start_le_of_mem_chain hvs rfl hw))

theorem filter_covers_eq_nil (hvs : vs.Pairwise Version.Precedes)
    (hearly : ∀ first ∈ vs.head?, t < first.start) : (chain high vs).filter (·.covers t) = [] :=
  List.filter_eq_nil_iff.mpr (not_covers_of_mem_chain hvs hearly)

-- The last second of a version reaches up to the next one, and that one takes over with its start.
theorem covers_closedAt_secondBefore {v next : Version} (hstart : v.start ≤ t) (ht : t.Ordinary)
    (hwhole : next.start.isWhole) : (v.closedAt next.start.secondBefore).covers t ↔ t < next.start :=
  (Version.covers_closedAt_iff hwhole hstart).trans (and_iff_left fun hleap => hleap.1 ht)

theorem exists_filter_covers (hvs : Succession high name vs) (ht : t.Ordinary) {first : Version}
    (hfirst : vs.head? = some first) (hstart : first.start ≤ t) (hhigh : t.wholeSecond ≤ high) :
    ∃ w, (chain high vs).filter (·.covers t) = [w] ∧ w.start ≤ t ∧
      ∀ v ∈ chain high vs, v.start ≤ t → v.start ≤ w.start := by
  induction vs generalizing first with
  | nil => cases hfirst
  | cons v vs ih =>
      obtain rfl : v = first := Option.some.inj hfirst
      cases vs with
      | nil =>
          have hcovers : (v.closedAt high).covers t := by simp [Version.covers, hstart, hhigh]
          refine ⟨v.closedAt high, by simp [chain, hcovers], hstart, fun w hw _ => ?_⟩
          rw [List.mem_singleton.mp hw]
          exact Instant.le_refl _
      | cons next rest =>
          have hnext := hvs.tail
          have hprecedes : v.Precedes next := (List.pairwise_cons.mp hvs.ordered).1 next (by simp)
          have hcovers := covers_closedAt_secondBefore hstart ht (hnext.compiled next (by simp)).whole
          by_cases hearly : t < next.start
          -- The first version is valid still, and none of those after it is valid yet.
          · have hnone : ∀ u ∈ (next :: rest).head?, t < u.start := by simpa using hearly
            refine ⟨v.closedAt next.start.secondBefore, ?_, hstart, fun w hw hle => ?_⟩
            · rw [chain, List.filter_cons, if_pos (hcovers.mpr hearly),
                filter_covers_eq_nil hnext.ordered hnone]
            · rcases List.mem_cons.mp hw with rfl | hw
              · exact Instant.le_refl _
              · have hlt := Instant.lt_of_lt_of_le hearly (start_le_of_mem_chain hnext.ordered rfl hw)
                exact absurd hle fun hle => Instant.not_lt.mpr hle hlt
          · obtain ⟨w, hfilter, hle, hlast⟩ := ih hnext rfl (Instant.not_lt.mp hearly)
            refine ⟨w, ?_, hle, fun u hu hule => ?_⟩
            · rw [chain, List.filter_cons, if_neg fun h => hearly (hcovers.mp h), hfilter]
            · rcases List.mem_cons.mp hu with rfl | hu
              · obtain ⟨stop, hstop⟩ := exists_mem_chain high (List.mem_cons_self (a := next) (l := rest))
                exact Instant.le_trans (Instant.le_of_lt hprecedes.lt)
                  (hlast (next.closedAt stop) hstop (Instant.not_lt.mp hearly))
              · exact hlast u hu hule

theorem finds_chain (hvs : Succession high name vs) (ht : t.Ordinary) :
    (chain high vs).Finds high t ((chain high vs).activeAt? t) := by
  have hactive : (chain high vs).activeAt? t = ((chain high vs).filter (·.covers t)).head? :=
    List.head?_filter.symm
  cases vs with
  | nil => exact ⟨fun _ => ⟨by simp [chain], rfl⟩, by simp [chain]⟩
  | cons first rest =>
      obtain ⟨stop, hhead⟩ : ∃ stop, (chain high (first :: rest)).head? = some (first.closedAt stop) := by
        cases rest with
        | nil => exact ⟨_, rfl⟩
        | cons => exact ⟨_, rfl⟩
      constructor
      · intro hearly
        have hstart : t < first.start := hearly (first.closedAt stop) hhead
        have hnone : ∀ v ∈ (first :: rest).head?, t < v.start := by simpa using hstart
        rw [hactive, filter_covers_eq_nil hvs.ordered hnone]
        exact ⟨not_covers_of_mem_chain hvs.ordered hnone, rfl⟩
      · rintro ⟨v, hv, hstart⟩ hhigh
        obtain rfl : first.closedAt stop = v := Option.some.inj (hhead.symm.trans hv)
        obtain ⟨w, hfilter, hle, hlast⟩ := exists_filter_covers hvs ht rfl hstart hhigh
        exact ⟨w, hfilter, by rw [hactive, hfilter]; rfl, hle, hlast⟩

-- The bodies have no part in it.
theorem Chained.finds (hchained : Chained high name h) (ht : t.Ordinary) :
    h.Finds high t (h.activeAt? t) := by
  obtain ⟨vs, hvs, hchain⟩ := hchained
  have hactive : h.activeAt? t = (h.filter (·.covers t)).head? := List.head?_filter.symm
  have hbare : (chain high vs).filter (·.covers t) = (h.filter (·.covers t)).map Version.bare := by
    rw [← hchain, List.filter_map]
    rfl
  obtain ⟨hearly, hwithin⟩ := finds_chain hvs ht
  rw [← hchain] at hearly hwithin hbare
  rw [List.head?_map] at hearly hwithin
  constructor
  · intro hfirst
    obtain ⟨hnone, -⟩ := hearly fun v hv => by
      obtain ⟨u, hu, rfl⟩ := Option.map_eq_some_iff.mp hv
      exact hfirst u hu
    have hcovers : ∀ v ∈ h, ¬v.covers t := fun v hv =>
      hnone v.bare (List.mem_map_of_mem hv)
    exact ⟨hcovers, by rw [hactive, List.filter_eq_nil_iff.mpr hcovers]; rfl⟩
  · rintro ⟨v, hv, hstart⟩ hhigh
    obtain ⟨w, hfilter, -, hle, hlast⟩ := hwithin ⟨v.bare, by simp [Option.mem_def.mp hv], hstart⟩ hhigh
    rw [hbare] at hfilter
    obtain ⟨w, hw, rfl⟩ := List.map_eq_singleton_iff.mp hfilter
    exact ⟨w, hw, by rw [hactive, hw]; rfl, hle, fun u hu hule =>
      hlast u.bare (List.mem_map_of_mem hu) hule⟩

theorem Chained.sortByStart_eq (hchained : Chained high name h) : sortByStart h = h := by
  obtain ⟨vs, hvs, hchain⟩ := hchained
  have hascending := chain_ascending high hvs.ordered
  rw [← hchain, List.pairwise_map] at hascending
  exact sortByStart_of_ascending hascending

end History

/-! ### Lookups in stores -/

-- What a store answers for a name that it has: its history, and of each ordinary instant what is found.
def Store.Answers {σ : Type} [Store σ] (high : Instant) (store : σ) (name : String) : Prop :=
  ∃ h, h ≠ [] ∧ (Store.findAll name : Storing σ History).run.run store = (.ok h, store) ∧
    ∀ t : Instant, t.Ordinary → ∃ found,
      (Store.findActive name t : Storing σ (Option Version)).run.run store = (.ok found, store) ∧
        History.Finds high h t found

theorem Store.answers_of_findAll {σ : Type} [Store σ] {high : Instant} {store : σ} {name : String}
    {h : History} (hchained : h.Chained high name) (hne : h ≠ [])
    (hfind : (Store.findAll name : Storing σ History).run.run store = (.ok h, store)) :
    Store.Answers high store name :=
  ⟨h, hne, hfind, fun t ht => ⟨h.activeAt? t, run_bind_of_ok hfind, hchained.finds ht⟩⟩

namespace Sync

open Sharing

variable {ι κ : Type} {high : Instant} {retries backoff : ι → Nat}
  {retries' backoff' : κ → Nat} {f : FileStore} {s : Sharing ι MemoryStore} {u : Sharing κ FileStore}
  {past : List (Decision ι)} {past' : List (Decision κ)} {name : String}

theorem Sound.answers (hs : Sound high s past) (hname : acknowledged name past ≠ []) :
    Store.Answers high s.store name := by
  have hchained : (s.store.history name).Chained high name := by
    rw [hs.history]
    exact History.chained_chain (hs.succession name)
  refine Store.answers_of_findAll hchained ?_ rfl
  obtain ⟨v, vs, hvs⟩ := List.exists_cons_of_ne_nil hname
  rw [hs.history, hvs]
  exact History.chain_cons_ne_nil high v vs

theorem Filed.answers (hu : Filed high u past') (hname : acknowledged name past' ≠ []) :
    Store.Answers high u.store name := by
  obtain ⟨h, hrecords, hnil⟩ := hu.history name
  obtain ⟨h', hread, hchained, -, hne⟩ := hrecords.readHistory fun heq => hname (hnil.mp heq)
  refine Store.answers_of_findAll hchained hne ?_
  change (FileStore.history name >>= fun h => pure (History.sortByStart h)).run.run u.store = _
  rw [run_bind_of_ok (FileStore.run_history (hu.storable name hname) hread), hchained.sortByStart_eq]
  rfl

end Sync
end ScraperTimeline
