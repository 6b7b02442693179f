import ScraperTimeline.Proofs.Timeline.History
import Mathlib.Data.List.Induction

/-!
A history as a map from starts to versions. Whatever is put in, and in whatever order, its versions stand in the
order of their starts, no two of them start together, and of each start there is the version that came last.
-/
namespace ScraperTimeline.History

variable {h : History} {v w : Version}

/-! ### One version -/

theorem starts_replace (v : Version) (h : History) :
    (replace v h).map Version.start =
      if v.start ∈ h.map Version.start then h.map Version.start else h.map Version.start ++ [v.start] := by
  induction h with
  | nil => rfl
  | cons w rest ih =>
      rw [replace]
      by_cases hw : w.start = v.start
      · simp [hw]
      · have hne : v.start ≠ w.start := Ne.symm hw
        by_cases hmem : v.start ∈ rest.map Version.start
        · rw [if_neg hw, List.map_cons, ih, if_pos hmem, List.map_cons, if_pos (List.mem_cons_of_mem _ hmem)]
        · have hnot : v.start ∉ (w :: rest).map Version.start := by
            rw [List.map_cons, List.mem_cons, not_or]
            exact ⟨hne, hmem⟩
          rw [if_neg hw, List.map_cons, ih, if_neg hmem, if_neg hnot]
          rfl

theorem nodup_starts_replace (v : Version) (hs : (h.map Version.start).Nodup) :
    ((replace v h).map Version.start).Nodup := by
  rw [starts_replace]
  split
  next => exact hs
  next hnew => exact List.concat_eq_append ▸ (List.nodup_concat ..).mpr ⟨hnew, hs⟩

-- Of versions that start apart, replacing takes out the one that starts with the new one.
theorem mem_replace_iff (hs : (h.map Version.start).Nodup) :
    w ∈ replace v h ↔ w = v ∨ w ∈ h ∧ w.start ≠ v.start := by
  induction h with
  | nil => simp [replace]
  | cons u rest ih =>
      obtain ⟨hnew, hrest⟩ := List.nodup_cons.mp hs
      rw [replace]
      by_cases hu : u.start = v.start
      · have hfirst : w = u → w.start = v.start := fun heq => heq ▸ hu
        have hlater : w ∈ rest → w.start ≠ v.start := fun hw heq =>
          hnew (List.mem_map.mpr ⟨w, hw, heq.trans hu.symm⟩)
        rw [if_pos hu, List.mem_cons, List.mem_cons]
        tauto
      · have hfirst : w = u → w.start ≠ v.start := fun heq => heq ▸ hu
        rw [if_neg hu, List.mem_cons, List.mem_cons, ih hrest]
        tauto

theorem nodup_starts (hs : h.Pairwise fun v w => v.start < w.start) : (h.map Version.start).Nodup :=
  List.pairwise_map.mpr (hs.imp Instant.ne_of_lt)

-- Sorting puts versions that start apart into one order only.
theorem ascending_sortByStart (hs : (h.map Version.start).Nodup) :
    (sortByStart h).Pairwise fun v w => v.start < w.start := by
  have hnodup : ((sortByStart h).map Version.start).Nodup :=
    ((List.mergeSort_perm h _).map Version.start).nodup_iff.mpr hs
  refine ((pairwise_sortByStart h).and (List.pairwise_map.mp hnodup)).imp fun {v w} ⟨hle, hne⟩ => ?_
  by_contra hnot
  exact hne (Instant.le_antisymm hle (Instant.not_lt.mp hnot))

theorem ascending_put (v : Version) (hs : h.Pairwise fun v w => v.start < w.start) :
    (h.put v).Pairwise fun v w => v.start < w.start :=
  ascending_sortByStart (nodup_starts_replace v (nodup_starts hs))

theorem mem_put_iff (hs : h.Pairwise fun v w => v.start < w.start) :
    w ∈ h.put v ↔ w = v ∨ w ∈ h ∧ w.start ≠ v.start :=
  (List.mergeSort_perm ..).mem_iff.trans (mem_replace_iff (nodup_starts hs))

/-! ### Any number of versions -/

theorem ascending_foldl_put (hs : h.Pairwise fun v w => v.start < w.start) (vs : List Version) :
    (vs.foldl (fun h v => h.put v) h).Pairwise fun v w => v.start < w.start := by
  induction vs generalizing h with
  | nil => exact hs
  | cons v vs ih => exact ih (ascending_put v hs)

-- The last of some versions that starts at an instant.
def lastFrom (t : Instant) (vs : List Version) : Option Version := (vs.filter (·.start = t)).getLast?

theorem lastFrom_concat (t : Instant) (vs : List Version) (v : Version) :
    lastFrom t (vs ++ [v]) = if v.start = t then some v else lastFrom t vs := by
  rw [lastFrom, List.filter_append]
  split
  next hv => simp [hv]
  next hv => simp [hv, lastFrom]

-- The induction takes the versions from the end, as the last one that was put in is there for sure.
theorem mem_foldl_put_iff (vs : List Version) :
    w ∈ (vs.foldl (fun h v => h.put v) [] : History) ↔ lastFrom w.start vs = some w := by
  induction vs using List.reverseRecOn with
  | nil => simp [lastFrom]
  | append_singleton vs v ih =>
      rw [List.foldl_concat, mem_put_iff (ascending_foldl_put .nil vs), ih, lastFrom_concat]
      split
      next hv => simp [hv, eq_comm]
      next hv =>
        have hne : w ≠ v := fun heq => hv (heq ▸ rfl)
        simp [hne, Ne.symm hv]

-- A history that was put together from nothing is sorted by start, and of each instant it holds the version
-- that was put in last of those which start then, and no other.
theorem puts_keep_last_of_each_start (vs : List Version) :
    let h : History := vs.foldl (fun h v => h.put v) []
    (h.Pairwise fun v w => v.start < w.start) ∧ ∀ t, h.filter (·.start = t) = (lastFrom t vs).toList := by
  intro h
  have hascending : h.Pairwise fun v w => v.start < w.start := ascending_foldl_put .nil vs
  refine ⟨hascending, fun t => ?_⟩
  cases hlast : lastFrom t vs with
  | none =>
      refine List.filter_eq_nil_iff.mpr fun w hw hstart => ?_
      rw [decide_eq_true_eq] at hstart
      rw [mem_foldl_put_iff, hstart, hlast] at hw
      cases hw
  | some v =>
      have hstart : v.start = t := by
        have hmem := List.mem_of_getLast? hlast
        simpa using (List.mem_filter.mp hmem).2
      subst hstart
      exact filter_start_of_mem hascending (mem_foldl_put_iff vs |>.mpr hlast)

end ScraperTimeline.History
