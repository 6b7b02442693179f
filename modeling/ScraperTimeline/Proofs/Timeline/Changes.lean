import ScraperTimeline.Proofs.Timeline.Plan
import ScraperTimeline.Proofs.Tree.Equality
import Mathlib.Data.List.Induction

namespace ScraperTimeline

theorem Version.sameDefinition_refl {v : Version} (hkeyed : v.body.keyed) (hnan : v.body.nanFree) :
    v.sameDefinition v :=
  Tree.equal_refl hkeyed hnan

-- Versions that say the same agree with the same others.
theorem Version.sameDefinition_congr {v w : Version} (hv : v.body.keyed) (hw : w.body.keyed)
    (h : v.sameDefinition w) (new : Version) : v.sameDefinition new = w.sameDefinition new := by
  rw [Bool.eq_iff_iff]
  constructor
  · exact Tree.equal_trans (Tree.equal_symm hv hw h)
  · exact Tree.equal_trans h

namespace History

-- The versions that say something else than the one right before them.
def changesAfter (previous : Version) : List Version → List Version
  | [] => []
  | v :: rest => if previous.sameDefinition v then changesAfter v rest else v :: changesAfter v rest

-- Of each run of versions that say the same, the first.
def changes : List Version → List Version
  | [] => []
  | v :: rest => v :: changesAfter v rest

-- Whether a version says the same as the last one.
def repeats (vs : List Version) (new : Version) : Bool := vs.getLast?.any (·.sameDefinition new)

variable {high : Instant} {name : String} {vs : List Version} {new : Version}

theorem changesAfter_sublist (previous : Version) (vs : List Version) :
    (changesAfter previous vs).Sublist vs := by
  induction vs generalizing previous with
  | nil => exact .slnil
  | cons v rest ih =>
      simp only [changesAfter]
      split
      · exact (ih v).cons v
      · exact (ih v).cons_cons v

theorem changes_sublist (vs : List Version) : (changes vs).Sublist vs := by
  cases vs with
  | nil => exact .slnil
  | cons v rest => exact (changesAfter_sublist v rest).cons_cons v

theorem changesAfter_concat (previous : Version) (vs : List Version) (new : Version) :
    changesAfter previous (vs ++ [new]) =
      if repeats (previous :: vs) new then changesAfter previous vs
      else changesAfter previous vs ++ [new] := by
  induction vs generalizing previous with
  | nil => rfl
  | cons v rest ih =>
      have hlast : repeats (previous :: v :: rest) new = repeats (v :: rest) new := by
        simp [repeats]
      simp only [List.cons_append, changesAfter, ih v, hlast]
      by_cases hsame : previous.sameDefinition v <;> by_cases hnew : repeats (v :: rest) new <;>
        simp [hsame, hnew]

theorem changes_concat (vs : List Version) (new : Version) :
    changes (vs ++ [new]) = if repeats vs new then changes vs else changes vs ++ [new] := by
  cases vs with
  | nil => rfl
  | cons v rest =>
      simp only [List.cons_append, changes, changesAfter_concat]
      by_cases hnew : repeats (v :: rest) new <;> simp [hnew]

theorem repeats_concat (vs : List Version) (v new : Version) :
    repeats (vs ++ [v]) new = v.sameDefinition new := by
  simp [repeats]

theorem exists_of_repeats (h : repeats vs new) : ∃ v ∈ vs, v.sameDefinition new ∧ vs.getLast? = some v := by
  rw [repeats, Option.any_eq_true] at h
  obtain ⟨v, hlast, hsame⟩ := h
  exact ⟨v, List.mem_of_getLast? hlast, hsame, hlast⟩

-- The last change says what the last version says.
theorem repeats_changes (hkeyed : ∀ v ∈ vs, v.body.keyed) (new : Version) :
    repeats (changes vs) new = repeats vs new := by
  induction vs using List.reverseRecOn generalizing new with
  | nil => rfl
  | append_singleton vs v ih =>
      have hvs : ∀ u ∈ vs, u.body.keyed := fun u hu => hkeyed u (by simp [hu])
      rw [changes_concat, repeats_concat]
      by_cases hsame : repeats vs v
      · rw [if_pos hsame]
        rw [← ih hvs v] at hsame
        obtain ⟨o, ho, hequal, hlast⟩ := exists_of_repeats hsame
        have hbody := hvs o ((changes_sublist vs).subset ho)
        rw [repeats, hlast, Option.any_some]
        exact Version.sameDefinition_congr hbody (hkeyed v (by simp)) hequal new
      · rw [if_neg hsame, repeats_concat]

end History

namespace Sync

open History

variable {high : Instant} {name : String} {vs : List Version} {new : Version}

-- A version that follows all others is planned without a failure.
theorem exists_plan (hvs : Succession high new.name (vs ++ [new])) :
    ∃ outcome writes, plan high new vs.getLast? = .ok (outcome, writes) ∧
      (writes = [] ↔ repeats vs new) := by
  have hnew : new.Compiled high := hvs.compiled new (by simp)
  cases hlast : vs.getLast? with
  | none => exact ⟨.inserted, [new], plan_none hnew, by simp [repeats, hlast]⟩
  | some current =>
      have hm := List.mem_of_getLast? hlast
      have hprec : current.Precedes new := (List.pairwise_append.mp hvs.ordered).2.2 current hm new (by simp)
      rw [plan_some hnew (hvs.compiled current (by simp [hm])).isOpen (hvs.named current (by simp [hm]))]
      by_cases hsame : current.sameDefinition new
      · exact ⟨.unchanged, [], if_pos hsame, by simp [repeats, hlast, hsame]⟩
      · rw [if_neg hsame, if_neg (Instant.not_lt.mpr hprec)]
        exact ⟨_, _, rfl, by simp [repeats, hlast, hsame]⟩

end Sync
end ScraperTimeline
