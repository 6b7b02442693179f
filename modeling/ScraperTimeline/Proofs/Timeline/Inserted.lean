import ScraperTimeline.Proofs.Timeline.Collected
import ScraperTimeline.Proofs.Timeline.Rewritten

/-!
What a run compiles, reconciled with nothing. All of it is inserted, unless the run is in a leap second: the
run is cut down to the start of that second, and what starts there counts as starting inside a second.
-/
namespace ScraperTimeline

namespace Instant

theorem isWhole_wholeSecond_iff {a : Instant} : a.wholeSecond.isWhole ↔ a.Ordinary := by
  have hpos : 0 < nanosPerSecond := by decide
  constructor
  · intro h
    have hnano : a.nano - a.nano % nanosPerSecond = 0 := of_decide_eq_true h
    have hlt := Nat.mod_lt a.nano hpos
    rw [Ordinary]
    omega
  · exact fun h => h.isWhole

end Instant

namespace Reconciliation

variable {high : Instant} {new : Version} {vs : List Version} {r : Reconciliation}

-- What is told of a version that does not start with a second.
def insideSecond (new : Version) : Fault :=
  .invalidValidity new.name ("new version starts at " ++ new.start.messageText ++ ", inside a second")

theorem add_of_not_isWhole (hopen : new.isOpen high) (h : ¬new.start.isWhole) :
    r.add high new = .error (insideSecond new) := by
  simp [add, checkNew, hopen, h, bind, Except.bind, insideSecond]

-- Versions of names that are not there yet come in one after the other.
theorem foldlM_add_of_new (hnew : ∀ v ∈ vs, v.Compiled high)
    (hdistinct : vs.Pairwise fun v w => v.name ≠ w.name)
    (hothers : ∀ v ∈ vs, ∀ w ∈ r.versions, w.name ≠ v.name) :
    vs.foldlM (add high) r = .ok ⟨r.versions ++ vs, r.outcomes ++ vs.map fun v => (v.name, .inserted),
      r.touched ++ List.range' r.versions.length vs.length⟩ := by
  induction vs generalizing r with
  | nil => simp [pure, Except.pure]
  | cons v rest ih =>
      obtain ⟨hv, hrest⟩ := List.forall_mem_cons.mp hnew
      obtain ⟨hne, hdistinct⟩ := List.pairwise_cons.mp hdistinct
      obtain ⟨hnone, hothers⟩ := List.forall_mem_cons.mp hothers
      rw [List.foldlM_cons, add_of_none hv fun w hw hboth => hnone w hw hboth.1]
      change rest.foldlM (add high) ((r.insert v).report v.name .inserted) = _
      rw [ih hrest hdistinct]
      · simp [insert, report, List.range'_succ]
      · intro w hw u hu
        rcases List.mem_append.mp hu with hu | hu
        · exact hothers w hw u hu
        · rw [List.mem_singleton.mp hu]
          exact hne w hw

end Reconciliation

namespace Timeline
open Reconciliation

variable {high run : Instant} {t : Tree} {vs : List Version}

theorem compiled_versionsAt (hlt : run.wholeSecond < high) (hrun : run.Ordinary) (defs : List (String × Tree)) :
    ∀ v ∈ versionsAt high run.wholeSecond defs, v.Compiled high := by
  rw [versionsAt, List.forall_mem_map]
  exact fun _ _ => ⟨rfl, hrun.isWhole, hlt⟩

theorem distinct_versionsAt {start : Instant} {defs : List (String × Tree)} (h : (Fields.keys defs).Nodup) :
    (versionsAt high start defs).Pairwise fun v w => v.name ≠ w.name := by
  rw [versionsAt, List.pairwise_map]
  exact List.pairwise_map.mp h

-- What a run compiles is inserted as a whole just if the run is not in a leap second, or has nothing to
-- compile. In a leap second the first version is refused.
theorem reconcile_compiled_iff (hkeyed : t.keyed) (hcompile : compile high run t = .ok vs) :
    (reconcile high vs [] = .ok ⟨vs, vs.map fun v => (v.name, .inserted), List.range vs.length⟩ ↔
      run.Ordinary ∨ vs = []) ∧
    (¬run.Ordinary → ∀ v, vs.head? = some v → reconcile high vs [] = .error (insideSecond v)) := by
  obtain ⟨hlt, rfl⟩ := compile_eq_ok_iff.mp hcompile
  have hleap (hrun : ¬run.Ordinary) (v : Version)
      (hfirst : (versionsAt high run.wholeSecond (definitions t)).head? = some v) :
      reconcile high (versionsAt high run.wholeSecond (definitions t)) [] = .error (insideSecond v) := by
    obtain ⟨rest, hvs⟩ := List.head?_eq_some_iff.mp hfirst
    have hmem : v ∈ versionsAt high run.wholeSecond (definitions t) := by simp [hvs]
    obtain ⟨field, -, rfl⟩ := List.mem_map.mp hmem
    rw [hvs, reconcile, List.foldlM_cons,
      add_of_not_isWhole (by simp [Version.isOpen, Version.ofBody]) (mt Instant.isWhole_wholeSecond_iff.mp hrun)]
    rfl
  refine ⟨⟨fun hok => ?_, ?_⟩, hleap⟩
  · by_contra hnot
    obtain ⟨hrun, hne⟩ := not_or.mp hnot
    obtain ⟨v, rest, hvs⟩ := List.exists_cons_of_ne_nil hne
    rw [hleap hrun v (by simp [hvs])] at hok
    cases hok
  · rintro (hrun | hnil)
    · rw [reconcile, foldlM_add_of_new (compiled_versionsAt hlt hrun _)
        (distinct_versionsAt (keyed_definitions hkeyed).1) (by simp [start])]
      simp [start, List.range_eq_range']
    · rw [hnil]
      rfl

-- A run inside an ordinary second.
theorem reconcile_compiled_iff_fraction :
    let t : Tree := .map [("dataDefs", .map [("zeta", .map []), ("alpha", .null)])]
    ∃ vs r, compile ⟨9, 0⟩ ⟨4, 750000000⟩ t = .ok vs ∧ vs.map (·.start) = [⟨4, 0⟩, ⟨4, 0⟩] ∧
      reconcile ⟨9, 0⟩ vs [] = .ok r ∧ r.outcomes = [("zeta", .inserted), ("alpha", .inserted)] := by
  intro t
  obtain ⟨vs, hcompile⟩ : ∃ vs, compile ⟨9, 0⟩ ⟨4, 750000000⟩ t = .ok vs := ⟨_, rfl⟩
  obtain ⟨hinserted, -⟩ := reconcile_compiled_iff (show t.keyed by decide) hcompile
  refine ⟨vs, _, hcompile, ?_, hinserted.mpr (.inl (by decide)), ?_⟩
  all_goals
    cases hcompile
    rfl

-- The second 23:59:60 of the last day of 2016, cut down to its start, still counts as inside a second.
theorem reconcile_refuses_leap_second :
    let high : Instant := ⟨2145916799, 0⟩
    let t : Tree := .map [("dataDefs", .map [("price", .map [])])]
    ∃ v, Instant.read? "2016-12-31T23:59:60.5Z" = some ⟨1483228799, 1500000000⟩ ∧
      compile high ⟨1483228799, 1500000000⟩ t = .ok [v] ∧ v.start = ⟨1483228799, 1000000000⟩ ∧
      reconcile high [v] [] = .error (.invalidValidity "price"
        "new version starts at 2016-12-31 23:59:60 UTC, inside a second") := by
  intro high t
  refine ⟨_, by decide +kernel, rfl, rfl, congrArg Except.error (congrArg _ ?_)⟩
  decide +kernel

end Timeline
end ScraperTimeline
