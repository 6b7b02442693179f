import ScraperTimeline.Proofs.Timeline.Disjoint

/-!
A version that is superseded, and the one that supersedes it. They divide the time from the start of the first
one on at the start of the second, except that a leap second right before that start is in neither.
-/
namespace ScraperTimeline

namespace Version

variable {high t : Instant} {o new : Version}

theorem covers_iff_of_le_stop (h : t.wholeSecond ≤ new.stop) : new.covers t ↔ ¬t < new.start := by
  rw [covers_iff, Instant.not_lt]
  exact and_iff_left h

-- Each instant from the start of the first version on, up to the high date, is in one of them, in the first one
-- just if it is before the second one starts. A leap second right before that start is in neither.
structure Divide (high : Instant) (closed new : Version) : Prop where
  one : ∀ t, closed.start ≤ t → t.wholeSecond ≤ high → ¬t.LeapBefore new.start →
    Xor (closed.covers t) (new.covers t) ∧ (closed.covers t ↔ t < new.start)
  leap : ∀ t, t.LeapBefore new.start → ¬closed.covers t ∧ ¬new.covers t

theorem divide_closedAt (hnew : new.Compiled high) (o : Version) :
    (o.closedAt new.start.secondBefore).Divide high new := by
  refine ⟨fun t hstart hhigh hleap => ?_, fun t hleap => ⟨fun hcovers => ?_, fun hcovers => ?_⟩⟩
  · have hclosed := covers_closedAt_iff (v := o) hnew.whole hstart
    rw [and_iff_left hleap] at hclosed
    have hcovers : new.covers t ↔ ¬t < new.start := covers_iff_of_le_stop (hnew.stop_eq ▸ hhigh)
    refine ⟨?_, hclosed⟩
    rw [hclosed, hcovers, xor_not_right]
  · have hstart : o.start ≤ t := (covers_iff.mp hcovers).1
    exact ((covers_closedAt_iff hnew.whole hstart).mp hcovers).2 hleap
  · have hsecond : t.second < new.start.second := by
      rw [hleap.2]
      omega
    exact Instant.not_lt.mpr (covers_iff.mp hcovers).1 (.inl hsecond)

end Version

namespace Reconciliation

variable {high stop : Instant} {new : Version} {earlier existing : List Version} {r : Reconciliation}

-- A new version that is told to supersede does so to the open version of its name, and the two of them divide
-- the time. Each instant from the start of the old one on, up to the high date, is in just one of them, unless it
-- is in a leap second right before the new one starts.
theorem superseded_divides (hrun : reconcile high (earlier ++ [new]) existing = .ok r) (hbefore : new.start < high)
    (hreport : r.outcomes.getLast? = some (new.name, .superseded stop)) :
    ∃ r₀ before o after, reconcile high earlier existing = .ok r₀ ∧ r₀.versions = before ++ o :: after ∧
      o.name = new.name ∧ o.isOpen high ∧ (∀ v ∈ before, ¬(v.name = new.name ∧ v.isOpen high)) ∧
      r.versions = before ++ o.closedAt stop :: after ++ [new] ∧ (o.closedAt stop).Divide high new := by
  rw [reconcile, List.foldlM_append] at hrun
  obtain ⟨r₀, hearlier, hadd⟩ := exists_of_bind hrun
  simp only [List.foldlM_cons, List.foldlM_nil, bind_pure] at hadd
  have hnew := compiled_of_add hbefore hadd
  cases added_of_add hnew hadd with
  | unchanged => simp [report] at hreport
  | inserted => simp [report] at hreport
  | @superseded older after o hversions hfirst hname hopen =>
      obtain rfl : new.start.secondBefore = stop := by simpa [report] using hreport
      exact ⟨r₀, older, o, after, hearlier, hversions, hname, hopen, hfirst, versions_supersede hversions _ _ _,
        Version.divide_closedAt hnew o⟩

-- A leap second a second before the new version starts is not right before it.
theorem superseded_divides_new_year :
    let high : Instant := ⟨2145916799, 0⟩
    let version (second : Int) (body : Tree) : Version := .ofBody "price" ⟨second, 0⟩ high body
    let closed := (version 1483142400 (.bool true)).closedAt ⟨1483228800, 0⟩
    let new := version 1483228801 .null
    ∃ r, reconcile high [new] [version 1483142400 (.bool true)] = .ok r ∧ r.versions = [closed, new] ∧
      closed.Divide high new ∧ Instant.read? "2016-12-31T23:59:60.5Z" = some ⟨1483228799, 1500000000⟩ ∧
      Xor (closed.covers ⟨1483228799, 1500000000⟩) (new.covers ⟨1483228799, 1500000000⟩) := by
  intro high version closed new
  obtain ⟨r, hrun, hreport⟩ : ∃ r, reconcile high ([] ++ [new]) [version 1483142400 (.bool true)] = .ok r ∧
      r.outcomes.getLast? = some (new.name, .superseded ⟨1483228800, 0⟩) := ⟨_, rfl, rfl⟩
  obtain ⟨r₀, before, o, after, hearlier, hversions, -, -, -, hafter, hdivide⟩ :=
    superseded_divides hrun (by decide) hreport
  cases hearlier
  obtain ⟨rfl, rfl, rfl⟩ : before = [] ∧ o = version 1483142400 (.bool true) ∧ after = [] := by
    cases before with
    | nil =>
        cases hversions
        exact ⟨rfl, rfl, rfl⟩
    | cons v rest => simp [start] at hversions
  refine ⟨r, hrun, hafter, hdivide, ?_, (hdivide.one _ ?_ ?_ ?_).1⟩
  · decide +kernel
  · decide
  · decide
  · decide

-- The leap second at the end of 2016 is before the new version starts, and the old one ends before it.
theorem superseded_loses_leap_second :
    let version (second : Int) (body : Tree) : Version := .ofBody "price" ⟨second, 0⟩ ⟨2145916799, 0⟩ body
    let old := version 1483142400 (.bool true)
    let new := version 1483228800 .null
    ∃ r closed t, old.isOpen ⟨2145916799, 0⟩ ∧ old.start.isWhole ∧ new.start.isWhole ∧
      new.start < ⟨2145916799, 0⟩ ∧ reconcile ⟨2145916799, 0⟩ [new] [old] = .ok r ∧
      r.outcomes = [("price", .superseded ⟨1483228799, 0⟩)] ∧ r.versions = [closed, new] ∧
      Instant.read? "2016-12-31T23:59:60.5Z" = some t ∧ old.start ≤ t ∧ t.wholeSecond ≤ ⟨2145916799, 0⟩ ∧
      t < new.start ∧ ¬closed.covers t ∧ ¬new.covers t := by
  intro version old new
  refine ⟨_, old.closedAt ⟨1483228799, 0⟩, ⟨1483228799, 1500000000⟩, rfl, rfl, rfl, by decide, rfl, rfl, rfl, ?_,
    ?_⟩
  · decide +kernel
  · decide

end Reconciliation
end ScraperTimeline
