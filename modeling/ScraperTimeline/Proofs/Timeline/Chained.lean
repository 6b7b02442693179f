import ScraperTimeline.Proofs.Timeline.Plan
import ScraperTimeline.Proofs.Timeline.Record

/-!
Histories that are chains up to the bodies. A store of files reads bodies back from their texts, so it is
only the names and the validities that follow from what came in.
-/
namespace ScraperTimeline

-- The version without its body.
def Version.bare (v : Version) : Version := { v with text := "", body := .null }

namespace Version

variable {v w : Version}

@[simp] theorem bare_name (v : Version) : v.bare.name = v.name := rfl

@[simp] theorem bare_start (v : Version) : v.bare.start = v.start := rfl

@[simp] theorem bare_stop (v : Version) : v.bare.stop = v.stop := rfl

@[simp] theorem bare_closedAt (stop : Instant) (v : Version) : (v.closedAt stop).bare = v.bare.closedAt stop :=
  rfl

theorem Compiled.bare {high : Instant} (h : v.Compiled high) : v.bare.Compiled high :=
  ⟨h.stop_eq, h.whole, h.before⟩

theorem sameVersion_iff : v.sameVersion w ↔ v.bare = w.bare := by
  simp [sameVersion, Version.bare, and_assoc]

theorem bare_of_reread? (h : v.reread? = some w) : w.bare = v.bare := by
  obtain ⟨body, -, rfl⟩ := Option.map_eq_some_iff.mp h
  rfl

end Version

namespace History

variable {high : Instant} {name : String} {h h' : History} {v : Version}

theorem map_bare_replace (v : Version) (h : History) :
    (replace v h).map Version.bare = replace v.bare (h.map Version.bare) := by
  induction h with
  | nil => rfl
  | cons w rest ih => by_cases hstart : w.start = v.start <;> simp [replace, hstart, ih]

theorem map_bare_put (v : Version) (h : History) :
    (h.put v).map Version.bare = History.put v.bare (h.map Version.bare) := by
  rw [History.put, History.put, ← map_bare_replace, sortByStart, sortByStart]
  exact List.map_mergeSort fun _ _ _ _ => rfl

theorem map_bare_of_reread (hread : h.mapM Version.reread? = some h') :
    h'.map Version.bare = h.map Version.bare := by
  induction h generalizing h' with
  | nil =>
      cases hread
      rfl
  | cons v rest ih =>
      simp only [List.mapM_cons, Option.bind_eq_bind, Option.bind_eq_some_iff] at hread
      obtain ⟨w, hw, rest', hrest, hpure⟩ := hread
      cases hpure
      rw [List.map_cons, List.map_cons, Version.bare_of_reread? hw, ih hrest]

/-! ### Chains up to the bodies -/

-- Without its bodies, the history is one that compiled versions make.
def Chained (high : Instant) (name : String) (h : History) : Prop :=
  ∃ vs, Succession high name vs ∧ h.map Version.bare = chain high vs

theorem chained_nil : Chained high name [] := ⟨[], .nil, rfl⟩

theorem Succession.bare {vs : List Version} (hvs : Succession high name vs) :
    Succession high name (vs.map Version.bare) := by
  refine ⟨List.forall_mem_map.mpr hvs.named, ?_, List.pairwise_map.mpr hvs.ordered⟩
  exact List.forall_mem_map.mpr fun v hv => (hvs.compiled v hv).bare

theorem map_bare_chain (high : Instant) (vs : List Version) :
    (chain high vs).map Version.bare = chain high (vs.map Version.bare) := by
  induction vs with
  | nil => rfl
  | cons v vs ih =>
      cases vs with
      | nil => rfl
      | cons next rest =>
          simp only [chain, List.map_cons] at ih ⊢
          rw [ih]
          rfl

theorem chained_chain {vs : List Version} (hvs : Succession high name vs) :
    Chained high name (chain high vs) :=
  ⟨vs.map Version.bare, hvs.bare, map_bare_chain high vs⟩

theorem Chained.reread (hchained : Chained high name h) (hread : h.mapM Version.reread? = some h') :
    Chained high name h' := by
  obtain ⟨vs, hvs, hchain⟩ := hchained
  exact ⟨vs, hvs, (map_bare_of_reread hread).trans hchain⟩

theorem map_bare_open? (high : Instant) (h : History) :
    (h.open? high).map Version.bare = History.open? high (h.map Version.bare) := by
  rw [open?, open?, List.find?_map]
  rfl

-- The open version is the last one that came in.
theorem Chained.open? (hchained : Chained high name h) :
    ∃ vs, Succession high name vs ∧ h.map Version.bare = chain high vs ∧
      (h.open? high).map Version.bare = vs.getLast? := by
  obtain ⟨vs, hvs, hchain⟩ := hchained
  exact ⟨vs, hvs, hchain, by rw [map_bare_open?, hchain, open?_chain hvs]⟩

theorem Chained.of_open? {o : Version} (hchained : Chained high name h) (ho : h.open? high = some o) :
    o ∈ h ∧ o.isOpen high ∧ o.name = name := by
  obtain ⟨vs, hvs, -, hopen⟩ := hchained.open?
  rw [ho, Option.map_some] at hopen
  exact ⟨List.mem_of_find?_eq_some ho, List.find?_some ho,
    hvs.named o.bare (List.mem_of_getLast? hopen.symm)⟩

-- A swap that has been planned for some open version leaves a chain if it goes well, whatever has
-- happened since.
theorem Chained.swapped {new : Version} {seen : Option Version} {outcome : Outcome} {writes : List Version}
    (hchained : Chained high new.name h) (hnew : new.Compiled high)
    (hplan : Sync.plan high new seen = .ok (outcome, writes))
    (hswap : Store.swapped high new.name seen writes h = .ok h') : Chained high new.name h' := by
  obtain ⟨vs, hvs, hchain, hlast⟩ := hchained.open?
  rw [Store.swapped] at hswap
  split at hswap
  next hmatch =>
    cases hswap
    generalize hfound : h.open? high = found at hmatch
    cases Store.stillMatches_iff.mp hmatch with
    | none =>
        rw [Sync.plan_none hnew] at hplan
        cases hplan
        obtain rfl : vs = [] := by
          rw [hfound] at hlast
          exact List.getLast?_eq_none_iff.mp hlast.symm
        refine ⟨[new.bare], Succession.nil.concat rfl hnew.bare (by simp), ?_⟩
        rw [List.foldl_cons, List.foldl_nil, map_bare_put, hchain, chain_insert hnew.bare]
    | @some o current hmatches =>
        have hsame := Version.sameVersion_iff.mp hmatches.1
        obtain ⟨-, hopen, hname⟩ := hchained.of_open? hfound
        rw [hfound, Option.map_some, hsame] at hlast
        have hstop : current.stop = o.stop := by simpa using (congrArg Version.stop hsame).symm
        have hnamed : current.name = new.name := by simpa [hname] using (congrArg Version.name hsame).symm
        rw [Sync.plan_some hnew (by rwa [Version.isOpen, hstop]) hnamed] at hplan
        split at hplan
        · cases hplan
          exact ⟨vs, hvs, hchain⟩
        · split at hplan
          · cases hplan
          next hlate =>
            cases hplan
            have hprecedes : current.bare.Precedes new.bare := Instant.not_lt.mp hlate
            refine ⟨vs ++ [new.bare], hvs.concat rfl hnew.bare
              (hvs.precedes_of_getLast? hlast.symm hprecedes), ?_⟩
            rw [← chain_supersede hvs hlast.symm hnew.bare hprecedes, ← hchain, List.foldl_cons,
              List.foldl_cons, List.foldl_nil, map_bare_put, map_bare_put]
            rfl
  next => cases hswap

end History

/-! ### Versions that can be read back -/

-- A version that comes back, with some body, when it has been stored.
structure Version.Legible (v : Version) : Prop where
  dated : v.Dated
  readable : v.reread?.isSome

namespace Version

variable {v w : Version}

theorem Legible.of_reread? (hv : v.Legible) (hread : v.reread? = some w) : w.Legible := by
  obtain ⟨body, hbody, rfl⟩ := Option.map_eq_some_iff.mp hread
  exact ⟨⟨hv.dated.start, hv.dated.stop⟩, by simp [reread?, hbody]⟩

theorem Legible.closedAt {stop : Instant} (hv : v.Legible) (hstop : stop.Representable) :
    (v.closedAt stop).Legible := by
  refine ⟨⟨hv.dated.start, hstop⟩, ?_⟩
  have hread := hv.readable
  rw [reread?, Option.isSome_map] at hread ⊢
  exact hread

end Version

namespace History

variable {h h' : History}

theorem exists_reread (hlegible : ∀ v ∈ h, v.Legible) :
    ∃ h', h.mapM Version.reread? = some h' ∧ (∀ v ∈ h', v.Legible) ∧ (h' = [] ↔ h = []) := by
  induction h with
  | nil => exact ⟨[], rfl, by simp, Iff.rfl⟩
  | cons v rest ih =>
      obtain ⟨hv, hrest⟩ := List.forall_mem_cons.mp hlegible
      obtain ⟨w, hw⟩ := Option.isSome_iff_exists.mp hv.readable
      obtain ⟨rest', hread, hlegible', -⟩ := ih hrest
      exact ⟨w :: rest', by simp [hw, hread],
        List.forall_mem_cons.mpr ⟨hv.of_reread? hw, hlegible'⟩, by simp⟩

end History

namespace Sync

variable {high : Instant} {new : Version} {seen : Option Version} {outcome : Outcome} {writes : List Version}

-- What is known of a swap that was planned after a read.
structure Drafted (high : Instant) (new : Version) (p : Proposal) : Prop where
  planned : plan high new p.seen = .ok (p.outcome, p.writes)
  isChange : p.outcome.isChange
  writes : p.writes ≠ []
  named : ∀ w ∈ p.writes, w.name = new.name
  legible : new.Legible → ∀ w ∈ p.writes, w.Legible

-- A plan keeps the open version, or it is a draft.
theorem drafted_of_plan (hnew : new.Compiled high)
    (hseen : ∀ o ∈ seen, o.isOpen high ∧ o.name = new.name ∧ o.Legible)
    (hplan : plan high new seen = .ok (outcome, writes)) :
    outcome = .unchanged ∧ writes = [] ∨ Drafted high new ⟨seen, outcome, writes⟩ := by
  cases seen with
  | none =>
      have hinserted := hplan
      rw [plan_none hnew] at hinserted
      cases hinserted
      exact .inr ⟨hplan, rfl, by simp, by simp, by simp⟩
  | some o =>
      obtain ⟨hopen, hname, hlegible⟩ := hseen o rfl
      have hsuperseded := hplan
      rw [plan_some hnew hopen hname] at hsuperseded
      split at hsuperseded
      · cases hsuperseded
        exact .inl ⟨rfl, rfl⟩
      · split at hsuperseded
        · cases hsuperseded
        next hlate =>
          cases hsuperseded
          refine .inr ⟨hplan, rfl, by simp, by simpa using hname, fun hread => ?_⟩
          have hstop := hread.dated.start.secondBefore hnew.whole hlegible.dated.start
            (Instant.not_lt.mp hlate)
          simpa using ⟨hlegible.closedAt hstop, hread⟩

end Sync

end ScraperTimeline
