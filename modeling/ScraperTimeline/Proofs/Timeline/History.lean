import ScraperTimeline.Proofs.Instant.Order
import ScraperTimeline.Timeline.Version
import Mathlib.Data.List.Sort

namespace ScraperTimeline

-- What a run brings in: a version that is open and starts with a second before the high date.
structure Version.Compiled (high : Instant) (v : Version) : Prop where
  stop_eq : v.stop = high
  whole : v.start.isWhole = true
  before : v.start < high

-- The first version can be closed a second before the other one starts.
def Version.Precedes (v w : Version) : Prop := v.start ≤ w.start.secondBefore

namespace Version

theorem Precedes.lt {v w : Version} (h : v.Precedes w) : v.start < w.start :=
  Instant.lt_of_le_secondBefore h

theorem Precedes.trans {u v w : Version} (huv : u.Precedes v) (hvw : v.Precedes w) : u.Precedes w :=
  Instant.le_trans (Instant.le_of_lt huv.lt) hvw

theorem Compiled.isOpen {high : Instant} {v : Version} (h : v.Compiled high) : v.isOpen high := by
  simpa [Version.isOpen] using h.stop_eq

theorem Compiled.closedAt_high {high : Instant} {v : Version} (h : v.Compiled high) :
    v.closedAt high = v := by
  rw [← h.stop_eq]
  rfl

theorem Compiled.precedes_of_lt {high : Instant} {v w : Version} (hv : v.Compiled high)
    (hw : w.Compiled high) (h : v.start < w.start) : v.Precedes w :=
  Instant.le_secondBefore_of_lt hv.whole hw.whole h

@[simp] theorem closedAt_name (stop : Instant) (v : Version) : (v.closedAt stop).name = v.name := rfl

@[simp] theorem closedAt_start (stop : Instant) (v : Version) : (v.closedAt stop).start = v.start := rfl

@[simp] theorem closedAt_stop (stop : Instant) (v : Version) : (v.closedAt stop).stop = stop := rfl

@[simp] theorem closedAt_closedAt (stop other : Instant) (v : Version) :
    (v.closedAt stop).closedAt other = v.closedAt other := rfl

theorem closedAt_not_isOpen {high : Instant} {w : Version} (hw : w.Compiled high) (v : Version) :
    (v.closedAt w.start.secondBefore).isOpen high = false := by
  have hlt : w.start.secondBefore < high :=
    Instant.lt_of_le_of_lt (Instant.le_of_lt w.start.secondBefore_lt) hw.before
  exact decide_eq_false (Instant.ne_of_lt hlt)

theorem covers_iff {t : Instant} {v : Version} : v.covers t ↔ v.start ≤ t ∧ t.wholeSecond ≤ v.stop := by
  simp [covers]

theorem covers_closedAt_iff {t : Instant} {v next : Version} (hwhole : next.start.isWhole) (hstart : v.start ≤ t) :
    (v.closedAt next.start.secondBefore).covers t ↔ t < next.start ∧ ¬t.LeapBefore next.start := by
  rw [covers_iff, closedAt_start, closedAt_stop, ← Instant.wholeSecond_le_secondBefore_iff hwhole]
  exact and_iff_right hstart

end Version

namespace History

-- No gap, no overlap, and the last version alone is open.
structure Contiguous (high : Instant) (h : History) : Prop where
  ascending : h.Pairwise fun v w => v.start < w.start
  spans : ∀ v ∈ h, v.start ≤ v.stop
  adjoining : h.IsChain fun v w => v.stop = w.start.secondBefore
  open_iff_last : ∀ v ∈ h, v.isOpen high ↔ h.getLast? = some v

-- The one version of this start is still this one, and it ends here.
def Keeps (h : History) (v : Version) (stop : Instant) : Prop :=
  h.filter (·.start = v.start) = [v.closedAt stop]

theorem filter_start_of_mem {h : History} (hs : h.Pairwise fun v w => v.start < w.start) {w : Version}
    (hw : w ∈ h) : h.filter (·.start = w.start) = [w] := by
  obtain ⟨past, rest, rfl⟩ := List.append_of_mem hw
  obtain ⟨-, hrest, hcross⟩ := List.pairwise_append.mp hs
  have hpast : past.filter (·.start = w.start) = [] := by
    rw [List.filter_eq_nil_iff]
    intro u hu
    simpa using Instant.ne_of_lt (hcross u hu w (by simp))
  have hafter : rest.filter (·.start = w.start) = [] := by
    rw [List.filter_eq_nil_iff]
    intro u hu
    simpa using (Instant.ne_of_lt ((List.pairwise_cons.mp hrest).1 u hu)).symm
  rw [List.filter_append, List.filter_cons, hpast, hafter]
  simp

/-! ### Putting versions in -/

theorem pairwise_sortByStart (h : History) : (sortByStart h).Pairwise fun v w => v.start ≤ w.start := by
  have hpairwise : (sortByStart h).Pairwise fun v w => decide (v.start ≤ w.start) = true :=
    List.pairwise_mergeSort
      (fun u v w huv hvw => by simpa using Instant.le_trans (by simpa using huv) (by simpa using hvw))
      (fun v w => by simpa using Instant.le_total v.start w.start) h
  exact hpairwise.imp fun hle => by simpa using hle

section
variable {h : History} {v w : Version} {writes : List Version}

theorem mem_of_mem_replace (hw : w ∈ replace v h) : w = v ∨ w ∈ h := by
  induction h with
  | nil => exact .inl (List.mem_singleton.mp hw)
  | cons u rest ih =>
      rw [replace] at hw
      split at hw
      · exact (List.mem_cons.mp hw).imp_right (List.mem_cons_of_mem _)
      · rcases List.mem_cons.mp hw with rfl | hw
        · exact .inr (by simp)
        · exact (ih hw).imp_right (List.mem_cons_of_mem _)

theorem mem_of_mem_put (hw : w ∈ h.put v) : w = v ∨ w ∈ h :=
  mem_of_mem_replace ((List.mergeSort_perm ..).mem_iff.mp hw)

theorem put_ne_nil (v : Version) (h : History) : h.put v ≠ [] := by
  have hlength := (List.mergeSort_perm (replace v h) fun a b => decide (a.start ≤ b.start)).length_eq
  intro hnil
  rw [put, sortByStart] at hnil
  rw [hnil] at hlength
  cases h with
  | nil => simp [replace] at hlength
  | cons w rest =>
      rw [replace] at hlength
      split at hlength <;> simp at hlength

theorem mem_of_mem_foldl_put (hw : w ∈ writes.foldl (fun h v => h.put v) h) : w ∈ writes ∨ w ∈ h := by
  induction writes generalizing h with
  | nil => exact .inr hw
  | cons v rest ih =>
      rcases ih hw with hrest | hput
      · exact .inl (List.mem_cons_of_mem _ hrest)
      · exact (mem_of_mem_put hput).imp (fun heq => by simp [heq]) id

theorem foldl_put_ne_nil (hne : writes ≠ []) (h : History) :
    writes.foldl (fun h v => h.put v) h ≠ [] := by
  induction writes generalizing h with
  | nil => exact (hne rfl).elim
  | cons v rest ih =>
      cases rest with
      | nil => exact put_ne_nil v h
      | cons w rest => exact ih (by simp) (h.put v)

end

theorem sortByStart_of_ascending {h : History} (hs : h.Pairwise fun v w => v.start < w.start) :
    sortByStart h = h := by
  apply List.mergeSort_of_pairwise
  exact hs.imp fun hlt => by simpa using Instant.le_of_lt hlt

theorem replace_of_forall_ne {v : Version} {h : History} (hne : ∀ w ∈ h, w.start ≠ v.start) :
    replace v h = h ++ [v] := by
  induction h with
  | nil => rfl
  | cons w rest ih =>
      have hw : w.start ≠ v.start := hne w (by simp)
      simp only [replace, hw, if_false, List.cons_append]
      rw [ih fun u hu => hne u (List.mem_cons_of_mem _ hu)]

theorem replace_concat_of_start_eq {v o : Version} {past : History}
    (hne : ∀ w ∈ past, w.start ≠ v.start) (ho : o.start = v.start) :
    replace v (past ++ [o]) = past ++ [v] := by
  induction past with
  | nil => simp [replace, ho]
  | cons w rest ih =>
      have hw : w.start ≠ v.start := hne w (by simp)
      simp only [List.cons_append, replace, hw, if_false]
      rw [ih fun u hu => hne u (List.mem_cons_of_mem _ hu)]

theorem put_of_forall_lt {v : Version} {h : History}
    (hs : h.Pairwise fun v w => v.start < w.start) (hlt : ∀ w ∈ h, w.start < v.start) :
    h.put v = h ++ [v] := by
  rw [put, replace_of_forall_ne fun w hw => Instant.ne_of_lt (hlt w hw)]
  apply sortByStart_of_ascending
  rw [List.pairwise_append]
  exact ⟨hs, List.pairwise_singleton _ _, by simpa using hlt⟩

theorem put_concat_of_start_eq {v o : Version} {past : History}
    (hs : (past ++ [o]).Pairwise fun v w => v.start < w.start) (ho : o.start = v.start) :
    (past ++ [o]).put v = past ++ [v] := by
  rw [List.pairwise_append] at hs
  obtain ⟨hpast, -, hlt⟩ := hs
  have hv : ∀ w ∈ past, w.start < v.start := by
    intro w hw
    rw [← ho]
    exact hlt w hw o (by simp)
  rw [put, replace_concat_of_start_eq (fun w hw => Instant.ne_of_lt (hv w hw)) ho]
  apply sortByStart_of_ascending
  rw [List.pairwise_append]
  exact ⟨hpast, List.pairwise_singleton _ _, by simpa using hv⟩

/-! ### Successions -/

-- Versions of one name in the order in which they can come in.
structure Succession (high : Instant) (name : String) (vs : List Version) : Prop where
  named : ∀ v ∈ vs, v.name = name
  compiled : ∀ v ∈ vs, v.Compiled high
  ordered : vs.Pairwise Version.Precedes

-- Their history: each is closed a second before the next one starts, and the last one is open.
def chain (high : Instant) : List Version → History
  | [] => []
  | [v] => [v.closedAt high]
  | v :: w :: rest => v.closedAt w.start.secondBefore :: chain high (w :: rest)

variable {high : Instant} {name : String} {vs : List Version}

namespace Succession

theorem nil : Succession high name [] := ⟨by simp, by simp, List.Pairwise.nil⟩

theorem sublist {us : List Version} (h : Succession high name vs) (hsub : us.Sublist vs) :
    Succession high name us :=
  ⟨fun v hv => h.named v (hsub.subset hv), fun v hv => h.compiled v (hsub.subset hv),
    h.ordered.sublist hsub⟩

theorem tail {v : Version} (h : Succession high name (v :: vs)) : Succession high name vs :=
  h.sublist (List.sublist_cons_self v vs)

theorem concat {new : Version} (h : Succession high name vs) (hname : new.name = name)
    (hnew : new.Compiled high) (hprec : ∀ v ∈ vs, v.Precedes new) :
    Succession high name (vs ++ [new]) := by
  refine ⟨?_, ?_, ?_⟩
  · intro v hv
    rcases List.mem_append.mp hv with hv | hv
    · exact h.named v hv
    · rw [List.mem_singleton.mp hv]; exact hname
  · intro v hv
    rcases List.mem_append.mp hv with hv | hv
    · exact h.compiled v hv
    · rw [List.mem_singleton.mp hv]; exact hnew
  · rw [List.pairwise_append]
    exact ⟨h.ordered, List.pairwise_singleton _ _, by simpa using hprec⟩

-- A new version that can follow the last one can follow all of them.
theorem precedes_of_getLast? {o new : Version} (h : Succession high name vs)
    (ho : vs.getLast? = some o) (hprec : o.Precedes new) : ∀ v ∈ vs, v.Precedes new := by
  obtain ⟨past, rfl⟩ := List.getLast?_eq_some_iff.mp ho
  intro v hv
  rcases List.mem_append.mp hv with hv | hv
  · exact ((List.pairwise_append.mp h.ordered).2.2 v hv o (by simp)).trans hprec
  · rw [List.mem_singleton.mp hv]; exact hprec

-- A start tells the versions apart.
theorem eq_of_start_eq (h : Succession high name vs) {v w : Version} (hv : v ∈ vs) (hw : w ∈ vs)
    (he : v.start = w.start) : v = w := by
  obtain ⟨past, rest, rfl⟩ := List.append_of_mem hv
  obtain ⟨-, hrest, hcross⟩ := List.pairwise_append.mp h.ordered
  rcases List.mem_append.mp hw with hw | hw
  · exact absurd he.symm (Instant.ne_of_lt (hcross w hw v (by simp)).lt)
  · rcases List.mem_cons.mp hw with rfl | hw
    · rfl
    · exact absurd he (Instant.ne_of_lt ((List.pairwise_cons.mp hrest).1 w hw).lt)

end Succession

/-! ### Chains -/

-- Two entries of a chain differ from the versions that came in at most by their stops.
theorem exists_of_mem_chain {w : Version} (hw : w ∈ chain high vs) :
    ∃ v ∈ vs, w = v.closedAt w.stop := by
  induction vs with
  | nil => simp [chain] at hw
  | cons v vs ih =>
      cases vs with
      | nil =>
          rw [List.mem_singleton.mp hw]
          exact ⟨v, by simp, rfl⟩
      | cons next rest =>
          rcases List.mem_cons.mp hw with rfl | hw
          · exact ⟨v, by simp, rfl⟩
          · obtain ⟨u, hu, he⟩ := ih hw
            exact ⟨u, List.mem_cons_of_mem _ hu, he⟩

-- Each version that came in has its entry.
theorem exists_mem_chain (high : Instant) {v : Version} (hv : v ∈ vs) :
    ∃ stop, v.closedAt stop ∈ chain high vs := by
  induction vs with
  | nil => cases hv
  | cons u vs ih =>
      cases vs with
      | nil =>
          rw [List.mem_singleton.mp hv]
          exact ⟨high, by simp [chain]⟩
      | cons next rest =>
          rcases List.mem_cons.mp hv with rfl | hv
          · exact ⟨next.start.secondBefore, by simp [chain]⟩
          · obtain ⟨stop, hstop⟩ := ih hv
            exact ⟨stop, List.mem_cons_of_mem _ hstop⟩

-- Versions that come in later move at most the end of an entry, from the high date to an earlier one.
theorem exists_mem_chain_append {later : List Version} (h : Succession high name (vs ++ later))
    {w : Version} (hw : w ∈ chain high vs) :
    ∃ stop, w.closedAt stop ∈ chain high (vs ++ later) ∧
      (stop = w.stop ∨ w.stop = high ∧ stop < high) := by
  induction vs with
  | nil => cases hw
  | cons v vs ih =>
      cases vs with
      | nil =>
          rw [List.mem_singleton.mp hw]
          cases later with
          | nil => exact ⟨high, by simp [chain], .inl rfl⟩
          | cons next rest =>
              have hnext := (h.compiled next (by simp)).before
              have hlt := Instant.lt_of_le_of_lt (Instant.le_of_lt next.start.secondBefore_lt) hnext
              exact ⟨next.start.secondBefore, by simp [chain], .inr ⟨rfl, hlt⟩⟩
      | cons next rest =>
          rcases List.mem_cons.mp hw with rfl | hw
          · exact ⟨next.start.secondBefore, by simp [chain], .inl rfl⟩
          · obtain ⟨stop, hstop, hmoved⟩ := ih h.tail hw
            exact ⟨stop, List.mem_cons_of_mem _ hstop, hmoved⟩

theorem chain_cons_ne_nil (high : Instant) (v : Version) (vs : List Version) :
    chain high (v :: vs) ≠ [] := by
  cases vs <;> simp [chain]

-- A new version closes the last one and leaves the others as they are.
theorem exists_chain_concat (high : Instant) (vs : List Version) (o : Version) :
    ∃ past, chain high (vs ++ [o]) = past ++ [o.closedAt high] ∧
      ∀ new, chain high (vs ++ [o] ++ [new]) =
        past ++ [o.closedAt new.start.secondBefore, new.closedAt high] := by
  induction vs with
  | nil => exact ⟨[], rfl, fun new => rfl⟩
  | cons v vs ih =>
      obtain ⟨past, ho, hnew⟩ := ih
      cases vs with
      | nil =>
          refine ⟨v.closedAt o.start.secondBefore :: past, ?_, ?_⟩
          · simpa [chain] using ho
          · intro new
            simpa [chain] using hnew new
      | cons w rest =>
          refine ⟨v.closedAt w.start.secondBefore :: past, ?_, ?_⟩
          · simpa [chain] using ho
          · intro new
            simpa [chain] using hnew new

theorem chain_ascending (high : Instant) (h : vs.Pairwise Version.Precedes) :
    (chain high vs).Pairwise fun v w => v.start < w.start := by
  induction vs with
  | nil => exact List.Pairwise.nil
  | cons v vs ih =>
      cases vs with
      | nil => exact List.pairwise_singleton _ _
      | cons w rest =>
          obtain ⟨hv, hrest⟩ := List.pairwise_cons.mp h
          refine List.pairwise_cons.mpr ⟨?_, ih hrest⟩
          intro x hx
          obtain ⟨u, hu, he⟩ := exists_of_mem_chain hx
          rw [he]
          exact (hv u hu).lt

theorem chain_contiguous (h : Succession high name vs) : Contiguous high (chain high vs) := by
  induction vs with
  | nil => exact ⟨List.Pairwise.nil, by simp [chain], List.IsChain.nil, by simp [chain]⟩
  | cons v vs ih =>
      have hv := h.compiled v (by simp)
      cases vs with
      | nil =>
          refine ⟨List.pairwise_singleton _ _, ?_, List.IsChain.singleton _, ?_⟩
          · intro w hw
            rw [List.mem_singleton.mp hw]
            exact Instant.le_of_lt hv.before
          · intro w hw
            rw [List.mem_singleton.mp hw]
            simp [chain, Version.isOpen]
      | cons next rest =>
          have hc := ih h.tail
          have hprec : v.Precedes next := (List.pairwise_cons.mp h.ordered).1 next (by simp)
          have hopen := Version.closedAt_not_isOpen (h.compiled next (by simp)) v
          refine ⟨chain_ascending high h.ordered, ?_, ?_, ?_⟩
          · intro w hw
            rcases List.mem_cons.mp hw with rfl | hw
            · exact hprec
            · exact hc.spans w hw
          · simp only [chain]
            cases rest with
            | nil => simp [chain]
            | cons u rest => simpa [chain] using hc.adjoining
          · intro w hw
            obtain ⟨x, tail, hx⟩ := List.exists_cons_of_ne_nil (chain_cons_ne_nil high next rest)
            simp only [chain, hx] at hw hc ⊢
            rw [List.getLast?_cons_cons]
            rcases List.mem_cons.mp hw with rfl | hw
            · constructor
              · intro ho
                rw [hopen] at ho
                exact absurd ho (by simp)
              · intro hl
                have hm := List.mem_of_getLast? hl
                have hlast := (hc.open_iff_last _ hm).mpr hl
                rw [hopen] at hlast
                exact absurd hlast (by simp)
            · exact hc.open_iff_last w hw

theorem open?_chain (h : Succession high name vs) : (chain high vs).open? high = vs.getLast? := by
  induction vs with
  | nil => rfl
  | cons v vs ih =>
      cases vs with
      | nil =>
          have hv := h.compiled v (by simp)
          simp only [chain, hv.closedAt_high, open?]
          simp [hv.isOpen]
      | cons next rest =>
          have hopen := Version.closedAt_not_isOpen (h.compiled next (by simp)) v
          rw [List.getLast?_cons_cons, ← ih h.tail]
          simp [chain, open?, hopen]

-- The two writes that put a new version behind the open one.
theorem chain_supersede {o new : Version} (h : Succession high name vs) (ho : vs.getLast? = some o)
    (hnew : new.Compiled high) (hprec : o.Precedes new) :
    ((chain high vs).put (o.closedAt new.start.secondBefore)).put new = chain high (vs ++ [new]) := by
  have hall := h.precedes_of_getLast? ho hprec
  obtain ⟨older, rfl⟩ := List.getLast?_eq_some_iff.mp ho
  obtain ⟨past, hchain, hnext⟩ := exists_chain_concat high older o
  have hord : (older ++ [o] ++ [new]).Pairwise Version.Precedes := by
    rw [List.pairwise_append]
    exact ⟨h.ordered, List.pairwise_singleton _ _, by simpa using hall⟩
  have hbefore := chain_ascending high h.ordered
  have hafter := chain_ascending high hord
  rw [hchain] at hbefore
  rw [hnext new, hnew.closedAt_high] at hafter
  have hclose := put_concat_of_start_eq (v := o.closedAt new.start.secondBefore) hbefore rfl
  rw [hchain, hnext new, hnew.closedAt_high, hclose]
  rw [List.append_cons, List.pairwise_append] at hafter
  obtain ⟨hclosed, -, hlt⟩ := hafter
  rw [put_of_forall_lt hclosed fun w hw => hlt w hw new (by simp), List.append_assoc]
  rfl

theorem chain_insert {new : Version} (hnew : new.Compiled high) :
    (chain high []).put new = chain high [new] := by
  simp only [chain, hnew.closedAt_high]
  exact put_of_forall_lt List.Pairwise.nil (by simp)

end History
end ScraperTimeline
