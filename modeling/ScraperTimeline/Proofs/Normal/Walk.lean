import ScraperTimeline.Proofs.Effect
import ScraperTimeline.Proofs.Normal.Expanding
import ScraperTimeline.Proofs.Normal.Inlined
import Mathlib.Algebra.Order.BigOperators.Group.List
import Mathlib.Algebra.Order.Ring.Nat

/-!
Expansion is inlining. What the stack of open groups and the memo of expanded ones do in steps is what plain
recursion says, with the same errors; and the number of steps is bounded.
-/
namespace ScraperTimeline.Normal
open Shape

section
variable (groups : Groups) (open_ : List String)

-- No open group has been expanded.
def Avoids (memo : Expanded) : Prop := ∀ name ∈ open_, memo.lookup name = none

-- What has been expanded stands for itself wherever no group of the memo is open.
def Faithful (memo : Expanded) : Prop :=
  ∀ name steps, memo.lookup name = some steps →
    ∀ open_, Avoids open_ memo → inlinedGroupUnder groups open_ name = .ok steps

-- The steps for the groups that may still be opened: one for each entry and one to close the group.
def cost (memo : Expanded) : Nat :=
  (groups.map fun g => if g.1 ∈ open_ ∨ memo.lookup g.1 ≠ none then 0 else itemCount g.2 + 1).sum

-- From the first memo the entries of an open list are worked off in so many steps, up to the second.
structure Walked (entries steps : List Tree) (memo memo' : Expanded) (count : Nat) : Prop where
  faithful : Faithful groups memo'
  avoids : Avoids open_ memo'
  kept : ∀ name, (memo.lookup name).isSome → (memo'.lookup name).isSome
  texts : ∀ name, .string name ∈ entries → (memo'.lookup name).isSome
  bounded : count + cost groups open_ memo' ≤ cost groups open_ memo + entries.length
  run : ∀ fuel name rest before outer, openNames outer ++ name.toList = open_ →
    (expandStack groups (fuel + count) (⟨name, entries ++ rest, before⟩ :: outer)).run.run memo =
      (expandStack groups fuel (⟨name, rest, before ++ steps⟩ :: outer)).run.run memo'

-- In so many steps one of the entries fails.
structure Stopped (entries : List Tree) (e : Fault) (memo memo' : Expanded) (count : Nat) : Prop where
  faithful : Faithful groups memo'
  bounded : count ≤ cost groups open_ memo + entries.length
  run : ∀ fuel name rest before outer, openNames outer ++ name.toList = open_ →
    (expandStack groups (fuel + count) (⟨name, entries ++ rest, before⟩ :: outer)).run.run memo =
      (.error e, memo')

def Walks (entries : List Tree) (memo : Expanded) : Except Fault (List Tree) → Prop
  | .ok steps => ∃ memo' count, Walked groups open_ entries steps memo memo' count
  | .error e => ∃ memo' count, Stopped groups open_ entries e memo memo' count

end

section
variable {groups : Groups} {open_ : List String} {memo memo' between : Expanded} {name : String}
  {entries rest steps chunk : List Tree} {count more : Nat} {e : Fault}

/-! ### Memos -/

theorem lookup_cons_eq_none_iff {other : String} :
    List.lookup other ((name, steps) :: memo) = none ↔ other ≠ name ∧ memo.lookup other = none := by
  by_cases hname : other = name
  · simp [hname]
  · have hne : (other == name) = false := by simpa using hname
    simp [List.lookup_cons, hne, hname]

theorem avoids_nil (memo : Expanded) : Avoids [] memo := by
  simp [Avoids]

theorem avoids_append_iff : Avoids (open_ ++ [name]) memo ↔ Avoids open_ memo ∧ memo.lookup name = none := by
  simp [Avoids, or_imp, forall_and]

theorem avoids_cons_iff : Avoids open_ ((name, steps) :: memo) ↔ name ∉ open_ ∧ Avoids open_ memo := by
  simp only [Avoids, lookup_cons_eq_none_iff]
  refine ⟨fun h => ⟨fun hname => (h name hname).1 rfl, fun other hother => (h other hother).2⟩, ?_⟩
  rintro ⟨hname, h⟩ other hother
  exact ⟨fun heq => hname (heq ▸ hother), h other hother⟩

theorem faithful_nil (groups : Groups) : Faithful groups [] := by
  intro name steps h
  cases h

-- All that the group names has been expanded, so the groups that are open around it do not matter.
theorem Faithful.cons (h : Faithful groups memo) (havoids : Avoids (open_ ++ [name]) memo)
    (hentries : entries? groups name = .ok entries)
    (htexts : ∀ name, .string name ∈ entries → (memo.lookup name).isSome)
    (hsteps : inlinedUnder groups (open_ ++ [name]) entries = .ok steps) :
    Faithful groups ((name, steps) :: memo) := by
  intro other found hfound around haround
  obtain ⟨hnew, hmemo⟩ := avoids_cons_iff.mp haround
  by_cases hother : other = name
  · subst hother
    obtain rfl : steps = found := by simpa using hfound
    have haround' : Avoids (around ++ [other]) memo :=
      avoids_append_iff.mpr ⟨hmemo, (avoids_append_iff.mp havoids).2⟩
    rw [inlinedGroupUnder_of_entries hnew hentries, ← hsteps]
    refine inlinedUnder_congr fun text htext => ?_
    obtain ⟨found, hfound⟩ := Option.isSome_iff_exists.mp (htexts text htext)
    rw [h text found hfound _ haround', h text found hfound _ havoids]
  · have hne : (other == name) = false := by simpa using hother
    rw [List.lookup_cons, hne] at hfound
    exact h other found hfound around hmemo

/-! ### Costs -/

theorem cost_close (groups : Groups) (open_ : List String) (name : String) (steps : List Tree)
    (memo : Expanded) :
    cost groups open_ ((name, steps) :: memo) = cost groups (open_ ++ [name]) memo := by
  have hsame (g : String × Tree) : (g.1 ∈ open_ ∨ List.lookup g.1 ((name, steps) :: memo) ≠ none) =
      (g.1 ∈ open_ ++ [name] ∨ memo.lookup g.1 ≠ none) := by
    rw [ne_eq, lookup_cons_eq_none_iff, List.mem_append, List.mem_singleton, or_assoc, not_and_or, not_not]
  simp only [cost, hsame]

theorem cost_open (hname : name ∉ open_) (hmemo : memo.lookup name = none)
    (hentries : entries? groups name = .ok entries) :
    cost groups (open_ ++ [name]) memo + entries.length + 1 ≤ cost groups open_ memo := by
  obtain ⟨group, hgroup, hitems⟩ := mem_of_entries? hentries
  have hcount : itemCount group = entries.length := by
    rw [itemCount, hitems]
    rfl
  obtain ⟨before, after, rfl, -⟩ := List.lookup_eq_some_iff.mp hgroup
  have hless (part : Groups) : cost part (open_ ++ [name]) memo ≤ cost part open_ memo := by
    refine List.sum_le_sum fun g _ => ?_
    by_cases hcounted : g.1 ∈ open_ ∨ memo.lookup g.1 ≠ none
    · rw [if_pos hcounted, if_pos (hcounted.imp_left (List.mem_append_left _))]
    · rw [if_neg hcounted]
      split <;> omega
  have hbefore := hless before
  have hafter := hless after
  simp only [cost, List.map_append, List.map_cons, List.sum_append, List.sum_cons] at hbefore hafter ⊢
  rw [if_pos (.inl (List.mem_append_right _ List.mem_cons_self)), if_neg (by simp [hname, hmemo]), hcount]
  omega

theorem cost_lt_stepBound (groups : Groups) (open_ : List String) (memo : Expanded) (entries : List Tree) :
    cost groups open_ memo + entries.length + 2 ≤ stepBound groups entries := by
  have hfold (n : Nat) : cost groups open_ memo + n ≤
      groups.foldl (fun n group => n + itemCount group.2 + 1) n := by
    induction groups generalizing n with
    | nil => simp [cost]
    | cons group rest ih =>
        refine Nat.le_trans ?_ (ih (n + itemCount group.2 + 1))
        rw [cost, List.map_cons, List.sum_cons, ← cost]
        split <;> omega
  rw [stepBound, Nat.add_assoc]
  exact hfold (entries.length + 2)

/-! ### Steps of the machine -/

section
variable {fuel : Nat} {frameName : Option String} {outer : List Frame}

theorem openNames_cons (frameName : Option String) (rest steps : List Tree) (outer : List Frame) :
    openNames (⟨frameName, rest, steps⟩ :: outer) = openNames outer ++ frameName.toList := by
  cases frameName <;> simp [openNames]

theorem run_known (h : memo.lookup name = some chunk) :
    (expandStack groups (fuel + 1) (⟨frameName, .string name :: rest, steps⟩ :: outer)).run.run memo =
      (expandStack groups fuel (⟨frameName, rest, steps ++ chunk⟩ :: outer)).run.run memo := by
  rw [expandStack_text, run_get_bind, h]

theorem run_cyclic (h : memo.lookup name = none) (hopen : name ∈ openNames outer ++ frameName.toList) :
    (expandStack groups (fuel + 1) (⟨frameName, .string name :: rest, steps⟩ :: outer)).run.run memo =
      (.error (.cyclicSteps (openNames outer ++ frameName.toList ++ [name])), memo) := by
  rw [← openNames_cons frameName rest steps] at hopen ⊢
  rw [expandStack_text, run_get_bind, h]
  dsimp only
  rw [if_pos hopen]
  rfl

theorem run_unknown (h : memo.lookup name = none) (hopen : name ∉ openNames outer ++ frameName.toList) :
    (expandStack groups (fuel + 1) (⟨frameName, .string name :: rest, steps⟩ :: outer)).run.run memo =
      (do
        let entries ← (entries? groups name : Except Fault (List Tree))
        expandStack groups fuel (⟨some name, entries, []⟩ :: ⟨frameName, rest, steps⟩ :: outer) :
          Expanding (List Tree)).run.run memo := by
  rw [← openNames_cons frameName rest steps] at hopen
  rw [expandStack_text, run_get_bind, h]
  dsimp only
  rw [if_neg hopen]

theorem run_missing (h : memo.lookup name = none) (hopen : name ∉ openNames outer ++ frameName.toList)
    (hentries : entries? groups name = .error e) :
    (expandStack groups (fuel + 1) (⟨frameName, .string name :: rest, steps⟩ :: outer)).run.run memo =
      (.error e, memo) :=
  (run_unknown h hopen).trans (run_bind_of_error (run_lift_of_error hentries memo))

theorem run_opened (h : memo.lookup name = none) (hopen : name ∉ openNames outer ++ frameName.toList)
    (hentries : entries? groups name = .ok entries) :
    (expandStack groups (fuel + 1) (⟨frameName, .string name :: rest, steps⟩ :: outer)).run.run memo =
      (expandStack groups fuel (⟨some name, entries, []⟩ :: ⟨frameName, rest, steps⟩ :: outer)).run.run memo :=
  (run_unknown h hopen).trans (run_bind_of_ok (run_lift_of_ok hentries memo))

theorem run_closed :
    (expandStack groups (fuel + 1) (⟨some name, [], chunk⟩ :: ⟨frameName, rest, steps⟩ :: outer)).run.run memo =
      (expandStack groups fuel (⟨frameName, rest, steps ++ chunk⟩ :: outer)).run.run ((name, chunk) :: memo) := by
  rw [expandStack_closed]
  rfl

end

/-! ### Walks -/

theorem Walked.nil (hmemo : Faithful groups memo) (havoids : Avoids open_ memo) :
    Walked groups open_ [] [] memo memo 0 where
  faithful := hmemo
  avoids := havoids
  kept := fun _ => id
  texts := by simp
  bounded := by simp
  run := by simp

theorem Walked.append (h : Walked groups open_ entries chunk memo between count)
    (hrest : Walked groups open_ rest steps between memo' more) :
    Walked groups open_ (entries ++ rest) (chunk ++ steps) memo memo' (more + count) where
  faithful := hrest.faithful
  avoids := hrest.avoids
  kept := fun name hname => hrest.kept name (h.kept name hname)
  texts := by
    intro name hname
    rcases List.mem_append.mp hname with hname | hname
    · exact hrest.kept name (h.texts name hname)
    · exact hrest.texts name hname
  bounded := by
    have := h.bounded
    have := hrest.bounded
    rw [List.length_append]
    omega
  run := by
    intro fuel name remaining before outer hopen
    rw [List.append_assoc, ← Nat.add_assoc, h.run _ _ _ _ _ hopen, hrest.run _ _ _ _ _ hopen, List.append_assoc]

theorem Stopped.append (h : Stopped groups open_ entries e memo memo' count) :
    Stopped groups open_ (entries ++ rest) e memo memo' count where
  faithful := h.faithful
  bounded := by
    have := h.bounded
    rw [List.length_append]
    omega
  run := by
    intro fuel name remaining before outer hopen
    rw [List.append_assoc, h.run _ _ _ _ _ hopen]

theorem Walked.stopped (h : Walked groups open_ entries chunk memo between count)
    (hrest : Stopped groups open_ rest e between memo' more) :
    Stopped groups open_ (entries ++ rest) e memo memo' (more + count) where
  faithful := hrest.faithful
  bounded := by
    have := h.bounded
    have := hrest.bounded
    rw [List.length_append]
    omega
  run := by
    intro fuel name remaining before outer hopen
    rw [List.append_assoc, ← Nat.add_assoc, h.run _ _ _ _ _ hopen, hrest.run _ _ _ _ _ hopen]

theorem Walks.append {r r' : Except Fault (List Tree)} (h : Walks groups open_ entries memo r)
    (hrest : ∀ between, Faithful groups between → Avoids open_ between → Walks groups open_ rest between r') :
    Walks groups open_ (entries ++ rest) memo (do return (← r) ++ (← r')) := by
  cases r with
  | error e =>
      obtain ⟨memo', count, h⟩ := h
      exact ⟨memo', count, h.append⟩
  | ok chunk =>
      obtain ⟨between, count, h⟩ := h
      have hrest := hrest between h.faithful h.avoids
      cases r' with
      | error e =>
          obtain ⟨memo', more, hrest⟩ := hrest
          exact ⟨memo', more + count, h.stopped hrest⟩
      | ok steps =>
          obtain ⟨memo', more, hrest⟩ := hrest
          exact ⟨memo', more + count, h.append hrest⟩

theorem walks_step {step : Tree} (hstep : ¬IsText step) (hmemo : Faithful groups memo)
    (havoids : Avoids open_ memo) : Walks groups open_ [step] memo (.ok [step]) :=
  ⟨memo, 1, {
    faithful := hmemo
    avoids := havoids
    kept := fun _ => id
    texts := by
      intro name hname
      exact (hstep ⟨name, (List.mem_singleton.mp hname).symm⟩).elim
    bounded := by simp [Nat.add_comm]
    run := by
      intro fuel name rest before outer _
      exact congrArg (fun x => x.run.run memo) (expandStack_step _ _ _ _ _ _ hstep) }⟩

section
variable (hname : name ∉ open_) (hmemo : memo.lookup name = none)
  (hentries : entries? groups name = .ok entries)
include hname hmemo hentries

theorem Stopped.group (h : Stopped groups (open_ ++ [name]) entries e memo memo' count) :
    Stopped groups open_ [.string name] e memo memo' (count + 1) where
  faithful := h.faithful
  bounded := by
    have := h.bounded
    have := cost_open hname hmemo hentries
    rw [List.length_singleton]
    omega
  run := by
    rintro fuel frameName rest before outer rfl
    have hinside := h.run fuel (some name) [] [] (⟨frameName, rest, before⟩ :: outer)
      (by rw [openNames_cons]; rfl)
    rw [List.append_nil] at hinside
    exact (run_opened hmemo hname hentries).trans hinside

theorem Walked.group (hsteps : inlinedUnder groups (open_ ++ [name]) entries = .ok steps)
    (h : Walked groups (open_ ++ [name]) entries steps memo memo' count) :
    Walked groups open_ [.string name] steps memo ((name, steps) :: memo') (1 + count + 1) where
  faithful := h.faithful.cons h.avoids hentries h.texts hsteps
  avoids := avoids_cons_iff.mpr ⟨hname, (avoids_append_iff.mp h.avoids).1⟩
  kept := by
    intro other hother
    rw [List.lookup_cons]
    split
    · rfl
    · exact h.kept other hother
  texts := by simp
  bounded := by
    have := h.bounded
    have := cost_open hname hmemo hentries
    rw [cost_close, List.length_singleton]
    omega
  run := by
    rintro fuel frameName rest before outer rfl
    have hinside := h.run (fuel + 1) (some name) [] [] (⟨frameName, rest, before⟩ :: outer)
      (by rw [openNames_cons]; rfl)
    rw [List.append_nil] at hinside
    rw [← Nat.add_assoc, ← Nat.add_assoc]
    exact (run_opened hmemo hname hentries).trans (hinside.trans run_closed)

end

-- A text opens its group, unless the group has been expanded.
theorem walks_text (hmemo : Faithful groups memo) (havoids : Avoids open_ memo)
    (hgroup : ∀ entries, name ∉ open_ → entries? groups name = .ok entries →
      ∀ memo, Faithful groups memo → Avoids (open_ ++ [name]) memo →
        Walks groups (open_ ++ [name]) entries memo (inlinedUnder groups (open_ ++ [name]) entries)) :
    Walks groups open_ [.string name] memo (inlinedGroupUnder groups open_ name) := by
  cases hlookup : memo.lookup name with
  | some chunk =>
      rw [hmemo name chunk hlookup open_ havoids]
      refine ⟨memo, 1, hmemo, havoids, fun _ => id, ?_, by simp [Nat.add_comm], ?_⟩
      · intro other hother
        obtain rfl : other = name := by simpa using hother
        exact hlookup ▸ rfl
      · intro fuel frameName rest before outer _
        exact run_known hlookup
  | none =>
      by_cases hopen : name ∈ open_
      · rw [inlinedGroupUnder_of_mem hopen]
        refine ⟨memo, 1, hmemo, by simp, ?_⟩
        rintro fuel frameName rest before outer rfl
        exact run_cyclic hlookup hopen
      · cases hentries : entries? groups name with
        | error e =>
            rw [inlinedGroupUnder_of_notMem hopen, hentries]
            refine ⟨memo, 1, hmemo, by simp, ?_⟩
            rintro fuel frameName rest before outer rfl
            exact run_missing hlookup hopen hentries
        | ok entries =>
            have hinside := hgroup entries hopen hentries memo hmemo (avoids_append_iff.mpr ⟨havoids, hlookup⟩)
            rw [inlinedGroupUnder_of_entries hopen hentries]
            cases hresult : inlinedUnder groups (open_ ++ [name]) entries with
            | error e =>
                rw [hresult] at hinside
                obtain ⟨memo', count, hinside⟩ := hinside
                exact ⟨memo', count + 1, hinside.group hopen hlookup hentries⟩
            | ok steps =>
                rw [hresult] at hinside
                obtain ⟨memo', count, hinside⟩ := hinside
                exact ⟨_, _, hinside.group hopen hlookup hentries hresult⟩

theorem walks (groups : Groups) (open_ : List String) (entries : List Tree) :
    ∀ memo, Faithful groups memo → Avoids open_ memo →
      Walks groups open_ entries memo (inlinedUnder groups open_ entries) := by
  induction open_, entries using inlined_induct groups with
  | nil open_ =>
      intro memo hmemo havoids
      rw [inlinedUnder_nil]
      exact ⟨memo, 0, .nil hmemo havoids⟩
  | text open_ name rest hgroup hrest =>
      intro memo hmemo havoids
      rw [inlinedUnder_text]
      exact (walks_text hmemo havoids hgroup).append hrest
  | step open_ step rest hstep hrest =>
      intro memo hmemo havoids
      rw [inlinedUnder_step hstep]
      exact (walks_step hstep hmemo havoids).append hrest

-- The bound on the steps suffices for a list that nothing is open around.
theorem run_expandStack (hmemo : Faithful groups memo) (frameName : Option String)
    (havoids : Avoids frameName.toList memo)
    (hentries : ∀ name, frameName = some name → entries? groups name = .ok entries) :
    ∃ memo', (expandStack groups (stepBound groups entries) [⟨frameName, entries, []⟩]).run.run memo =
      (inlinedUnder groups frameName.toList entries, memo') ∧ Faithful groups memo' := by
  have hbound := cost_lt_stepBound groups frameName.toList memo entries
  have hwalks := walks groups frameName.toList entries memo hmemo havoids
  cases hresult : inlinedUnder groups frameName.toList entries with
  | error e =>
      rw [hresult] at hwalks
      obtain ⟨memo', count, h⟩ := hwalks
      have hcount := h.bounded
      obtain ⟨fuel, hfuel⟩ := Nat.exists_eq_add_of_le' (show count ≤ stepBound groups entries by omega)
      have hrun := h.run fuel frameName [] [] [] rfl
      rw [List.append_nil] at hrun
      exact ⟨memo', hfuel ▸ hrun, h.faithful⟩
  | ok steps =>
      rw [hresult] at hwalks
      obtain ⟨memo', count, h⟩ := hwalks
      have hcount := h.bounded
      obtain ⟨fuel, hfuel⟩ := Nat.exists_eq_add_of_le' (show 1 + count ≤ stepBound groups entries by omega)
      have hrun := h.run (fuel + 1) frameName [] [] [] rfl
      rw [List.append_nil, List.nil_append, expandStack_closed, Nat.add_assoc, ← hfuel] at hrun
      cases frameName with
      | none => exact ⟨memo', hrun, h.faithful⟩
      | some name =>
          have havoids : Avoids ([] ++ [name]) memo' := h.avoids
          exact ⟨(name, steps) :: memo', hrun, h.faithful.cons havoids (hentries name rfl) h.texts hresult⟩

end
end ScraperTimeline.Normal
