import ScraperTimeline.Proofs.Normal.Walk

/-!
The loop of expansion by the rules of its turns, which nothing bounds. Every turn leaves less to do, so the
loop ends from any stack; and the bound on the steps never stops it before its end.
-/
namespace ScraperTimeline.Normal
open Shape

-- What is kept of a list that has been worked off: a group's steps.
def remembered (name : Option String) (steps : List Tree) (memo : Expanded) : Expanded :=
  (name.map (·, steps)).toList ++ memo

-- Turn after turn from a stack and a memo to the result and the memo then. The first list of the stack is
-- the one that is being worked off.
inductive Loop (groups : Groups) : List Frame → Expanded → Except Fault (List Tree) → Expanded → Prop
  | empty (memo : Expanded) : Loop groups [] memo (.ok []) memo
  | finished (name : Option String) (steps : List Tree) (memo : Expanded) :
      Loop groups [⟨name, [], steps⟩] memo (.ok steps) (remembered name steps memo)
  | closed {name : Option String} {steps : List Tree} {parent : Frame} {outer : List Frame}
      {memo memo' : Expanded} {r : Except Fault (List Tree)} :
      Loop groups (⟨parent.name, parent.entries, parent.steps ++ steps⟩ :: outer) (remembered name steps memo)
        r memo' →
      Loop groups (⟨name, [], steps⟩ :: parent :: outer) memo r memo'
  | known {owner : Option String} {name : String} {rest steps chunk : List Tree} {outer : List Frame}
      {memo memo' : Expanded} {r : Except Fault (List Tree)} :
      memo.lookup name = some chunk → Loop groups (⟨owner, rest, steps ++ chunk⟩ :: outer) memo r memo' →
      Loop groups (⟨owner, .string name :: rest, steps⟩ :: outer) memo r memo'
  | cyclic {owner : Option String} {name : String} {rest steps : List Tree} {outer : List Frame}
      {memo : Expanded} :
      memo.lookup name = none → name ∈ openNames (⟨owner, rest, steps⟩ :: outer) →
      Loop groups (⟨owner, .string name :: rest, steps⟩ :: outer) memo
        (.error (.cyclicSteps (openNames (⟨owner, rest, steps⟩ :: outer) ++ [name]))) memo
  | missing {owner : Option String} {name : String} {rest steps : List Tree} {outer : List Frame}
      {memo : Expanded} {e : Fault} :
      memo.lookup name = none → name ∉ openNames (⟨owner, rest, steps⟩ :: outer) →
      entries? groups name = .error e →
      Loop groups (⟨owner, .string name :: rest, steps⟩ :: outer) memo (.error e) memo
  | opened {owner : Option String} {name : String} {entries rest steps : List Tree} {outer : List Frame}
      {memo memo' : Expanded} {r : Except Fault (List Tree)} :
      memo.lookup name = none → name ∉ openNames (⟨owner, rest, steps⟩ :: outer) →
      entries? groups name = .ok entries →
      Loop groups (⟨some name, entries, []⟩ :: ⟨owner, rest, steps⟩ :: outer) memo r memo' →
      Loop groups (⟨owner, .string name :: rest, steps⟩ :: outer) memo r memo'
  | step {owner : Option String} {step : Tree} {rest steps : List Tree} {outer : List Frame}
      {memo memo' : Expanded} {r : Except Fault (List Tree)} :
      ¬IsText step → Loop groups (⟨owner, rest, steps ++ [step]⟩ :: outer) memo r memo' →
      Loop groups (⟨owner, step :: rest, steps⟩ :: outer) memo r memo'

section
variable {groups : Groups} {owner : Option String} {name : String} {entry : Tree}
  {entries rest steps more : List Tree} {parent : Frame} {stack outer : List Frame} {memo memo' : Expanded}
  {r : Except Fault (List Tree)} {fuel : Nat}

/-! ### What is left to do -/

-- The entries of the open lists and their ends, and the groups that may still be opened.
def work (groups : Groups) (stack : List Frame) (memo : Expanded) : Nat :=
  cost groups (openNames stack) memo + (stack.map fun frame => frame.entries.length + 1).sum

theorem work_cons : work groups (⟨owner, entries, steps⟩ :: outer) memo =
    cost groups (openNames (⟨owner, entries, steps⟩ :: outer)) memo +
      (entries.length + 1 + (outer.map fun frame => frame.entries.length + 1).sum) := by
  rw [work, List.map_cons, List.sum_cons]

theorem openNames_congr (owner : Option String) (entries rest steps more : List Tree) (outer : List Frame) :
    openNames (⟨owner, entries, steps⟩ :: outer) = openNames (⟨owner, rest, more⟩ :: outer) := by
  rw [openNames_cons, openNames_cons]

-- A group that is closed is known instead of open.
theorem cost_remembered (groups : Groups) (owner : Option String) (steps : List Tree) (outer : List Frame)
    (memo : Expanded) : cost groups (openNames outer) (remembered owner steps memo) =
      cost groups (openNames (⟨owner, [], steps⟩ :: outer)) memo := by
  rw [openNames_cons]
  cases owner with
  | none => rw [Option.toList_none, List.append_nil]; rfl
  | some name => exact cost_close groups (openNames outer) name steps memo

theorem work_close : work groups (⟨parent.name, parent.entries, parent.steps ++ steps⟩ :: outer)
    (remembered owner steps memo) < work groups (⟨owner, [], steps⟩ :: parent :: outer) memo := by
  have hcost := cost_remembered groups owner steps (parent :: outer) memo
  rw [openNames_congr parent.name parent.entries parent.entries parent.steps (parent.steps ++ steps)] at hcost
  rw [work_cons, hcost, work_cons, List.map_cons, List.sum_cons, List.length_nil]
  omega

theorem work_pass : work groups (⟨owner, rest, more⟩ :: outer) memo <
    work groups (⟨owner, entry :: rest, steps⟩ :: outer) memo := by
  rw [work_cons, work_cons, openNames_congr owner rest (entry :: rest) more steps, List.length_cons]
  omega

theorem work_open (hname : name ∉ openNames (⟨owner, rest, steps⟩ :: outer)) (hmemo : memo.lookup name = none)
    (hentries : entries? groups name = .ok entries) :
    work groups (⟨some name, entries, []⟩ :: ⟨owner, rest, steps⟩ :: outer) memo <
      work groups (⟨owner, .string name :: rest, steps⟩ :: outer) memo := by
  have hcost := cost_open hname hmemo hentries
  have hopen : openNames (⟨some name, entries, []⟩ :: ⟨owner, rest, steps⟩ :: outer) =
      openNames (⟨owner, rest, steps⟩ :: outer) ++ [name] := openNames_cons _ _ _ _
  rw [work_cons, work_cons, hopen, openNames_congr owner (.string name :: rest) rest steps steps]
  simp only [List.map_cons, List.sum_cons, List.length_cons]
  omega

-- The loop ends whatever is open, and whatever has been expanded.
theorem exists_loop (groups : Groups) (stack : List Frame) (memo : Expanded) :
    ∃ r memo', Loop groups stack memo r memo' := by
  match stack with
  | [] => exact ⟨_, _, .empty memo⟩
  | [⟨owner, [], steps⟩] => exact ⟨_, _, .finished owner steps memo⟩
  | ⟨owner, [], steps⟩ :: parent :: outer =>
      have hless := @work_close groups owner steps parent outer memo
      obtain ⟨r, memo', h⟩ := exists_loop groups _ (remembered owner steps memo)
      exact ⟨r, memo', .closed h⟩
  | ⟨owner, entry :: rest, steps⟩ :: outer =>
      have hpass (more : List Tree) :
          work groups (⟨owner, rest, more⟩ :: outer) memo <
            work groups (⟨owner, entry :: rest, steps⟩ :: outer) memo := work_pass
      by_cases htext : IsText entry
      · obtain ⟨name, rfl⟩ := htext
        cases hlookup : memo.lookup name with
        | some chunk =>
            have hless := hpass (steps ++ chunk)
            obtain ⟨r, memo', h⟩ := exists_loop groups (⟨owner, rest, steps ++ chunk⟩ :: outer) memo
            exact ⟨r, memo', .known hlookup h⟩
        | none =>
            by_cases hopen : name ∈ openNames (⟨owner, rest, steps⟩ :: outer)
            · exact ⟨_, _, .cyclic hlookup hopen⟩
            · cases hentries : entries? groups name with
              | error e => exact ⟨_, _, .missing hlookup hopen hentries⟩
              | ok entries =>
                  have hless := work_open hopen hlookup hentries
                  obtain ⟨r, memo', h⟩ :=
                    exists_loop groups (⟨some name, entries, []⟩ :: ⟨owner, rest, steps⟩ :: outer) memo
                  exact ⟨r, memo', .opened hlookup hopen hentries h⟩
      · have hless := hpass (steps ++ [entry])
        obtain ⟨r, memo', h⟩ := exists_loop groups (⟨owner, rest, steps ++ [entry]⟩ :: outer) memo
        exact ⟨r, memo', .step htext h⟩
termination_by work groups stack memo

/-! ### The bound on the steps -/

-- As long as a list is open there is a turn to take.
theorem exists_turn (hfuel : work groups (⟨owner, entries, steps⟩ :: outer) memo ≤ fuel) : ∃ n, fuel = n + 1 := by
  rw [work_cons] at hfuel
  exact Nat.exists_eq_add_of_le' (by omega)

theorem run_finished : (expandStack groups (fuel + 1) [⟨owner, [], steps⟩]).run.run memo =
    (.ok steps, remembered owner steps memo) := by
  rw [expandStack_closed]
  cases owner <;> rfl

theorem run_remembered : (expandStack groups (fuel + 1) (⟨owner, [], steps⟩ :: parent :: outer)).run.run memo =
    (expandStack groups fuel (⟨parent.name, parent.entries, parent.steps ++ steps⟩ :: outer)).run.run
      (remembered owner steps memo) := by
  rw [expandStack_closed]
  cases owner <;> rfl

-- Turns that are left over change nothing.
theorem Loop.run_expandStack (h : Loop groups stack memo r memo') (hfuel : work groups stack memo ≤ fuel) :
    (expandStack groups fuel stack).run.run memo = (r, memo') := by
  induction h generalizing fuel with
  | empty memo => cases fuel <;> rfl
  | finished name steps memo =>
      obtain ⟨fuel, rfl⟩ := exists_turn hfuel
      exact run_finished
  | @closed name steps parent outer memo memo' r _ ih =>
      have hless := @work_close groups name steps parent outer memo
      obtain ⟨fuel, rfl⟩ := exists_turn hfuel
      rw [run_remembered]
      exact ih (by omega)
  | @known owner name rest steps chunk outer memo memo' r hlookup _ ih =>
      have hless := @work_pass groups owner (.string name) rest steps (steps ++ chunk) outer memo
      obtain ⟨fuel, rfl⟩ := exists_turn hfuel
      rw [run_known hlookup]
      exact ih (by omega)
  | cyclic hlookup hopen =>
      obtain ⟨fuel, rfl⟩ := exists_turn hfuel
      rw [openNames_cons] at hopen ⊢
      exact run_cyclic hlookup hopen
  | missing hlookup hopen hentries =>
      obtain ⟨fuel, rfl⟩ := exists_turn hfuel
      rw [openNames_cons] at hopen
      exact run_missing hlookup hopen hentries
  | opened hlookup hopen hentries _ ih =>
      have hless := work_open hopen hlookup hentries
      obtain ⟨fuel, rfl⟩ := exists_turn hfuel
      rw [openNames_cons] at hopen
      rw [run_opened hlookup hopen hentries]
      exact ih (by omega)
  | @step owner step rest steps outer memo memo' r hstep _ ih =>
      have hless := @work_pass groups owner step rest steps (steps ++ [step]) outer memo
      obtain ⟨fuel, rfl⟩ := exists_turn hfuel
      rw [expandStack_step _ _ _ _ _ _ hstep]
      exact ih (by omega)

theorem work_le_stepBound (groups : Groups) (owner : Option String) (entries : List Tree) (memo : Expanded) :
    work groups [⟨owner, entries, []⟩] memo ≤ stepBound groups entries := by
  have hbound := cost_lt_stepBound groups (openNames [⟨owner, entries, []⟩]) memo entries
  rw [work_cons, List.map_nil, List.sum_nil]
  omega

theorem loop_iff : Loop groups [⟨owner, entries, []⟩] memo r memo' ↔
    (expandStack groups (stepBound groups entries) [⟨owner, entries, []⟩]).run.run memo = (r, memo') := by
  have hbound := work_le_stepBound groups owner entries memo
  refine ⟨fun h => h.run_expandStack hbound, fun h => ?_⟩
  obtain ⟨r', memo'', hloop⟩ := exists_loop groups [⟨owner, entries, []⟩] memo
  obtain ⟨rfl, rfl⟩ := Prod.ext_iff.mp (h.symm.trans (hloop.run_expandStack hbound))
  exact hloop

end
end ScraperTimeline.Normal
