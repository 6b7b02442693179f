import ScraperTimeline.Normal.Steps
import ScraperTimeline.Proofs.Tree.Fields
import ScraperTimeline.Proofs.Tree.Shape

/-!
The meaning of references. Which groups are left follows from which are open, so that entries are inlined
under the names of the open groups alone.
-/
namespace ScraperTimeline.Normal
open Shape

def unopened (groups : Groups) (open_ : List String) : Groups := groups.filter (·.1 ∉ open_)

def inlinedUnder (groups : Groups) (open_ : List String) (entries : List Tree) :
    Except Fault (List Tree) :=
  inlineEntries groups open_ (unopened groups open_) entries

def inlinedGroupUnder (groups : Groups) (open_ : List String) (name : String) :
    Except Fault (List Tree) :=
  inlineGroup groups open_ (unopened groups open_) name

section
variable {groups : Groups} {open_ other : List String} {name : String} {entries rest : List Tree}

theorem unopened_nil (groups : Groups) : unopened groups [] = groups := by
  simp [unopened]

theorem inlined_eq (groups : Groups) (entries : List Tree) :
    inlined groups entries = inlinedUnder groups [] entries := by
  rw [inlined, inlinedUnder, unopened_nil]

theorem inlinedGroup_eq (groups : Groups) (name : String) :
    inlinedGroup groups name = inlinedGroupUnder groups [] name := by
  rw [inlinedGroup, inlinedGroupUnder, unopened_nil]

theorem mem_of_entries? (h : entries? groups name = .ok entries) :
    ∃ group, groups.lookup name = some group ∧ group.items? = some entries := by
  rw [entries?] at h
  split at h
  next hitems =>
    obtain rfl := Except.ok.inj h
    exact Option.bind_eq_some_iff.mp hitems
  next => cases h

theorem entries?_eq_ok_iff : entries? groups name = .ok entries ↔ groups.lookup name = some (.seq entries) := by
  constructor
  · intro h
    obtain ⟨group, hgroup, hitems⟩ := mem_of_entries? h
    cases group with
    | seq items =>
        obtain rfl := Option.some.inj hitems
        exact hgroup
    | _ => cases hitems
  · intro h
    rw [entries?, h]
    rfl

theorem entries?_eq_error_iff {e : Fault} :
    entries? groups name = .error e ↔
      e = .definitionNotFound "step group" name ∧ ∀ entries, groups.lookup name ≠ some (.seq entries) := by
  simp only [ne_eq, ← entries?_eq_ok_iff]
  rw [entries?]
  split <;> simp [eq_comm]

theorem unopened_append (groups : Groups) (open_ : List String) (name : String) :
    unopened groups (open_ ++ [name]) = (unopened groups open_).filter (·.1 ≠ name) := by
  rw [unopened, unopened, List.filter_filter]
  congr 1
  funext group
  simp [and_comm]

-- A group that is opened is not left.
theorem length_unopened_lt (hopen : name ∉ open_) (h : entries? groups name = .ok entries) :
    (unopened groups (open_ ++ [name])).length < (unopened groups open_).length := by
  obtain ⟨group, hgroup, -⟩ := mem_of_entries? h
  rw [unopened_append]
  refine List.length_filter_lt_length_iff_exists.mpr ⟨(name, group), ?_, by simp⟩
  exact List.mem_filter.mpr ⟨Fields.mem_of_lookup hgroup, by simpa using hopen⟩

@[simp] theorem inlinedUnder_nil (groups : Groups) (open_ : List String) :
    inlinedUnder groups open_ [] = .ok [] := by
  rw [inlinedUnder, inlineEntries]

theorem inlinedUnder_text (groups : Groups) (open_ : List String) (name : String) (rest : List Tree) :
    inlinedUnder groups open_ (.string name :: rest) = (do
      let steps ← inlinedGroupUnder groups open_ name
      return steps ++ (← inlinedUnder groups open_ rest)) := by
  rw [inlinedUnder, inlineEntries]
  rfl

theorem inlinedUnder_step {step : Tree} (h : ¬IsText step) :
    inlinedUnder groups open_ (step :: rest) = (do return step :: (← inlinedUnder groups open_ rest)) := by
  rw [inlinedUnder, inlineEntries]
  · rfl
  · rintro s rfl
    exact h ⟨s, rfl⟩

theorem inlinedGroupUnder_of_mem (hopen : name ∈ open_) :
    inlinedGroupUnder groups open_ name = .error (.cyclicSteps (open_ ++ [name])) := by
  rw [inlinedGroupUnder, inlineGroup, if_pos hopen]

theorem inlinedGroupUnder_of_notMem (hopen : name ∉ open_) :
    inlinedGroupUnder groups open_ name =
      (do inlinedUnder groups (open_ ++ [name]) (← entries? groups name)) := by
  rw [inlinedGroupUnder, inlineGroup, if_neg hopen]
  cases hentries : entries? groups name with
  | error e => rfl
  | ok entries =>
      have hlt := length_unopened_lt hopen hentries
      rw [unopened_append] at hlt
      refine (dif_pos hlt).trans ?_
      rw [← unopened_append]
      rfl

theorem inlinedGroupUnder_of_entries (hopen : name ∉ open_) (h : entries? groups name = .ok entries) :
    inlinedGroupUnder groups open_ name = inlinedUnder groups (open_ ++ [name]) entries := by
  rw [inlinedGroupUnder_of_notMem hopen, h]
  rfl

-- Each group that is opened leaves fewer, and under the same groups the entries become fewer.
theorem inlined_induct {motive : List String → List Tree → Prop} (groups : Groups)
    (nil : ∀ open_, motive open_ [])
    (text : ∀ open_ name rest,
      (∀ entries, name ∉ open_ → entries? groups name = .ok entries → motive (open_ ++ [name]) entries) →
      motive open_ rest → motive open_ (.string name :: rest))
    (step : ∀ open_ step rest, ¬IsText step → motive open_ rest → motive open_ (step :: rest))
    (open_ : List String) (entries : List Tree) : motive open_ entries := by
  match entries with
  | [] => exact nil open_
  | entry :: rest =>
      have hrest : motive open_ rest := inlined_induct groups nil text step open_ rest
      by_cases htext : IsText entry
      · obtain ⟨name, rfl⟩ := htext
        refine text open_ name rest (fun entries hopen hentries => ?_) hrest
        have hlt := length_unopened_lt hopen hentries
        exact inlined_induct groups nil text step (open_ ++ [name]) entries
      · exact step open_ entry rest htext hrest
termination_by ((unopened groups open_).length, entries.length)

-- What entries stand for is what the groups stand for that they name.
theorem inlinedUnder_congr {groups' : Groups} (h : ∀ name, .string name ∈ entries →
    inlinedGroupUnder groups open_ name = inlinedGroupUnder groups' other name) :
    inlinedUnder groups open_ entries = inlinedUnder groups' other entries := by
  induction entries with
  | nil => simp
  | cons entry rest ih =>
      have hrest := ih fun name hname => h name (List.mem_cons_of_mem _ hname)
      by_cases htext : IsText entry
      · obtain ⟨name, rfl⟩ := htext
        rw [inlinedUnder_text, inlinedUnder_text, h name List.mem_cons_self, hrest]
      · rw [inlinedUnder_step htext, inlinedUnder_step htext, hrest]

theorem inlined_text (groups : Groups) (name : String) :
    inlined groups [.string name] = inlinedGroup groups name := by
  rw [inlined_eq, inlinedGroup_eq, inlinedUnder_text]
  cases inlinedGroupUnder groups [] name with
  | error e => rfl
  | ok steps =>
      rw [inlinedUnder_nil]
      exact congrArg Except.ok (List.append_nil steps)

end

/-! ### Inlining by rules -/

-- What entries come to, read from left to right, while the named groups are open around them from the
-- outermost in. The first text that fails is the result.
inductive Inlines (groups : Groups) : List String → List Tree → Except Fault (List Tree) → Prop
  | nil (open_ : List String) : Inlines groups open_ [] (.ok [])
  | step {open_ : List String} {step : Tree} {rest : List Tree} {r : Except Fault (List Tree)} :
      ¬IsText step → Inlines groups open_ rest r → Inlines groups open_ (step :: rest) (r.map (step :: ·))
  | group {open_ : List String} {name : String} {entries steps rest : List Tree}
      {r : Except Fault (List Tree)} :
      name ∉ open_ → groups.lookup name = some (.seq entries) →
      Inlines groups (open_ ++ [name]) entries (.ok steps) → Inlines groups open_ rest r →
      Inlines groups open_ (.string name :: rest) (r.map (steps ++ ·))
  | failing {open_ : List String} {name : String} {entries rest : List Tree} {e : Fault} :
      name ∉ open_ → groups.lookup name = some (.seq entries) →
      Inlines groups (open_ ++ [name]) entries (.error e) →
      Inlines groups open_ (.string name :: rest) (.error e)
  | cyclic {open_ : List String} {name : String} {rest : List Tree} :
      name ∈ open_ → Inlines groups open_ (.string name :: rest) (.error (.cyclicSteps (open_ ++ [name])))
  | missing {open_ : List String} {name : String} {rest : List Tree} :
      name ∉ open_ → (∀ entries, groups.lookup name ≠ some (.seq entries)) →
      Inlines groups open_ (.string name :: rest) (.error (.definitionNotFound "step group" name))

section
variable {groups : Groups} {open_ : List String} {entries : List Tree} {r : Except Fault (List Tree)}

theorem Inlines.inlinedUnder_eq (h : Inlines groups open_ entries r) :
    inlinedUnder groups open_ entries = r := by
  induction h with
  | nil open_ => exact inlinedUnder_nil groups open_
  | @step open_ step rest r hstep _ ih =>
      rw [inlinedUnder_step hstep, ih]
      cases r <;> rfl
  | @group open_ name entries steps rest r hopen hlookup _ _ hgroup hrest =>
      rw [inlinedUnder_text, inlinedGroupUnder_of_entries hopen (entries?_eq_ok_iff.mpr hlookup), hgroup, hrest]
      cases r <;> rfl
  | @failing open_ name entries rest e hopen hlookup _ hgroup =>
      rw [inlinedUnder_text, inlinedGroupUnder_of_entries hopen (entries?_eq_ok_iff.mpr hlookup), hgroup]
      rfl
  | cyclic hopen =>
      rw [inlinedUnder_text, inlinedGroupUnder_of_mem hopen]
      rfl
  | missing hopen hmissing =>
      rw [inlinedUnder_text, inlinedGroupUnder_of_notMem hopen, entries?_eq_error_iff.mpr ⟨rfl, hmissing⟩]
      rfl

theorem inlines_text {name : String} {rest : List Tree}
    (hgroup : ∀ entries, name ∉ open_ → entries? groups name = .ok entries →
      Inlines groups (open_ ++ [name]) entries (inlinedUnder groups (open_ ++ [name]) entries))
    (hrest : Inlines groups open_ rest (inlinedUnder groups open_ rest)) :
    ∃ r, Inlines groups open_ (.string name :: rest) r := by
  by_cases hopen : name ∈ open_
  · exact ⟨_, .cyclic hopen⟩
  · cases hentries : entries? groups name with
    | error e => exact ⟨_, .missing hopen (entries?_eq_error_iff.mp hentries).2⟩
    | ok entries =>
        have hinside := hgroup entries hopen hentries
        have hlookup := entries?_eq_ok_iff.mp hentries
        cases hresult : inlinedUnder groups (open_ ++ [name]) entries with
        | error e => exact ⟨_, .failing hopen hlookup (hresult ▸ hinside)⟩
        | ok steps => exact ⟨_, .group hopen hlookup (hresult ▸ hinside) hrest⟩

theorem inlines_inlinedUnder (groups : Groups) (open_ : List String) (entries : List Tree) :
    Inlines groups open_ entries (inlinedUnder groups open_ entries) := by
  induction open_, entries using inlined_induct groups with
  | nil open_ =>
      rw [inlinedUnder_nil]
      exact .nil open_
  | text open_ name rest hgroup hrest =>
      obtain ⟨r, h⟩ := inlines_text hgroup hrest
      exact h.inlinedUnder_eq ▸ h
  | step open_ step rest hstep hrest =>
      have h := Inlines.step hstep hrest
      exact h.inlinedUnder_eq ▸ h

-- The rules give one result, that of the recursion.
theorem inlines_iff : Inlines groups open_ entries r ↔ inlinedUnder groups open_ entries = r :=
  ⟨Inlines.inlinedUnder_eq, fun h => h ▸ inlines_inlinedUnder groups open_ entries⟩

theorem inlines_inlined (groups : Groups) (entries : List Tree) :
    Inlines groups [] entries (inlined groups entries) := by
  rw [inlined_eq]
  exact inlines_inlinedUnder groups [] entries

-- Of what goes well all parts have gone well.
@[elab_as_elim] theorem Inlines.ok_induct {motive : List String → List Tree → List Tree → Prop}
    {steps : List Tree} (h : Inlines groups open_ entries (.ok steps))
    (nil : ∀ open_, motive open_ [] [])
    (step : ∀ open_ step rest steps, ¬IsText step → motive open_ rest steps →
      motive open_ (step :: rest) (step :: steps))
    (group : ∀ open_ name entries rest steps more, name ∉ open_ → groups.lookup name = some (.seq entries) →
      motive (open_ ++ [name]) entries steps → motive open_ rest more →
      motive open_ (.string name :: rest) (steps ++ more)) : motive open_ entries steps := by
  generalize hr : Except.ok steps = r at h
  induction h generalizing steps with
  | nil open_ =>
      obtain rfl := Except.ok.inj hr
      exact nil open_
  | @step open_ entry rest r hstep _ ih =>
      cases r with
      | error e => cases hr
      | ok more =>
          obtain rfl := Except.ok.inj hr
          exact step open_ entry rest more hstep (ih rfl)
  | @group open_ name entries chunk rest r hopen hlookup _ _ hgroup hrest =>
      cases r with
      | error e => cases hr
      | ok more =>
          obtain rfl := Except.ok.inj hr
          exact group open_ name entries rest chunk more hopen hlookup (hgroup rfl) (hrest rfl)
  | failing => cases hr
  | cyclic => cases hr
  | missing => cases hr

end
end ScraperTimeline.Normal
